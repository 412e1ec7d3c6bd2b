import Mathlib.Data.List.Nodup
import Mathlib.Logic.Relation
import MethodGraph.Proofs.NaturalLoops
/-!
  How natural loops nest.

  Two loops that share a block which can be reached are one inside the other.  Both headers are on
  every way to that block, and from the one that comes last the way goes on around the other one,
  so the loop of the other holds it.  A loop that holds the header of another one holds all of its
  body, but the other does not hold its header, because of two blocks only one can dominate the
  other.  So the loops around a block form a chain in which the bodies grow, the smallest loop
  around a header is the next one of the chain (`Nested`), and depths count the loops of the chain.
-/

namespace MethodGraph

open List Graph

variable {g : Graph} {a b h h' u x y : BlockId} {k l : Loop} {ls : List Loop} {i j : Nat}

/-! ## Headers -/

namespace Graph

theorem Dominates.antisymm (hab : g.Dominates a b) (hba : g.Dominates b a) : a = b := by
  by_contra hne
  obtain ⟨xs, hxs⟩ := hab.1.trail
  obtain ⟨ys, hys, -, hnodup⟩ := hxs.nodup
  cases hys with
  | entry => exact hne (mem_singleton.1 (hab.2 _ .entry))
  | step hys hb =>
    have ha := (mem_cons.1 (hab.2 _ (.step hys hb))).resolve_left hne
    obtain ⟨zs, hzs, hsub⟩ := hys.upTo ha
    exact (nodup_cons.1 hnodup).1 (hsub.subset (hba.2 zs hzs))

theorem Around.avoid (p : g.Around h x u) (havoid : ∀ y, g.Around h y u → y ≠ h') :
    g.Around h' x u := by
  induction p with
  | refl hu => exact .refl (havoid _ (.refl hu))
  | step hx hs p ih => exact .step (havoid _ (.step hx hs p)) hs (ih havoid)

/-- Of two blocks on a path one comes last, and from there the path goes on around the other. -/
theorem Trail.around {xs : List BlockId} (hxs : Trail g x xs) (ha : a ∈ xs) (hb : b ∈ xs)
    (hne : a ≠ b) : g.Around a b x ∨ g.Around b a x := by
  induction hxs with
  | entry => exact absurd ((mem_singleton.1 ha).trans (mem_singleton.1 hb).symm) hne
  | @step x y xs _ hs ih =>
    by_cases hya : y = a
    · exact .inr (hya ▸ .refl (hya ▸ hne))
    by_cases hyb : y = b
    · exact .inl (hyb ▸ .refl (hyb ▸ hne.symm))
    have ha := (mem_cons.1 ha).resolve_left (Ne.symm hya)
    have hb := (mem_cons.1 hb).resolve_left (Ne.symm hyb)
    exact (ih ha hb).imp (·.trans_step hs hya) (·.trans_step hs hyb)

namespace Paired

variable (hg : g.Paired) (hl : l ∈ g.naturalLoops) (hk : k ∈ g.naturalLoops)

include hg hl hk

theorem header_not_mem (hmem : l.header ∈ k.body) (hne : l.header ≠ k.header) :
    k.header ∉ l.body := fun hmem' =>
  hne ((hg.dominates_of_mem hl (hg.reaches_header hk) hmem').antisymm
    (hg.dominates_of_mem hk (hg.reaches_header hl) hmem))

theorem body_subset (hmem : l.header ∈ k.body) : l.body ⊆ k.body := by
  by_cases hne : l.header = k.header
  · intro x hx
    rw [hg.mem_body hk, ← hne]
    exact (hg.mem_body hl).1 hx
  · intro x hx
    rcases (hg.mem_body hl).1 hx with rfl | ⟨u, e, p⟩
    · exact hmem
    · obtain ⟨v, f, q⟩ := ((hg.mem_body hk).1 hmem).resolve_left hne
      have p' : g.Around k.header x u := p.avoid fun y py hy =>
        hg.header_not_mem hl hk hmem hne (hy ▸ (hg.mem_body hl).2 (.inr ⟨u, e, py⟩))
      exact (hg.mem_body hk).2 (.inr ⟨v, f, (p'.trans_step e.mem_succsOf hne).trans q⟩)

theorem length_lt (hmem : l.header ∈ k.body) (hne : l.header ≠ k.header) :
    l.body.length < k.body.length := by
  have hnodup : (k.header :: l.body).Nodup :=
    nodup_cons.2 ⟨hg.header_not_mem hl hk hmem hne, (hg.found.natural hl).nodup⟩
  have hsub : k.header :: l.body ⊆ k.body :=
    cons_subset.2 ⟨(hg.mem_body hk).2 (.inl rfl), hg.body_subset hl hk hmem⟩
  exact (hnodup.subperm hsub).length_le

/-- Loops with a common block are one inside the other. -/
theorem header_mem_or (hx : g.Reaches x) (hxl : x ∈ l.body) (hxk : x ∈ k.body) :
    l.header ∈ k.body ∨ k.header ∈ l.body := by
  by_cases hne : l.header = k.header
  · exact .inl ((hg.mem_body hk).2 (.inl hne))
  · obtain ⟨xs, hxs⟩ := hx.trail
    have hlast : ∀ {l k : Loop}, k ∈ g.naturalLoops → x ∈ k.body →
        g.Around k.header l.header x → l.header ∈ k.body := by
      intro l k hk hxk p
      obtain ⟨u, e, q⟩ := ((hg.mem_body hk).1 hxk).resolve_left p.ne_last
      exact (hg.mem_body hk).2 (.inr ⟨u, e, p.trans q⟩)
    rcases hxs.around ((hg.dominates_of_mem hl hx hxl).2 _ hxs)
      ((hg.dominates_of_mem hk hx hxk).2 _ hxs) hne with p | p
    · exact .inr (hlast hl hxl p)
    · exact .inl (hlast hk hxk p)

/-- The smallest of the loops around a block has its header in all others. -/
theorem header_mem_of_le (hx : g.Reaches x) (hxl : x ∈ l.body) (hxk : x ∈ k.body)
    (hle : l.body.length ≤ k.body.length) : l.header ∈ k.body := by
  rcases hg.header_mem_or hl hk hx hxl hxk with hmem | hmem
  · exact hmem
  · by_contra hnot
    have hne : k.header ≠ l.header := fun e => hnot ((hg.mem_body hk).2 (.inl e.symm))
    exact Nat.not_le_of_lt (hg.length_lt hk hl hmem hne) hle

end Paired
end Graph

/-! ## Parents -/

namespace Loop

/-- The smaller one of the best loop so far, given by size and number, and the next one. -/
def better (best : Option (Nat × Nat)) (p : Loop × Nat) : Option (Nat × Nat) :=
  match best with
  | none => some (p.1.body.length, p.2)
  | some (size, _) => if p.1.body.length < size then some (p.1.body.length, p.2) else best

theorem foldl_better (ps : List (Loop × Nat)) (best : Nat × Nat) :
    ∃ best', ps.foldl better (some best) = some best' ∧ best'.1 ≤ best.1 ∧
      (best' = best ∨ ∃ p ∈ ps, best' = (p.1.body.length, p.2)) ∧
      ∀ p ∈ ps, best'.1 ≤ p.1.body.length := by
  induction ps generalizing best with
  | nil => exact ⟨best, rfl, Nat.le_refl _, .inl rfl, nofun⟩
  | cons p ps ih =>
    rw [foldl_cons, better]
    split
    · obtain ⟨best', hfold, hle, horigin, hall⟩ := ih (p.1.body.length, p.2)
      exact ⟨best', hfold, by grind, by grind, by grind⟩
    · obtain ⟨best', hfold, hle, horigin, hall⟩ := ih best
      exact ⟨best', hfold, hle, by grind, by grind⟩

/-- The loop number `j` is a smallest one around a block, not counting the loop number `i`. -/
def Surrounds (ls : List Loop) (i : Nat) (b : BlockId) (j : Nat) : Prop :=
  ∃ k, ls[j]? = some k ∧ j ≠ i ∧ b ∈ k.body ∧
    ∀ {j' : Nat} {k' : Loop}, ls[j']? = some k' → j' ≠ i → b ∈ k'.body →
      k.body.length ≤ k'.body.length

theorem smallestAround_spec (ls : List Loop) (i : Nat) (b : BlockId) :
    smallestAround ls i b = none ∧
      (∀ j k, ls[j]? = some k → j ≠ i → b ∉ k.body) ∨
    ∃ j, smallestAround ls i b = some j ∧ Surrounds ls i b j := by
  have heq : smallestAround ls i b = ((ls.zipIdx.filter fun p =>
      p.2 ≠ i && p.1.body.contains b).foldl better none).map (·.2) := rfl
  have hmem : ∀ k j, (k, j) ∈ (ls.zipIdx.filter fun p => p.2 ≠ i && p.1.body.contains b) ↔
      ls[j]? = some k ∧ j ≠ i ∧ b ∈ k.body := by
    simp [mem_zipIdx_iff_getElem?]
  rw [heq]
  generalize (ls.zipIdx.filter fun p => p.2 ≠ i && p.1.body.contains b) = ps at hmem
  cases ps with
  | nil => exact .inl ⟨rfl, fun j k hk hne hb => not_mem_nil ((hmem k j).2 ⟨hk, hne, hb⟩)⟩
  | cons p ps =>
    obtain ⟨best, hfold, hle, horigin, hall⟩ := foldl_better ps (p.1.body.length, p.2)
    obtain ⟨q, hq, rfl⟩ : ∃ q ∈ p :: ps, best = (q.1.body.length, q.2) := by grind
    obtain ⟨hk, hne, hb⟩ := (hmem q.1 q.2).1 hq
    refine .inr ⟨q.2, congrArg (Option.map (·.2)) hfold, q.1, hk, hne, hb, ?_⟩
    intro j' k' hk' hne' hb'
    rcases mem_cons.1 ((hmem k' j').2 ⟨hk', hne', hb'⟩) with rfl | hmem'
    · exact hle
    · exact hall _ hmem'

/-- How many loops there are around a block. -/
def around (ls : List Loop) (b : BlockId) : Nat := ls.countP (·.body.contains b)

/-- Parents are smallest loops around headers, and depths count parents. -/
structure Nested (ls : List Loop) : Prop where
  parent {i : Nat} {l : Loop} : ls[i]? = some l →
    l.parent = none ∧ (∀ j k, ls[j]? = some k → j ≠ i → l.header ∉ k.body) ∨
    ∃ j, l.parent = some j ∧ Surrounds ls i l.header j
  depth {i : Nat} {l : Loop} : ls[i]? = some l → l.depth = chainLength ls ls.length l.parent + 1

theorem chainLength_congr {ls' : List Loop}
    (hsame : ∀ i : Nat, (ls[i]?).bind (·.parent) = (ls'[i]?).bind (·.parent)) (fuel : Nat)
    (i? : Option Nat) : chainLength ls fuel i? = chainLength ls' fuel i? := by
  induction fuel generalizing i? with
  | zero => rfl
  | succ fuel ih =>
    cases i? with
    | none => rfl
    | some i => rw [chainLength, chainLength, hsame, ih]

theorem nested_nest (ls : List Loop) : Nested (nest ls) where
  parent {i l} hl := by
    have hat : ∀ {j : Nat} {k : Loop}, (nest ls)[j]? = some k →
        ∃ k', ls[j]? = some k' ∧ k.body = k'.body := by
      intro j k hk
      rw [getElem?_nest] at hk
      obtain ⟨k', hk', rfl⟩ := Option.map_eq_some_iff.1 hk
      exact ⟨k', hk', rfl⟩
    rw [getElem?_nest] at hl
    obtain ⟨l, hl, rfl⟩ := Option.map_eq_some_iff.1 hl
    rcases smallestAround_spec ls i l.header with ⟨hnone, hall⟩ | ⟨j, hj, k, hk, hne, hb, hall⟩
    · refine .inl ⟨hnone, fun j k hk hne => ?_⟩
      obtain ⟨k', hk', hbody⟩ := hat hk
      exact hbody ▸ hall j k' hk' hne
    · refine .inr ⟨j, hj, _, (getElem?_nest j).trans (congrArg (Option.map _) hk), hne, hb,
        fun hk' hne' hb' => ?_⟩
      obtain ⟨k'', hk'', hbody⟩ := hat hk'
      exact hbody ▸ hall hk'' hne' (hbody ▸ hb')
  depth {i l} hl := by
    have hsame : ∀ i : Nat, ((linked ls)[i]?).bind (·.parent) =
        ((nest ls)[i]?).bind (·.parent) := by
      intro i
      rw [getElem?_linked, getElem?_nest]
      cases ls[i]? <;> rfl
    rw [getElem?_nest] at hl
    obtain ⟨l, hl, rfl⟩ := Option.map_eq_some_iff.1 hl
    have hlength : (nest ls).length = ls.length := by simp [nest]
    rw [hlength, ← chainLength_congr hsame]

theorem countP_succ {p q : Loop → Bool} (hl : l ∈ ls) (hnodup : ls.Nodup) (hp : p l = true)
    (hq : q l = false) (hsame : ∀ m ∈ ls, m ≠ l → (p m = true ↔ q m = true)) :
    ls.countP p = ls.countP q + 1 := by
  rw [(perm_cons_erase hl).countP_eq p, (perm_cons_erase hl).countP_eq q, countP_cons_of_pos hp,
    countP_cons_of_neg (by simp [hq])]
  refine congrArg (· + 1) (countP_congr fun m hm => ?_)
  obtain ⟨hne, hm⟩ := hnodup.mem_erase_iff.1 hm
  exact hsame m hm hne

/-- The loop number `j` is the parent of the loop number `i`. -/
def Inside (ls : List Loop) (i j : Nat) : Prop := ∃ l, ls[i]? = some l ∧ l.parent = some j

/-- How large the body of a loop is, given by its number. -/
def bodySize (ls : List Loop) (i : Nat) : Nat := ((ls[i]?).map (·.body.length)).getD 0

theorem chainLength_none (fuel : Nat) : chainLength ls fuel none = 0 := by
  cases fuel <;> rfl

/-- Each loop of a chain has one loop less around its header than the one before it. -/
theorem chainLength_eq
    (hstep : ∀ {i : Nat} {l : Loop}, ls[i]? = some l →
      l.parent = none ∧ around ls l.header = 1 ∨
      ∃ j k, l.parent = some j ∧ ls[j]? = some k ∧ around ls l.header = around ls k.header + 1)
    (fuel : Nat) (hl : ls[i]? = some l) (hfuel : around ls l.header ≤ fuel + 1) :
    chainLength ls fuel l.parent + 1 = around ls l.header := by
  induction fuel generalizing i l with
  | zero =>
    rw [chainLength]
    rcases hstep hl with ⟨-, hone⟩ | ⟨j, k, -, hk, hsucc⟩
    · exact hone.symm
    · rcases hstep hk with ⟨-, hone⟩ | ⟨_, _, -, -, hsucc'⟩ <;> omega
  | succ fuel ih =>
    rcases hstep hl with ⟨hnone, hone⟩ | ⟨j, k, hparent, hk, hsucc⟩
    · rw [hnone, chainLength_none, hone]
    · have hrest := ih hk (by omega)
      rw [hparent, chainLength, hk, Option.bind_some, hrest, hsucc]

end Loop

variable (hg : g.Paired) (hl : g.naturalLoops[i]? = some l)

namespace Graph.Paired

open Loop

include hg hl in
theorem header_ne (hk : g.naturalLoops[j]? = some k) (hne : j ≠ i) : l.header ≠ k.header := by
  intro heq
  obtain ⟨hlt, -⟩ := List.getElem?_eq_some_iff.1 hk
  have hsame : (g.naturalLoops.map (·.header))[j]? = (g.naturalLoops.map (·.header))[i]? := by
    rw [getElem?_map, getElem?_map, hk, hl, Option.map_some, Option.map_some, heq]
  exact hne ((getElem?_inj (by rwa [length_map]) hg.found.headers).1 hsame)

theorem parent_eq_none (hl : g.naturalLoops[i]? = some l) : l.parent = none ↔
    ∀ (j : Nat) (k : Loop), g.naturalLoops[j]? = some k → j ≠ i → l.header ∉ k.body := by
  rcases (nested_nest _).parent hl with ⟨hnone, hall⟩ | ⟨j, hj, k, hk, hne, hmem, -⟩
  · exact iff_of_true hnone hall
  · exact iff_of_false (fun hnone => nomatch hnone.symm.trans hj) fun hall => hall j k hk hne hmem

include hg hl in
/-- A loop is inside its parent, and its parent is inside all other loops around its header. -/
theorem parent_spec (hj : l.parent = some j) :
    ∃ k, g.naturalLoops[j]? = some k ∧ j ≠ i ∧ l.header ∈ k.body ∧
      ∀ {j' : Nat} {m : Loop}, g.naturalLoops[j']? = some m → j' ≠ i → l.header ∈ m.body →
        k.header ∈ m.body := by
  rcases (nested_nest _).parent hl with ⟨hnone, -⟩ | ⟨j', hj', k, hk, hne, hmem, hmin⟩
  · cases hnone.symm.trans hj
  · cases hj'.symm.trans hj
    refine ⟨k, hk, hne, hmem, fun hm hne hmem' => ?_⟩
    exact hg.header_mem_of_le (mem_of_getElem? hk) (mem_of_getElem? hm)
      (hg.reaches_header (mem_of_getElem? hl)) hmem hmem' (hmin hm hne hmem')

theorem bodySize_lt (hg : g.Paired) (hij : Loop.Inside g.naturalLoops i j) :
    bodySize g.naturalLoops i < bodySize g.naturalLoops j := by
  obtain ⟨l, hl, hj⟩ := hij
  obtain ⟨k, hk, hne, hmem, -⟩ := hg.parent_spec hl hj
  rw [bodySize, bodySize, hl, hk]
  exact hg.length_lt (mem_of_getElem? hl) (mem_of_getElem? hk) hmem (hg.header_ne hl hk hne)

include hg hl in
/-- A loop has one loop more around its header than its parent. -/
theorem around_header :
    l.parent = none ∧ around g.naturalLoops l.header = 1 ∨
      ∃ j k, l.parent = some j ∧ g.naturalLoops[j]? = some k ∧
        around g.naturalLoops l.header = around g.naturalLoops k.header + 1 := by
  have hmem := mem_of_getElem? hl
  have hself : l.body.contains l.header = true :=
    contains_iff_mem.2 ((hg.mem_body hmem).2 (.inl rfl))
  have hother : ∀ m ∈ g.naturalLoops, m ≠ l → ∃ j : Nat, g.naturalLoops[j]? = some m ∧ j ≠ i := by
    intro m hm hne
    obtain ⟨j, hj⟩ := mem_iff_getElem?.1 hm
    refine ⟨j, hj, ?_⟩
    rintro rfl
    exact hne (Option.some.inj (hj.symm.trans hl))
  have hnodup := Nodup.of_map _ hg.found.headers
  cases hp : l.parent with
  | none =>
    refine .inl ⟨rfl, (countP_succ (q := fun _ => false) hmem hnodup hself rfl ?_).trans (by simp)⟩
    intro m hm hne
    obtain ⟨j, hj, hne⟩ := hother m hm hne
    simpa using (parent_eq_none hl).1 hp j m hj hne
  | some j =>
    obtain ⟨k, hk, hne, hmemk, hall⟩ := hg.parent_spec hl hp
    have hkmem := mem_of_getElem? hk
    have hnot := hg.header_not_mem hmem hkmem hmemk (hg.header_ne hl hk hne)
    refine .inr ⟨j, k, rfl, hk, countP_succ hmem hnodup hself (by simpa using hnot) ?_⟩
    intro m hm hne
    obtain ⟨j', hj', hne'⟩ := hother m hm hne
    rw [contains_iff_mem, contains_iff_mem]
    exact ⟨hall hj' hne', fun hkm => hg.body_subset hkmem hm hkm hmemk⟩

include hg hl in
theorem depth_eq : l.depth = around g.naturalLoops l.header :=
  ((nested_nest _).depth hl).trans
    (chainLength_eq hg.around_header _ hl (Nat.le_succ_of_le countP_le_length))

/-- The innermost loop around a block is as deep as there are loops around the block. -/
theorem depthOf_eq (hg : g.Paired) (hx : g.Reaches x) :
    depthOf g.naturalLoops x = around g.naturalLoops x := by
  apply Nat.le_antisymm
  · refine depthOf_le.2 fun l hl hxl => ?_
    obtain ⟨i, hi⟩ := mem_iff_getElem?.1 hl
    rw [hg.depth_eq hi]
    refine countP_mono_left fun m hm hlm => ?_
    rw [contains_iff_mem] at hlm ⊢
    exact hg.body_subset hl hm hlm hxl
  · rcases smallestAround_spec g.naturalLoops g.naturalLoops.length x with
      ⟨-, hnone⟩ | ⟨i, -, l, hi, -, hxl, hmin⟩
    · rw [around, countP_eq_zero.2 fun l hl => ?_]
      · exact Nat.zero_le _
      · obtain ⟨i, hi⟩ := mem_iff_getElem?.1 hl
        simpa using hnone i l hi (Nat.ne_of_lt (List.getElem?_eq_some_iff.1 hi).1)
    · have hl := mem_of_getElem? hi
      calc around g.naturalLoops x ≤ around g.naturalLoops l.header := by
            refine countP_mono_left fun m hm hxm => ?_
            rw [contains_iff_mem] at hxm ⊢
            obtain ⟨j, hj⟩ := mem_iff_getElem?.1 hm
            exact hg.header_mem_of_le hl hm hx hxl hxm
              (hmin hj (Nat.ne_of_lt (List.getElem?_eq_some_iff.1 hj).1) hxm)
        _ = l.depth := (hg.depth_eq hi).symm
        _ ≤ depthOf g.naturalLoops x := depthOf_le.1 (Nat.le_refl _) l hl hxl

end Graph.Paired

/-- Parents form no circles.  The parent of a loop is the one smallest loop among the others around
    its header, and holds its body and more.  The depth of a loop counts the loops around its
    header, and the depth of a block that can be reached counts the loops around the block. -/
theorem Graph.Edged.loops_nested (hg : g.Edged) :
    (∀ i, ¬ Relation.TransGen (Loop.Inside g.naturalLoops) i i) ∧
    (∀ (i : Nat) (l : Loop), g.naturalLoops[i]? = some l →
      (l.parent = none ↔
        ∀ (j : Nat) (k : Loop), g.naturalLoops[j]? = some k → j ≠ i → l.header ∉ k.body) ∧
      (∀ j, l.parent = some j ↔ ∃ k, g.naturalLoops[j]? = some k ∧ j ≠ i ∧ l.header ∈ k.body ∧
        ∀ (j' : Nat) (k' : Loop), g.naturalLoops[j']? = some k' → j' ≠ i → j' ≠ j →
          l.header ∈ k'.body → k.body.length < k'.body.length) ∧
      (∀ (j : Nat) (k : Loop), l.parent = some j → g.naturalLoops[j]? = some k →
        l.body ⊆ k.body ∧ ¬ k.body ⊆ l.body) ∧
      l.depth = g.naturalLoops.countP (·.body.contains l.header)) ∧
    ∀ x, g.Reaches x →
      Loop.depthOf g.naturalLoops x = g.naturalLoops.countP (·.body.contains x) := by
  have hg := hg.paired
  refine ⟨?_, fun i l hl => ⟨Paired.parent_eq_none hl, fun j => ⟨?_, ?_⟩, ?_, hg.depth_eq hl⟩,
    fun x => hg.depthOf_eq⟩
  · intro i hi
    have hlt := hi.lift (p := (· < ·)) (Loop.bodySize g.naturalLoops) fun _ _ => hg.bodySize_lt
    rw [Relation.transGen_eq_self] at hlt
    exact Nat.lt_irrefl _ hlt
  · intro hp
    obtain ⟨k, hk, hne, hmem, hall⟩ := hg.parent_spec hl hp
    refine ⟨k, hk, hne, hmem, fun j' k' hk' hne' hnej hmem' => ?_⟩
    exact hg.length_lt (mem_of_getElem? hk) (mem_of_getElem? hk') (hall hk' hne' hmem')
      (hg.header_ne hk hk' hnej)
  · rintro ⟨k, hk, hne, hmem, hmin⟩
    cases hp : l.parent with
    | none => exact absurd hmem ((Paired.parent_eq_none hl).1 hp j k hk hne)
    | some j' =>
      obtain ⟨k', hk', hne', hmem', hall⟩ := hg.parent_spec hl hp
      by_contra hjj
      have hjj : j' ≠ j := fun e => hjj (e ▸ rfl)
      have hlt := hg.length_lt (mem_of_getElem? hk') (mem_of_getElem? hk) (hall hk hne hmem)
        (hg.header_ne hk' hk hjj.symm)
      exact Nat.lt_asymm hlt (hmin j' k' hk' hne' hjj hmem')
  · intro j k hp hk
    obtain ⟨k', hk', hne, hmem, -⟩ := hg.parent_spec hl hp
    cases hk.symm.trans hk'
    have hlm := mem_of_getElem? hl
    have hkm := mem_of_getElem? hk
    refine ⟨hg.body_subset hlm hkm hmem, fun hsub => ?_⟩
    exact hg.header_not_mem hlm hkm hmem (hg.header_ne hl hk hne)
      (hsub ((hg.mem_body hkm).2 (.inl rfl)))

/-- A case of it: the loop of block 3 is inside the loop of block 2. -/
theorem loops_nested_strayed : ∃ g, strayed 3 = .ok g ∧ g.Edged ∧ g.Reaches 3 ∧
    g.naturalLoops.map (·.parent) = [none, some 0] ∧ Loop.depthOf g.naturalLoops 3 = 2 ∧
    ¬ Relation.TransGen (Loop.Inside g.naturalLoops) 1 1 := by
  have hcheck : passes (strayed 3) (fun g => decide (3 ∈ g.order.rpo ∧
      g.naturalLoops.map (·.parent) = [none, some 0] ∧
      g.naturalLoops.countP (·.body.contains 3) = 2)) = true := by decide +kernel
  obtain ⟨g, hg, hedged, hrpo, hparents, hcount⟩ := strayed_passes hcheck
  have h3 := hedged.paired.fits.mem.1 hrpo
  obtain ⟨hacyclic, -, hdepth⟩ := hedged.loops_nested
  exact ⟨g, hg, hedged, h3, hparents, (hdepth 3 h3).trans hcount, hacyclic 1⟩

end MethodGraph
