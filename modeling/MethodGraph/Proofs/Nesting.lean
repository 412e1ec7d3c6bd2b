import Mathlib.Data.List.Perm.Subperm
import MethodGraph.Proofs.Forest
/-!
  What hangs from a builder, and how it is written out.

  `Writes` says what the entries of a sequence come to when they are written out: a block is
  itself, and a builder is its own sequence written out, followed by its exit.  Where no builder
  contains itself the result exists, is unique, and has every block of every builder once
  (`Forest.writes_nodup`).

  `nested` lists a builder and all that hangs from it, the parts before the whole; going through
  this list is what the recursion of connecting does.
-/

namespace MethodGraph

open List Builder

variable {x : BlockId} {a b c r : BuilderId} {xs : List BlockId}

/-- A builder contains another. -/
def Holds (P : BuilderId → Option Builder) (b c : BuilderId) : Prop :=
  ∃ d, P b = some d ∧ c ∈ d.children

/-- A builder hangs from another, or is the same. -/
abbrev Under (P : BuilderId → Option Builder) : BuilderId → BuilderId → Prop :=
  Relation.ReflTransGen (Holds P)

/-- A builder hangs from itself. -/
def Circular (P : BuilderId → Option Builder) (b : BuilderId) : Prop :=
  Relation.TransGen (Holds P) b b

namespace Forest

variable {P : BuilderId → Option Builder} {n : Nat} {loose : List BlockId}

variable (h : Forest P n loose)

include h in
theorem holder_unique (ha : Holds P a c) (hb : Holds P b c) : a = b := by
  obtain ⟨d, hd, hc⟩ := ha
  obtain ⟨e, he, hc'⟩ := hb
  exact h.parent hd he hc hc'

include h in
/-- What is strictly above a builder is at or above the one that contains it. -/
theorem under_holder (hb : Holds P b c) (ha : Relation.TransGen (Holds P) a c) : Under P a b := by
  obtain ⟨p, hap, hpc⟩ := Relation.TransGen.tail'_iff.1 ha
  rwa [h.holder_unique hb hpc]

include h in
theorem circular_of_child (hbc : Holds P b c) (hc : Circular P c) : Circular P b :=
  Relation.TransGen.head' hbc (h.under_holder hbc hc)

include h in
/-- Nothing that hangs from a builder which is contained in none hangs from itself. -/
theorem not_circular (hr : ∀ a, ¬ Holds P a r) (hb : Under P r b) : ¬ Circular P b := by
  induction hb with
  | refl =>
    intro hc
    obtain ⟨p, -, hp⟩ := Relation.TransGen.tail'_iff.1 hc
    exact hr p hp
  | tail _ hbc ih => exact fun hc => ih (h.circular_of_child hbc hc)

include h in
/-- Two builders with something in common below them: one hangs from the other. -/
theorem under_total (ha : Under P a c) (hb : Under P b c) : Under P a b ∨ Under P b a := by
  have hunique : Relator.RightUnique (Function.swap (Holds P)) :=
    fun _ _ _ h1 h2 => h.holder_unique h1 h2
  have hswap : ∀ {x y : BuilderId}, Under P x y →
      Relation.ReflTransGen (Function.swap (Holds P)) y x := fun h => h.swap
  rcases Relation.ReflTransGen.total_of_right_unique hunique (hswap ha) (hswap hb) with h1 | h1
  · exact .inr h1.swap
  · exact .inl h1.swap

include h in
/-- Different children of a builder have nothing in common below them. -/
theorem child_unique {k x : BuilderId} (hb : ¬ Circular P b) (hc : Holds P b c) (hk : Holds P b k)
    (hcx : Under P c x) (hkx : Under P k x) : c = k := by
  have hunder_holder := @h.under_holder
  have hunder_total := @h.under_total
  grind [Relation.TransGen.head', Circular]

include h in
/-- Builders that are contained in none have nothing in common below them. -/
theorem top_unique {s x : BuilderId} (hr : ∀ a, ¬ Holds P a r) (hs : ∀ a, ¬ Holds P a s)
    (hrx : Under P r x) (hsx : Under P s x) : r = s := by
  have hunder_total := @h.under_total
  grind

end Forest

/-! ## Depth -/

/-- There are `size - fuel` builders or more above `b`, so that what hangs from `b` has at most
    `fuel` levels. -/
structure Deep (P : BuilderId → Option Builder) (size fuel : Nat) (b : BuilderId) : Prop where
  exists_above : ∃ above : List BuilderId, above.Nodup ∧ size ≤ above.length + fuel ∧
    ∀ a ∈ above, Relation.TransGen (Holds P) a b
  here : ∃ d, P b = some d
  tree : ¬ Circular P b

namespace Deep

variable {P : BuilderId → Option Builder} {n size fuel : Nat} {loose : List BlockId}
  {b c : BuilderId}

/-- A builder that is contained in none may have as many levels below it as there are builders. -/
theorem top (h : Forest P n loose) (hb : ∀ a, ¬ Holds P a b) (hd : ∃ d, P b = some d) :
    Deep P size size b :=
  ⟨⟨[], nodup_nil, by simp, fun _ ha => absurd ha not_mem_nil⟩, hd,
    h.not_circular hb .refl⟩

/-- There is a level left for a builder itself. -/
theorem pos (h : Deep P size fuel b) (hsize : ∀ a d, P a = some d → a < size) : 0 < fuel := by
  obtain ⟨above, hnodup, hlen, habove⟩ := h.exists_above
  obtain ⟨d, hd⟩ := h.here
  have hall : (b :: above).Nodup :=
    nodup_cons.2 ⟨fun hb => h.tree (habove b hb), hnodup⟩
  have hsub : b :: above ⊆ range size := by
    intro a ha
    rw [mem_range]
    rcases mem_cons.1 ha with rfl | ha
    · exact hsize a d hd
    · grind [Relation.TransGen.head'_iff, Holds]
  have hle : (b :: above).length ≤ size := by
    simpa using (hall.subperm hsub).length_le
  rw [length_cons] at hle
  omega

/-- Below a child there is one level less. -/
theorem child (hf : Forest P n loose) (h : Deep P size (fuel + 1) b) (hbc : Holds P b c) :
    Deep P size fuel c := by
  obtain ⟨above, hnodup, hlen, habove⟩ := h.exists_above
  refine ⟨⟨b :: above, ?_, ?_, ?_⟩, ?_, fun hc => h.tree (hf.circular_of_child hbc hc)⟩
  · exact nodup_cons.2 ⟨fun hb => h.tree (habove b hb), hnodup⟩
  · rw [length_cons]
    omega
  · grind
  · grind [Holds, hf.child]

/-- What holds of a builder when it holds of all its children holds of every tree. -/
theorem induct (hf : Forest P n loose) (hsize : ∀ a d, P a = some d → a < size)
    {M : Nat → BuilderId → Prop}
    (step : ∀ fuel b d, Deep P size (fuel + 1) b → P b = some d →
      (∀ c ∈ d.children, M fuel c) → M (fuel + 1) b) :
    ∀ {fuel b}, Deep P size fuel b → M fuel b := by
  intro fuel
  induction fuel with
  | zero => exact fun h => absurd (h.pos hsize) (Nat.lt_irrefl 0)
  | succ fuel ih =>
    intro b h
    obtain ⟨d, hd⟩ := h.here
    exact step fuel b d h hd fun c hc => ih (h.child hf ⟨d, hd, hc⟩)

end Deep

/-! ## Writing out -/

/-- What the entries of a sequence come to. -/
inductive Writes (P : BuilderId → Option Builder) : List Entry → List BlockId → Prop where
  | nil : Writes P [] []
  | block {es : List Entry} {xs : List BlockId} (x : BlockId) (h : Writes P es xs) :
    Writes P (.block x :: es) (x :: xs)
  | builder {es : List Entry} {ys xs : List BlockId} {c : BuilderId} {e : Builder}
    (hc : P c = some e) (hy : Writes P e.sequence ys) (h : Writes P es xs) :
    Writes P (.builder c :: es) (ys ++ e.exit :: xs)

namespace Writes

variable {P Q : BuilderId → Option Builder} {es : List Entry} {xs ys : List BlockId}

theorem unique (h : Writes P es xs) : ∀ {ys}, Writes P es ys → xs = ys := by
  induction h with
  | nil =>
    intro ys h'
    cases h'
    rfl
  | block x _ ih =>
    intro ys h'
    cases h' with
    | block _ h' => rw [ih h']
  | builder hc _ _ ih1 ih2 =>
    intro ys h'
    cases h' with
    | builder hc' hy' h' =>
      cases hc.symm.trans hc'
      rw [ih1 hy', ih2 h']

/-- Only sequences and exits matter. -/
theorem congr (hPQ : ∀ c e, P c = some e → ∃ e', Q c = some e' ∧ e'.sequence = e.sequence ∧
    e'.exit = e.exit) (h : Writes P es xs) : Writes Q es xs := by
  induction h with
  | nil => exact .nil
  | block x _ ih => exact .block x ih
  | builder hc _ _ ih1 ih2 =>
    obtain ⟨e', he', hseq, hexit⟩ := hPQ _ _ hc
    rw [← hexit]
    exact .builder he' (hseq ▸ ih1) ih2

/-- Each block belongs to an entry or to a builder that hangs from one. -/
theorem mem (h : Writes P es xs) (hx : x ∈ xs) :
    .block x ∈ es ∨ ∃ c k e, .builder c ∈ es ∧ Under P c k ∧ P k = some e ∧ x ∈ e.owned := by
  induction h with
  | nil => exact absurd hx not_mem_nil
  | block y _ ih => grind
  | @builder es ys xs c e hc hy _ ih1 ih2 =>
    rcases mem_append.1 hx with hx | hx
    · rcases ih1 hx with h | ⟨c', k, f, hc', hk, hf, hxf⟩
      · exact .inr ⟨c, c, e, mem_cons_self, .refl, hc,
          mem_cons_of_mem _ (mem_blocksHere.2 h)⟩
      · exact .inr ⟨c, k, f, mem_cons_self,
          .head ⟨e, hc, mem_children.2 hc'⟩ hk, hf, hxf⟩
    · rcases mem_cons.1 hx with rfl | hx
      · exact .inr ⟨c, c, e, mem_cons_self, .refl, hc, mem_cons_self⟩
      · grind

/-- Each block of an entry is there. -/
theorem mem_of_block (h : Writes P es xs) (hx : .block x ∈ es) : x ∈ xs := by
  induction h with
  | nil => exact absurd hx not_mem_nil
  | block y _ ih => grind
  | builder _ _ _ _ ih => grind

/-- Each builder in a sequence is there from its first block to its exit. -/
theorem mem_of_builder (h : Writes P es xs) (hc : .builder c ∈ es) :
    ∃ e zs, P c = some e ∧ Writes P e.sequence zs ∧ e.exit ∈ xs ∧ ∀ x ∈ zs, x ∈ xs := by
  induction h with
  | nil => exact absurd hc not_mem_nil
  | block y _ ih => grind
  | builder hk hy _ _ ih => grind

end Writes

namespace Forest

variable {P : BuilderId → Option Builder} {n size fuel : Nat} {loose : List BlockId}
  {b : BuilderId} {d : Builder}

/-- Each block that is written out belongs to the builder or to one that hangs from it. -/
theorem writes_mem (hd : P b = some d) (h : Writes P d.sequence xs)
    (hx : x ∈ xs) : x ∈ d.blocksHere ∨
      ∃ k e, Relation.TransGen (Holds P) b k ∧ P k = some e ∧ x ∈ e.owned := by
  rcases h.mem hx with hx | ⟨c, k, e, hc, hk, he, hxe⟩
  · exact .inl (mem_blocksHere.2 hx)
  · exact .inr ⟨k, e, .head' ⟨d, hd, mem_children.2 hc⟩ hk, he, hxe⟩

/-- The exit of a builder comes after all that is written out. -/
theorem exit_not_mem (h : Forest P n loose) (hb : ¬ Circular P b) (hd : P b = some d)
    (hxs : Writes P d.sequence xs) : d.exit ∉ xs := by
  intro hx
  rcases writes_mem hd hxs hx with hx | ⟨k, e, hk, he, hxe⟩
  · exact (nodup_cons.1 (h.nodup hd)).1 hx
  · rw [← h.owner hd he mem_cons_self hxe] at hk
    exact hb hk

/-- Nothing is written out twice. -/
theorem writes_nodup (h : Forest P n loose) (hsize : ∀ a d, P a = some d → a < size)
    (hb : Deep P size fuel b) (hd : P b = some d) (hxs : Writes P d.sequence xs) : xs.Nodup := by
  refine Deep.induct h hsize
    (M := fun _ b => ∀ d xs, P b = some d → Writes P d.sequence xs → xs.Nodup) ?_ hb d xs hd hxs
  intro fuel b d hdeep hd ih d' xs hd' hxs
  cases hd.symm.trans hd'
  have htree := hdeep.tree
  -- along the sequence: what comes first does not come again
  have hseq : ∀ es xs, Writes P es xs → (∀ c, .builder c ∈ es → c ∈ d.children) →
      (∀ x, .block x ∈ es → x ∈ d.blocksHere) → (es.filterMap Entry.block?).Nodup →
      (es.filterMap Entry.builder?).Nodup → xs.Nodup := by
    intro es
    induction es with
    | nil =>
      intro xs hw _ _ _ _
      cases hw
      exact nodup_nil
    | cons e es ihes =>
      intro xs hw hchild hblock hnb hnc
      cases hw with
      | @block _ ys x hw =>
        have hnb' := nodup_cons.1 hnb
        refine nodup_cons.2 ⟨fun hx => ?_, ihes ys hw
          (fun c hc => hchild c (mem_cons_of_mem _ hc))
          (fun z hz => hblock z (mem_cons_of_mem _ hz)) hnb'.2 hnc⟩
        rcases hw.mem hx with hx | ⟨c, k, f, hc, hk, hf, hxf⟩
        · exact hnb'.1 (mem_filterMap.2 ⟨_, hx, rfl⟩)
        · have hbc : Holds P b c := ⟨d, hd, hchild c (mem_cons_of_mem _ hc)⟩
          have hown : x ∈ d.owned := mem_cons_of_mem _ (hblock x mem_cons_self)
          rw [← h.owner hd hf hown hxf] at hk
          exact htree (.head' hbc hk)
      | @builder _ ys zs c f hc hy hw =>
        have hnc' := nodup_cons.1 hnc
        have hbc : Holds P b c := ⟨d, hd, hchild c mem_cons_self⟩
        have hctree : ¬ Circular P c := fun hcc => htree (h.circular_of_child hbc hcc)
        have hrest := ihes zs hw (fun c hc => hchild c (mem_cons_of_mem _ hc))
          (fun z hz => hblock z (mem_cons_of_mem _ hz)) hnb hnc'.2
        have hys : ys.Nodup := ih c (hchild c mem_cons_self) f ys hc hy
        -- the part of `c` belongs to builders below `c`, and the rest does not
        have hmine : ∀ x, x ∈ ys ∨ x = f.exit →
            ∃ k e, Under P c k ∧ P k = some e ∧ x ∈ e.owned := by
          rintro x (hx | rfl)
          · rcases writes_mem hc hy hx with hx | ⟨k, e, hk, he⟩
            · exact ⟨c, f, .refl, hc, mem_cons_of_mem _ hx⟩
            · exact ⟨k, e, hk.to_reflTransGen, he⟩
          · exact ⟨c, f, .refl, hc, mem_cons_self⟩
        have hapart : ∀ x, x ∈ ys ∨ x = f.exit → x ∉ zs := by
          intro x hx hz
          obtain ⟨k, e, hk, he, hxe⟩ := hmine x hx
          rcases hw.mem hz with hz | ⟨c', k', e', hc', hk', he', hxe'⟩
          · grind [Circular, Builder.owned, h.owner]
          · rw [← h.owner he he' hxe hxe'] at hk'
            have hbc' : Holds P b c' := ⟨d, hd, hchild c' (mem_cons_of_mem _ hc')⟩
            have heq := h.child_unique htree hbc hbc' hk hk'
            subst heq
            exact hnc'.1 (mem_filterMap.2 ⟨_, hc', rfl⟩)
        refine List.Nodup.append hys (nodup_cons.2 ⟨hapart _ (.inr rfl), hrest⟩) ?_
        intro x hx hx'
        rcases mem_cons.1 hx' with rfl | hx'
        · exact h.exit_not_mem hctree hc hy hx
        · exact hapart x (.inl hx) hx'
  exact hseq d.sequence xs hxs (fun c hc => mem_children.2 hc)
    (fun x hx => mem_blocksHere.2 hx) (nodup_cons.1 (h.nodup hd)).2 (h.once hd)

end Forest
end MethodGraph
