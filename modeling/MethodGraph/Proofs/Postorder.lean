import Mathlib.Data.List.Perm.Subperm
import MethodGraph.Graph.Order
import MethodGraph.Proofs.Exploring
import MethodGraph.Proofs.Inversion
/-!
  The order in which a depth-first walk leaves the blocks.

  `Walks` is the walk without a bound on its depth: it says what a walk does that comes to an end.
  The bound of `visit` is never met, because every block that the walk enters is seen from then on
  and there are only so many.  What a walk adds in front of the blocks that are done (`Added`) is
  closed under edges, and each block of it is a successor of one that stands further in front, or
  was asked for.  So in the order of the whole graph stand the blocks that the entry reaches, and
  each of them but the entry has a predecessor in front of it (`Order.Fits`).
-/

namespace MethodGraph

open List Arena

variable {x y : BlockId} {xs : List BlockId}

variable {g : Graph}

namespace Graph

/-! ## Edges -/

/-- A graph with edges that were added one by one.  Whatever else happens to a graph leaves its
    edges alone. -/
inductive Edged : Graph → Prop where
  | new (name : String) : Edged (.new name)
  | block {g : Graph} : Edged g → Edged g.newBlock.2
  | edge {g g' : Graph} {x y : BlockId} : Edged g → g.addEdge x y = .ok g' → Edged g'
  | handler {g g' : Graph} {x y : BlockId} : Edged g → g.addHandlerEdge x y = .ok g' → Edged g'
  | other {g g' : Graph} : Edged g → g'.blocks.size = g.blocks.size →
      (∀ x, g'.succsOf x = g.succsOf x ∧ g'.predsOf x = g.predsOf x) → Edged g'

/-- Every edge is known at both of its ends. -/
structure Paired (g : Graph) : Prop where
  nonempty : 0 < g.blocks.size
  mem_preds {x y : BlockId} : y ∈ g.succsOf x ↔ x ∈ g.predsOf y

theorem Paired.lt_size (h : g.Paired) (hy : y ∈ g.succsOf x) : y < g.blocks.size := by
  obtain ⟨blk, hblk, -⟩ := mem_predsOf.1 (h.mem_preds.1 hy)
  exact get?_isSome.1 (Option.isSome_of_eq_some hblk)

theorem Paired.reaches_lt (h : g.Paired) (hx : g.Reaches x) : x < g.blocks.size := by
  rcases hx.eq_entry_or with rfl | ⟨a, hx⟩
  · exact h.nonempty
  · exact h.lt_size hx

theorem Paired.length_le (h : g.Paired) (hnodup : xs.Nodup)
    (hxs : ∀ x ∈ xs, g.Reaches x) : xs.length ≤ g.blocks.size := by
  have hsub : xs ⊆ range g.blocks.size :=
    fun x hx => mem_range.2 (h.reaches_lt (hxs x hx))
  simpa using (hnodup.subperm hsub).length_le

/-- An edge is noted at its source and at its target. -/
theorem Paired.modify {f f' : Block → Block} (h : g.Paired)
    (hx : x < g.blocks.size) (hy : y < g.blocks.size)
    (hsuccs : ∀ blk z, z ∈ (f blk).allSuccs ↔ z ∈ blk.allSuccs ∨ z = y)
    (hpreds : ∀ blk z, z ∈ (f' blk).preds ↔ z ∈ blk.preds ∨ z = x)
    (hkeep : ∀ blk, (f blk).preds = blk.preds) (hkeep' : ∀ blk, (f' blk).allSuccs = blk.allSuccs) :
    ((g.modifyBlock x f).modifyBlock y f').Paired := by
  refine ⟨by simpa [modifyBlock] using h.nonempty, fun {z w} => ?_⟩
  rw [mem_succsOf_modify hsuccs hkeep', mem_predsOf_modify hkeep hpreds, h.mem_preds]
  refine or_congr_right ⟨?_, ?_⟩
  · rintro ⟨rfl, rfl, -⟩
    exact ⟨rfl, rfl, hy⟩
  · rintro ⟨rfl, rfl, -⟩
    exact ⟨rfl, rfl, hx⟩

theorem Edged.paired (h : g.Edged) : g.Paired := by
  induction h with
  | new name =>
    have hblock : ∀ x blk, (Graph.new name).block? x = some blk → blk = {} := by
      intro x blk hblk
      have hmem := Array.mem_of_getElem? hblk
      simpa [Graph.new, ofList] using hmem
    refine ⟨Nat.zero_lt_two, fun {x y} => iff_of_false (fun h => ?_) fun h => ?_⟩
    · obtain ⟨blk, hblk, hmem⟩ := mem_succsOf.1 h
      rw [hblock x blk hblk] at hmem
      cases hmem
    · grind [mem_predsOf]
  | @block g _ ih =>
    have hblock : ∀ x, g.newBlock.2.block? x = if x = g.blocks.size then some {} else g.block? x :=
      fun x => get?_alloc ..
    have hsame : ∀ x, g.newBlock.2.succsOf x = g.succsOf x ∧
        g.newBlock.2.predsOf x = g.predsOf x := by
      grind [get?_eq_none, Block.allSuccs, succsOf, predsOf, block?]
    refine ⟨Nat.lt_of_lt_of_eq (Nat.succ_pos _) (size_alloc ..).symm, fun {x y} => ?_⟩
    rw [(hsame x).1, (hsame y).2, ih.mem_preds]
  | edge _ h ih =>
    obtain ⟨hx, hy, rfl⟩ := Emit.updateBlocks_eq_ok.1 h
    refine ih.modify hx hy (fun blk z => ?_) (fun blk z => mem_addNew) (fun _ => rfl) fun _ => rfl
    simp [Block.allSuccs, Block.addSucc, mem_addNew, or_right_comm]
  | handler _ h ih =>
    obtain ⟨hx, hy, rfl⟩ := Emit.updateBlocks_eq_ok.1 h
    refine ih.modify hx hy (fun blk z => ?_) (fun blk z => mem_addNew) (fun _ => rfl) fun _ => rfl
    simp [Block.allSuccs, Block.addHandler, mem_addNew, or_assoc]
  | other _ hsize hsame ih =>
    refine ⟨hsize ▸ ih.nonempty, fun {x y} => ?_⟩
    rw [(hsame x).1, (hsame y).2, ih.mem_preds]

/-! ## Walks -/

/-- A walk from the blocks of a list, one after the other, that comes to an end.  A block is done,
    and put in front of those done before, when the walk from its successors is over. -/
inductive Walks (g : Graph) :
    List BlockId → BitSet × List BlockId → BitSet × List BlockId → Prop where
  | nil (st : BitSet × List BlockId) : Walks g [] st st
  | old {s : BlockId} {ss done : List BlockId} {seen : BitSet} {st : BitSet × List BlockId} :
      s ∈ seen → Walks g ss (seen.insert s, done) st → Walks g (s :: ss) (seen, done) st
  | new {s : BlockId} {ss done : List BlockId} {seen : BitSet} {st1 st : BitSet × List BlockId} :
      s ∉ seen → Walks g (g.succsOf s) (seen.insert s, done) st1 →
      Walks g ss (st1.1, s :: st1.2) st → Walks g (s :: ss) (seen, done) st

/-- What a walk from the blocks `ss` adds to the blocks seen and done. -/
structure Added (g : Graph) (ss : List BlockId) (seen seen' : BitSet) (new : List BlockId) :
    Prop where
  mem {x : BlockId} : x ∈ seen' ↔ x ∈ seen ∨ x ∈ new
  fresh {x : BlockId} : x ∈ new → x ∉ seen
  nodup : new.Nodup
  asked {x : BlockId} : x ∈ ss → x ∈ seen'
  closed {x y : BlockId} : x ∈ new → y ∈ g.succsOf x → y ∈ seen'
  parent {x : BlockId} {l r : List BlockId} : new = l ++ x :: r →
    x ∈ ss ∨ ∃ p ∈ l, x ∈ g.succsOf p

theorem Walks.added {ss : List BlockId} {st st' : BitSet × List BlockId} (h : Walks g ss st st') :
    ∃ new, st'.2 = new ++ st.2 ∧ Added g ss st.1 st'.1 new := by
  induction h with
  | nil st =>
    refine ⟨[], rfl, ⟨by simp, nofun, .nil, nofun, nofun, fun hnew => ?_⟩⟩
    simp at hnew
  | @old s ss done seen st hs _ ih =>
    obtain ⟨new, hdone, hadd⟩ := ih
    have hmem : ∀ {x}, x ∈ seen.insert s ↔ x ∈ seen :=
      BitSet.mem_insert.trans (or_iff_right_of_imp fun hx => hx ▸ hs)
    refine ⟨new, hdone, ⟨hadd.mem.trans (or_congr_left hmem), fun hx => mt hmem.2 (hadd.fresh hx),
      hadd.nodup, fun hx => ?_, hadd.closed, fun hnew => ?_⟩⟩
    · grind [hadd.mem, hadd.asked]
    · exact (hadd.parent hnew).imp_left (mem_cons_of_mem s)
  | @new s ss done seen st1 st hs _ _ ih1 ih2 =>
    obtain ⟨new1, hdone1, h1⟩ := ih1
    obtain ⟨new2, hdone2, h2⟩ := ih2
    have hmem1 : ∀ {x}, x ∈ st1.1 ↔ x ∈ seen ∨ x = s ∨ x ∈ new1 := by
      intro x
      rw [h1.mem, BitSet.mem_insert, or_comm (a := x = s), or_assoc]
    refine ⟨new2 ++ s :: new1, by rw [hdone2, hdone1]; simp, ⟨?_, ?_, ?_, ?_, ?_, ?_⟩⟩
    · intro x
      rw [h2.mem, hmem1, mem_append, mem_cons, or_assoc, or_comm (b := x ∈ new2)]
    · have hfresh := @h2.fresh
      have hfresh' := @h1.fresh
      grind [BitSet.mem_insert]
    · have hfresh := @h1.fresh
      have hnodup := @h2.nodup
      have hnodup' := @h1.nodup
      have hfresh' := @h2.fresh
      grind [BitSet.mem_insert]
    · grind [h2.mem, h2.asked]
    · grind [h2.closed, h2.mem, h1.asked, h1.closed]
    · intro x l r hnew
      rcases append_eq_append_iff.1 hnew with ⟨l', rfl, hl'⟩ | ⟨r', hr', hrest⟩
      · -- the block is `s` itself or was found from it
        rcases cons_eq_append_iff.1 hl' with ⟨-, hx⟩ | ⟨l'', rfl, hx⟩
        · cases hx
          exact .inl mem_cons_self
        · grind [h1.parent]
      · rcases cons_eq_append_iff.1 hrest with ⟨rfl, hx⟩ | ⟨r'', rfl, -⟩
        · cases hx
          exact .inl mem_cons_self
        · exact (h2.parent hr').imp_left (mem_cons_of_mem s)

theorem unseen_mono {seen seen' : BitSet} (h : ∀ x ∈ seen, x ∈ seen') :
    unseen xs seen' ≤ unseen xs seen := by
  unfold unseen
  rw [← countP_eq_length_filter, ← countP_eq_length_filter]
  refine countP_mono_left fun x _ hx => ?_
  rw [Bool.not_eq_true'] at hx ⊢
  exact Bool.eq_false_iff.2 fun hold => Bool.eq_false_iff.1 hx (h x hold)

/-- What `visit` does at a successor. -/
def visitNext (g : Graph) (fuel : Nat) (st : BitSet × List BlockId) (s : BlockId) :
    BitSet × List BlockId :=
  if s ∈ st.1 then (st.1.insert s, st.2) else g.visit fuel s (st.1.insert s, st.2)

theorem visit_succ (fuel : Nat) (b : BlockId) (st : BitSet × List BlockId) :
    g.visit (fuel + 1) b st = (((g.succsOf b).foldl (g.visitNext fuel) st).1,
      b :: ((g.succsOf b).foldl (g.visitNext fuel) st).2) := by
  have hnext : (fun (st : BitSet × List BlockId) s =>
      if (st.1.add s).1 = true then g.visit fuel s ((st.1.add s).2, st.2)
      else ((st.1.add s).2, st.2)) = g.visitNext fuel := by
    funext st s
    unfold visitNext
    rw [BitSet.fst_add]
    by_cases hs : s ∈ st.1
    · rw [if_pos hs, if_neg (by rw [show st.1.contains s = true from hs]; exact nofun)]
      rfl
    · rw [if_neg hs, if_pos (by rw [Bool.eq_false_iff.2 hs]; rfl)]
      rfl
  rw [← hnext]
  rfl

/-- The bound on the depth is not met as long as it is greater than the number of blocks that have
    not been seen. -/
theorem Paired.walks (h : g.Paired) (fuel : Nat) (b : BlockId) (st : BitSet × List BlockId)
    (hfuel : unseen (List.range g.blocks.size) st.1 < fuel) :
    ∃ st', Walks g (g.succsOf b) st st' ∧ g.visit fuel b st = (st'.1, b :: st'.2) := by
  induction fuel generalizing b st with
  | zero => exact absurd hfuel (Nat.not_lt_zero _)
  | succ fuel ih =>
    rw [visit_succ]
    refine ⟨_, ?_, rfl⟩
    have hrange : ∀ s ∈ g.succsOf b, s ∈ range g.blocks.size :=
      fun s hs => mem_range.2 (h.lt_size hs)
    generalize g.succsOf b = ss at hrange
    induction ss generalizing st with
    | nil => exact .nil st
    | cons s ss ihs =>
      have hrest := fun s hs => hrange s (mem_cons_of_mem _ hs)
      have hgrow : ∀ x ∈ st.1, x ∈ st.1.insert s := fun x hx => BitSet.mem_insert.2 (.inr hx)
      rw [foldl_cons, visitNext]
      split
      · next hs =>
        exact .old hs (ihs _ (Nat.lt_of_le_of_lt (unseen_mono hgrow) hfuel) hrest)
      · next hs =>
        have hless := unseen_insert nodup_range (hrange s mem_cons_self) hs
        obtain ⟨st1, hwalks, hvisit⟩ := ih s (st.1.insert s, st.2)
          (Nat.lt_of_succ_lt_succ (Nat.lt_of_le_of_lt (Nat.le_of_eq hless) hfuel))
        obtain ⟨new, -, hadded⟩ := hwalks.added
        rw [hvisit]
        refine .new hs hwalks (ihs _ (Nat.lt_of_le_of_lt (unseen_mono fun x hx => ?_) hfuel) hrest)
        exact hadded.mem.2 (.inl (hgrow x hx))

end Graph

/-! ## The order -/

/-- The order of the blocks of a graph. -/
structure Order.Fits (o : Order) (g : Graph) : Prop where
  mem {x : BlockId} : x ∈ o.rpo ↔ g.Reaches x
  length : o.rpo.length ≤ g.blocks.size
  number {x : BlockId} {l r : List BlockId} : o.rpo = l ++ x :: r → o.number x = r.length
  parent {x : BlockId} {l r : List BlockId} : o.rpo = l ++ x :: r →
    x = Graph.entry ∨ ∃ p ∈ l, x ∈ g.succsOf p

namespace Order.Fits

variable {o : Order} {x y p : BlockId}

theorem number_lt (h : o.Fits g) (hx : g.Reaches x) : o.number x < g.blocks.size := by
  obtain ⟨l, r, hrpo⟩ := append_of_mem (h.mem.2 hx)
  have hlength := h.length
  rw [hrpo, length_append, length_cons] at hlength
  rw [h.number hrpo]
  omega

theorem number_inj (h : o.Fits g) (hx : g.Reaches x) (hy : g.Reaches y)
    (heq : o.number x = o.number y) : x = y := by
  obtain ⟨l, r, hrpo⟩ := append_of_mem (h.mem.2 hx)
  obtain ⟨l', r', hrpo'⟩ := append_of_mem (h.mem.2 hy)
  rw [h.number hrpo, h.number hrpo'] at heq
  exact (cons.inj (append_inj_right' (hrpo.symm.trans hrpo') (by simp [heq]))).1

theorem number_lt_of_mem (h : o.Fits g) {l r : List BlockId} (hrpo : o.rpo = l ++ x :: r)
    (hp : p ∈ l) : o.number x < o.number p := by
  obtain ⟨l1, l2, rfl⟩ := append_of_mem hp
  have hp' : o.rpo = l1 ++ p :: (l2 ++ x :: r) := by simp [hrpo]
  rw [h.number hrpo, h.number hp']
  simp
  omega

theorem number_le_entry (h : o.Fits g) (hx : g.Reaches x) :
    o.number x ≤ o.number Graph.entry := by
  obtain ⟨l, r, hrpo⟩ := append_of_mem (h.mem.2 hx)
  cases l with
  | nil =>
    rcases h.parent hrpo with rfl | ⟨p, hp, -⟩
    · exact Nat.le_refl _
    · cases hp
  | cons y l =>
    rcases h.parent (show o.rpo = [] ++ y :: (l ++ x :: r) from hrpo) with rfl | ⟨p, hp, -⟩
    · exact Nat.le_of_lt (h.number_lt_of_mem hrpo mem_cons_self)
    · cases hp

end Order.Fits

namespace Graph

/-- Numbering blocks leaves the numbers of all others alone. -/
theorem getD_number_of_not_mem (xs : List BlockId) (hx : x ∉ xs) (k : Nat) (t : SideTable Nat) :
    ((xs.zipIdx k).foldl (fun t p => t.set p.1 p.2) t).getD x = t.getD x := by
  induction xs generalizing k t with
  | nil => rfl
  | cons y xs ih => grind [SideTable.getD_set]

/-- The walk over the whole graph comes to an end. -/
theorem Paired.walks_order (h : g.Paired) :
    Walks g [entry] (BitSet.withCapacity g.blocks.size, []) (g.order.seen, g.order.rpo) := by
  have hnone : ∀ x, x ∉ BitSet.withCapacity g.blocks.size :=
    fun x => Bool.eq_false_iff.1 (BitSet.contains_withCapacity _ x)
  have hless := unseen_insert nodup_range (mem_range.2 h.nonempty) (hnone entry)
  rw [unseen_of_none fun x _ => hnone x, length_range] at hless
  obtain ⟨st, hwalks, hvisit⟩ := h.walks g.blocks.size entry
    ((BitSet.withCapacity g.blocks.size).insert entry, []) (Nat.le_of_eq hless)
  have horder : (g.order.seen, g.order.rpo) = g.visit g.blocks.size entry
    ((BitSet.withCapacity g.blocks.size).insert entry, []) := rfl
  rw [horder, hvisit]
  exact .new (hnone entry) hwalks (.nil _)

theorem Paired.fits (h : g.Paired) : g.order.Fits g := by
  obtain ⟨new, hrpo, hadded⟩ := h.walks_order.added
  obtain rfl : g.order.rpo = new := by simpa using hrpo
  have hseen : ∀ {x}, x ∈ g.order.seen ↔ x ∈ g.order.rpo := by
    intro x
    refine hadded.mem.trans (or_iff_right ?_)
    exact Bool.eq_false_iff.1 (BitSet.contains_withCapacity _ x)
  have hparent : ∀ {x l r}, g.order.rpo = l ++ x :: r → x = entry ∨ ∃ p ∈ l, x ∈ g.succsOf p :=
    fun hrpo => (hadded.parent hrpo).imp_left mem_singleton.1
  have hreaches : ∀ (k : Nat) (x : BlockId) (l r : List BlockId), l.length = k →
      g.order.rpo = l ++ x :: r → g.Reaches x := by
    intro k
    induction k using Nat.strongRecOn with
    | ind k ih =>
      rintro x l r rfl hrpo
      rcases hparent hrpo with rfl | ⟨p, hp, hx⟩
      · exact .entry
      · obtain ⟨l1, l2, rfl⟩ := append_of_mem hp
        exact .step (ih l1.length (by simp) p l1 (l2 ++ x :: r) rfl (by simp [hrpo])) hx
  have hmem : ∀ {x}, x ∈ g.order.rpo ↔ g.Reaches x := by
    intro x
    constructor
    · intro hx
      obtain ⟨l, r, hrpo⟩ := append_of_mem hx
      exact hreaches _ x l r rfl hrpo
    · intro hx
      induction hx with
      | entry => exact hseen.1 (hadded.asked mem_cons_self)
      | step _ hb ih => exact hseen.1 (hadded.closed ih hb)
  refine ⟨hmem, h.length_le hadded.nodup fun x => hmem.1, fun {x l r} hrpo => ?_, hparent⟩
  · -- the number of a block is written when its turn comes, and not overwritten later
    have hx : x ∈ g.order.seen := hseen.2 (by simp [hrpo])
    have hnumber : g.order.number x = g.order.numbers.getD x := by
      unfold Order.number Order.number?
      rw [if_pos (show g.order.seen.contains x = true from hx)]
      rfl
    have hnew : x ∉ l := by grind [hadded.nodup]
    have hnumbers : g.order.numbers = (g.order.rpo.reverse.zipIdx).foldl
        (fun t p => t.set p.1 p.2) (SideTable.filled g.blocks.size) := rfl
    have hrev : g.order.rpo.reverse = r.reverse ++ x :: l.reverse := by simp [hrpo]
    rw [hnumber, hnumbers, hrev, zipIdx_append, foldl_append, zipIdx_cons,
      foldl_cons, getD_number_of_not_mem _ (by simpa using hnew), SideTable.getD_set,
      if_pos rfl, length_reverse, Nat.zero_add]

end Graph
end MethodGraph
