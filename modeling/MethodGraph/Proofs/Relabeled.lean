import Mathlib.Data.List.Nodup
import MethodGraph.Proofs.Exploring
import MethodGraph.Proofs.Inversion
import MethodGraph.Proofs.Renaming
import MethodGraph.Proofs.Safety
import MethodGraph.Proofs.Verified
/-!
  Verifying does not depend on names.

  A graph with other names for its blocks and values (`Graph.Relabeled`) has its edges renamed too.
  They are compared as sets, since the order in which they were added does not matter to anything
  here.

  Where edges are followed, in finding out whether control comes back from a builder and in
  verification, what counts is which blocks are found and not in which order.  So the crux is to
  have `reachable` and `reachesLast` say what they compute (`Graph.Relabeled.mem_reachable_iff`,
  `Graph.reachesLast_iff`): paths are renamed step by step.  Main statement
  `Graph.Relabeled.verify_agree`: one graph verifies exactly if the other does.
-/

namespace MethodGraph

open List Graph Option Bool BitSet

variable {blk blk' : Block} {start start' x x' : BlockId}
  {members members' xs xs' ys ys' : List BlockId} {α β : Type}

variable {ρ : Renaming} {g g' : Graph} {R : α → β → Prop}

/-! ## Sets of blocks -/

namespace Renaming

/-- The renaming read backwards. -/
def symm (ρ : Renaming) : Renaming where
  block x y := ρ.block y x
  value v w := ρ.value w v
  blocks_unique :=
    ⟨fun _ _ _ h h' => ρ.blocks_unique.2 h h', fun _ _ _ h h' => ρ.blocks_unique.1 h h'⟩
  values_unique :=
    ⟨fun _ _ _ h h' => ρ.values_unique.2 h h', fun _ _ _ h h' => ρ.values_unique.1 h h'⟩

/-- Each block of one list stands for one of the other. -/
def Same (ρ : Renaming) (xs ys : List BlockId) : Prop :=
  (∀ x ∈ xs, ∃ y ∈ ys, ρ.block x y) ∧ ∀ y ∈ ys, ∃ x ∈ xs, ρ.block x y

namespace Same

variable {xs ys : List BlockId} {x y : BlockId}

theorem symm (h : ρ.Same xs ys) : ρ.symm.Same ys xs := ⟨h.2, h.1⟩

theorem mem_iff (h : ρ.Same xs ys) (hxy : ρ.block x y) : x ∈ xs ↔ y ∈ ys := by
  constructor
  · intro hx
    obtain ⟨z, hz, hxz⟩ := h.1 x hx
    exact ρ.blocks_unique.2 hxy hxz ▸ hz
  · intro hy
    obtain ⟨z, hz, hzy⟩ := h.2 y hy
    exact ρ.blocks_unique.1 hzy hxy ▸ hz

theorem of_forall₂ (h : List.Forall₂ ρ.block xs ys) : ρ.Same xs ys := by
  induction h with
  | nil => exact ⟨nofun, nofun⟩
  | cons h _ ih => grind [Same]

theorem append (h : ρ.Same xs ys) (h' : ρ.Same xs' ys') : ρ.Same (xs ++ xs') (ys ++ ys') := by
  grind [Same]

theorem addNew (h : ρ.Same xs ys) (hxy : ρ.block x y) : ρ.Same (addNew xs x) (addNew ys y) := by
  grind [Same, addNew]

end Same
end Renaming

theorem rel_getLast? {xs : List α} {ys : List β} (h : List.Forall₂ R xs ys) :
    Option.Rel R xs.getLast? ys.getLast? := by
  rw [← head?_reverse, ← head?_reverse]
  exact rel_head? (rel_reverse h)

/-! ## Graphs with their edges -/

/-- A block whose content, surroundings and edges are renamed. -/
structure Block.Relabeled (ρ : Renaming) (blk blk' : Block) : Prop extends blk.Renamed ρ blk' where
  succs : ρ.Same blk.succs blk'.succs
  preds : ρ.Same blk.preds blk'.preds

/-- A graph with other names, edges and layout included. -/
structure Graph.Relabeled (ρ : Renaming) (g g' : Graph) : Prop where
  blocks : ∀ x x', ρ.block x x' → ∃ blk blk', g.block? x = some blk ∧ g'.block? x' = some blk' ∧
    blk.Relabeled ρ blk'
  types : ∀ v v', ρ.value v v' → ∃ ty, g.values.get? v = some ty ∧ g'.values.get? v' = some ty
  entry : ρ.block Graph.entry Graph.entry
  exit : ρ.block Graph.exit Graph.exit
  symbols : g'.symbols = g.symbols
  name : g'.name = g.name
  layout : List.Forall₂ ρ.block g.layout g'.layout

variable (h : g.Relabeled ρ g')

namespace Graph.Relabeled

include h in
theorem renamed : g.Renamed ρ g' where
  blocks x x' hx := by
    obtain ⟨blk, blk', hblk, hblk', hsame⟩ := h.blocks x x' hx
    exact ⟨blk, blk', hblk, hblk', hsame.toRenamed⟩
  types := h.types
  entry := h.entry
  exit := h.exit
  symbols := h.symbols

include h in
theorem lt_size (hx : ρ.block x x') : x < g.blocks.size := by
  obtain ⟨blk, -, hblk, -, -⟩ := h.blocks x x' hx
  exact Arena.get?_isSome.1 (by rw [show g.blocks.get? x = some blk from hblk]; rfl)

include h in
theorem succsOf (hx : ρ.block x x') : ρ.Same (g.succsOf x) (g'.succsOf x') := by
  obtain ⟨blk, blk', hblk, hblk', hsame⟩ := h.blocks x x' hx
  unfold Graph.succsOf
  rw [hblk, hblk']
  exact hsame.succs.append (.of_forall₂ hsame.handlers)

include h in
theorem predsOf (hx : ρ.block x x') : ρ.Same (g.predsOf x) (g'.predsOf x') := by
  obtain ⟨blk, blk', hblk, hblk', hsame⟩ := h.blocks x x' hx
  unfold Graph.predsOf
  rw [hblk, hblk']
  exact hsame.preds

end Graph.Relabeled

/-! ## Renamings read backwards -/

theorem rel_flip {a : Option α} {c : Option β} (h : Option.Rel R a c) :
    Option.Rel (flip R) c a := by
  cases h with
  | some h => exact .some h
  | none => exact .none

theorem Operation.Renamed.symm {op op' : Operation} (h : op.Renamed ρ op') :
    op'.Renamed ρ.symm op :=
  ⟨h.opcode.symm, h.operands.flip, rel_flip h.result, h.targets.flip⟩

theorem Block.Relabeled.symm (h : blk.Relabeled ρ blk') : blk'.Relabeled ρ.symm blk where
  operations := (h.operations.imp fun _ _ hop => hop.symm).flip
  handlers := h.handlers.flip
  next := rel_flip h.next
  succs := h.succs.symm
  preds := h.preds.symm

include h in
theorem Graph.Relabeled.symm : g'.Relabeled ρ.symm g where
  blocks x' x hx := by
    obtain ⟨blk, blk', hblk, hblk', hsame⟩ := h.blocks x x' hx
    exact ⟨blk', blk, hblk', hblk, hsame.symm⟩
  types v' v hv := by
    obtain ⟨ty, hty, hty'⟩ := h.types v v' hv
    exact ⟨ty, hty', hty⟩
  entry := h.entry
  exit := h.exit
  symbols := h.symbols.symm
  name := h.name.symm
  layout := h.layout.flip

/-- The edges of two graphs, from blocks that stand for each other, are the same. -/
def Graph.SameEdges (ρ : Renaming) (g g' : Graph) : Prop :=
  ∀ x x', ρ.block x x' → ρ.Same (g.succsOf x) (g'.succsOf x') ∧ ρ.Same (g.predsOf x) (g'.predsOf x')

namespace Graph

theorem SameEdges.symm (h : g.SameEdges ρ g') : g'.SameEdges ρ.symm g :=
  fun x x' hx => ⟨(h x' x hx).1.symm, (h x' x hx).2.symm⟩

include h in
theorem Relabeled.sameEdges : g.SameEdges ρ g' :=
  fun _ _ hx => ⟨h.succsOf hx, h.predsOf hx⟩

/-! ## Following edges -/

/-- Blocks that can be reached are found, if they are among blocks that edges do not lead out of. -/
theorem mem_reachable_of_reaches {P : BlockId → Prop} (hbound : ∀ x, P x → x < g.blocks.size)
    (hentry : P Graph.entry) (hclosed : ∀ x, P x → ∀ y ∈ g.succsOf x, P y)
    (h : g.Reaches x) : x ∈ g.reachable := by
  classical
  let xs := (range g.blocks.size).filter fun x => decide (P x)
  have hxs : ∀ x, x ∈ xs ↔ P x := by grind
  have hlength : xs.length ≤ g.blocks.size :=
    (length_filter_le ..).trans length_range.le
  obtain ⟨hkeep, hedges⟩ := reachable_saturated (nodup_range.filter _) ((hxs entry).2 hentry)
    (fun x hx y hy => (hxs y).2 (hclosed x ((hxs x).1 hx) y hy)) (Nat.le_succ_of_le hlength)
  induction h with
  | entry => exact hkeep
  | step _ hab ih => exact hedges _ ih _ hab

theorem SameEdges.reaches (h : g.SameEdges ρ g') (hentry : ρ.block Graph.entry Graph.entry)
    (hx : g.Reaches x) : ∃ x', ρ.block x x' ∧ g'.Reaches x' := by
  induction hx with
  | entry => exact ⟨_, hentry, .entry⟩
  | step _ hab ih =>
    obtain ⟨a', ha, hreaches⟩ := ih
    obtain ⟨b', hb', hb⟩ := (h _ _ ha).1.1 _ hab
    exact ⟨b', hb, .step hreaches hb'⟩

namespace Relabeled

include h in
theorem mem_reachable_iff : x ∈ g.reachable ↔ g.Reaches x := by
  refine ⟨reaches_of_mem_reachable, mem_reachable_of_reaches (P := fun x => ∃ x', ρ.block x x') ?_
    ⟨_, h.entry⟩ ?_⟩
  · rintro x ⟨x', hx⟩
    exact h.lt_size hx
  · rintro x ⟨x', hx⟩ y hy
    obtain ⟨y', -, hyy⟩ := (h.succsOf hx).1 y hy
    exact ⟨y', hyy⟩

end Relabeled

theorem Entered.mem (h : Entered g members start x) : x ∈ members := by
  cases h with
  | start hx _ => exact hx
  | step _ hy _ => exact hy

/-- Ways through a part of the graph are renamed step by step. -/
theorem SameEdges.entered (h : g.SameEdges ρ g')
    (hmembers : ρ.Same members members') (hstart : ρ.block start start')
    (hx : ρ.block x x') (hentered : Entered g members start x) : Entered g' members' start' x' := by
  induction hentered generalizing x' with
  | @start x hmem hx0 =>
    refine .start ((hmembers.mem_iff hx).1 hmem) (hx0.imp (ρ.block_eq hx hstart).1 ?_)
    rintro ⟨z, hz, hout⟩
    obtain ⟨z', hz', hzz⟩ := (h x x' hx).2.1 z hz
    exact ⟨z', hz', fun hin => hout ((hmembers.mem_iff hzz).2 hin)⟩
  | @step x y hprev hy hxy ih =>
    obtain ⟨w, -, hw⟩ := hmembers.1 x hprev.mem
    exact .step (ih hw) ((hmembers.mem_iff hx).1 hy) (((h x w hw).1.mem_iff hx).1 hxy)

include h in
theorem Relabeled.reachesLast (hmembers : List.Forall₂ ρ.block members members')
    (hstart : ρ.block start start') :
    g'.reachesLast start' members' = g.reachesLast start members := by
  have hsame := Renaming.Same.of_forall₂ hmembers
  rcases rel_cases (rel_getLast? hmembers) with ⟨hlast, hlast'⟩ | ⟨last, last', hlast, hlast', hll⟩
  · unfold Graph.reachesLast
    rw [hlast, hlast']
  · have hbound : ∀ x ∈ members, x < g.blocks.size := fun x hx => by
      obtain ⟨x', -, hxx⟩ := hsame.1 x hx
      exact h.lt_size hxx
    have hbound' : ∀ x ∈ members', x < g'.blocks.size := fun x hx => by
      obtain ⟨x', -, hxx⟩ := hsame.2 x hx
      obtain ⟨-, blk', -, hblk', -⟩ := h.blocks x' x hxx
      exact Arena.get?_isSome.1 (by rw [show g'.blocks.get? x = some blk' from hblk']; rfl)
    rw [Bool.eq_iff_iff, reachesLast_iff hlast' hbound', reachesLast_iff hlast hbound]
    exact ⟨h.sameEdges.symm.entered hsame.symm hstart hll, h.sameEdges.entered hsame hstart hll⟩

/-! ## Verification -/

/-- No block of one list is missing from a set exactly if none is on the other side. -/
theorem find?_missing (hxs : ρ.Same xs xs') (hys : ρ.Same ys ys') :
    (xs.find? fun x => !ys.contains x) = none ↔ (xs'.find? fun x => !ys'.contains x) = none := by
  grind [Renaming.Same, hys.mem_iff]

theorem absent_cases {a a' : Option BlockId} (h : a = none ↔ a' = none) :
    a = none ∧ a' = none ∨ ∃ x x', a = some x ∧ a' = some x' := by
  cases a with
  | none => exact .inl ⟨rfl, h.1 rfl⟩
  | some x =>
    cases a' with
    | none => exact absurd (h.2 rfl) nofun
    | some x' => exact .inr ⟨x, x', rfl, rfl⟩

/-- Two checks pass or fail together. -/
def Agree (x y : Except Flaw Unit) : Prop := x = .ok () ↔ y = .ok ()

namespace Agree

variable {x y x' y' : Except Flaw Unit}

theorem refl (x : Except Flaw Unit) : Agree x x := Iff.rfl

theorem error (flaw flaw' : Flaw) : Agree (.error flaw) (.error flaw') := by
  unfold Agree
  simp

theorem bind {f f' : Unit → Except Flaw Unit} (h : Agree x x') (hf : Agree (f ()) (f' ())) :
    Agree (x >>= f) (x' >>= f') := by
  cases x with
  | error e =>
    cases x' with
    | error e' => exact .error _ _
    | ok => exact absurd (h.2 rfl) nofun
  | ok =>
    cases x' with
    | error e' => exact absurd (h.1 rfl) nofun
    | ok => exact hf

theorem ite {p p' : Prop} [Decidable p] [Decidable p'] (hp : p ↔ p') (hx : p → Agree x x')
    (hy : Agree y y') : Agree (if p then x else y) (if p' then x' else y') := by grind

end Agree

theorem checkOps_agree (hb : blk.Relabeled ρ blk') (x x' : BlockId)
    {ops ops' : List Operation} (h : List.Forall₂ (Operation.Renamed ρ) ops ops') :
    Agree (checkOps x blk ops) (checkOps x' blk' ops') := by
  induction h with
  | nil => exact .refl _
  | @cons op op' rest rest' hop hrest ih =>
    have hempty : rest.isEmpty = rest'.isEmpty := by cases hrest <;> rfl
    have hhandlers : blk.handlers.isEmpty = blk'.handlers.isEmpty := by
      have h := hb.handlers
      generalize blk.handlers = hs, blk'.handlers = hs' at h
      cases h <;> rfl
    unfold checkOps
    refine .ite ?_ (fun _ => .error _ _) ?_
    · unfold Operation.isTerminator
      rw [hop.opcode, hempty]
    dsimp only
    rcases absent_cases (find?_missing (.of_forall₂ hop.targets) hb.succs) with
      ⟨hf, hf'⟩ | ⟨t, t', hf, hf'⟩
    · rw [hf, hf']
      refine .ite ?_ (fun _ => .error _ _) ih
      rw [hop.opcode, hhandlers]
    · rw [hf, hf']
      exact .error _ _

theorem checkFall_agree (hb : blk.Relabeled ρ blk') (x x' : BlockId) :
    Agree (checkFall x blk) (checkFall x' blk') := by
  grind [rel_cases, Agree, checkFall, hb.next, hb.succs.mem_iff]

include h in
theorem Relabeled.contains_layout (hx : ρ.block x x') :
    g.layout.contains x = g'.layout.contains x' := by
  rw [Bool.eq_iff_iff, contains_iff_mem, contains_iff_mem]
  exact (Renaming.Same.of_forall₂ h.layout).mem_iff hx

include h in
theorem Relabeled.contains_reachable (hx : ρ.block x x') :
    g.reachable.contains x = g'.reachable.contains x' := by
  rw [Bool.eq_iff_iff]
  show x ∈ g.reachable ↔ x' ∈ g'.reachable
  rw [h.mem_reachable_iff, h.symm.mem_reachable_iff]
  constructor
  · intro hr
    obtain ⟨y, hxy, hy⟩ := h.sameEdges.reaches h.entry hr
    exact ρ.blocks_unique.2 hxy hx ▸ hy
  · intro hr
    obtain ⟨y, hxy, hy⟩ := h.symm.sameEdges.reaches h.entry hr
    exact ρ.blocks_unique.1 hxy hx ▸ hy

theorem fallsThrough_relabeled (hb : blk.Relabeled ρ blk') :
    blk.fallsThrough = blk'.fallsThrough := by
  unfold Block.fallsThrough Block.lastOp?
  rcases rel_cases (rel_getLast? hb.operations) with ⟨ho, ho'⟩ | ⟨op, op', ho, ho', hop⟩
  · rw [ho, ho']
  · rw [ho, ho']
    unfold Operation.isUnconditional
    dsimp only
    rw [hop.opcode]

include h in
theorem Relabeled.checkBlock_agree (hx : ρ.block x x') :
    Agree (g.checkBlock g.reachable x) (g'.checkBlock g'.reachable x') := by
  obtain ⟨blk, blk', hblk, hblk', hb⟩ := h.blocks x x' hx
  unfold checkBlock
  rw [hblk, hblk']
  have hedges : ρ.Same blk.allSuccs blk'.allSuccs := hb.succs.append (.of_forall₂ hb.handlers)
  rcases absent_cases (find?_missing hedges (.of_forall₂ h.layout)) with
    ⟨hf, hf'⟩ | ⟨t, t', hf, hf'⟩
  · dsimp only
    rw [hf, hf']
    refine (checkOps_agree hb x x' hb.operations).bind (.ite ?_ (fun _ => ?_) (.refl _))
    · rw [h.contains_reachable hx, fallsThrough_relabeled hb]
      simp only [ne_eq, ρ.block_eq hx h.exit]
    · exact checkFall_agree hb x x'
  · dsimp only
    rw [hf, hf']
    exact .error _ _

theorem firstRepeat?_agree (h : List.Forall₂ ρ.block xs xs') (hys : List.Forall₂ ρ.block ys ys') :
    firstRepeat? ys xs = none ↔ firstRepeat? ys' xs' = none := by
  induction h generalizing ys ys' with
  | nil => exact Iff.rfl
  | @cons x x' xs xs' hx _ ih =>
    have hmem := (Renaming.Same.of_forall₂ hys).mem_iff hx
    unfold firstRepeat?
    simp only [contains_iff_mem]
    by_cases hin : x ∈ ys
    · grind
    · rw [if_neg hin, if_neg fun h' => hin (hmem.2 h')]
      exact ih (.cons hx hys)

include h in
theorem Relabeled.chainEndCount : g.chainEndCount = g'.chainEndCount := by
  unfold Graph.chainEndCount
  have hnext : ∀ x x', ρ.block x x' → (((g.block? x).bind (·.next)).isNone = true ↔
      ((g'.block? x').bind (·.next)).isNone = true) := by
    intro x x' hx
    obtain ⟨blk, blk', hblk, hblk', hb⟩ := h.blocks x x' hx
    rw [hblk, hblk']
    rcases rel_cases hb.next with ⟨hn, hn'⟩ | ⟨n, n', hn, hn', -⟩
    · simp [hn, hn']
    · simp [hn, hn']
  exact (rel_filter hnext h.layout).length_eq

theorem forM_agree {f f' : BlockId → Except Flaw Unit}
    (h : List.Forall₂ ρ.block xs xs') (hf : ∀ x x', ρ.block x x' → Agree (f x) (f' x')) :
    Agree (xs.forM f) (xs'.forM f') := by
  induction h with
  | nil => exact .refl _
  | cons hx _ ih => exact (hf _ _ hx).bind ih

include h in
/-- A block that can be reached and has no place, on one side and on the other. -/
theorem Relabeled.unplaced
    (hnone : (g.blocks.ids.find? fun x => g.reachable.contains x && !g.layout.contains x) = none) :
    (g'.blocks.ids.find? fun x => g'.reachable.contains x && !g'.layout.contains x) = none := by
  rw [find?_eq_none] at hnone ⊢
  intro x' _ hx'
  have hreach : x' ∈ g'.reachable := (and_eq_true _ _ ▸ hx').1
  obtain ⟨x, hx, -⟩ := h.symm.sameEdges.reaches h.entry (reaches_of_mem_reachable hreach)
  refine hnone x ?_ ?_
  · exact mem_range.2 (h.lt_size hx)
  · rw [h.contains_reachable hx, h.contains_layout hx]
    exact hx'

include h in
/-- Two graphs that differ in names both pass or both fail. -/
theorem Relabeled.verify_agree : Agree g.verify g'.verify := by
  have hhead : g.layout.head? ≠ some Graph.entry ↔ g'.layout.head? ≠ some Graph.entry := by
    rcases rel_cases (rel_head? h.layout) with ⟨hx, hx'⟩ | ⟨x, x', hx, hx', hxx⟩
    · rw [hx, hx']
    · rw [hx, hx', ne_eq, ne_eq, some.injEq, some.injEq, ρ.block_eq hxx h.entry]
  have hlast : g.layout.getLast? ≠ some Graph.exit ↔
      g'.layout.getLast? ≠ some Graph.exit := by
    rcases rel_cases (rel_getLast? h.layout) with ⟨hx, hx'⟩ | ⟨x, x', hx, hx', hxx⟩
    · rw [hx, hx']
    · rw [hx, hx', ne_eq, ne_eq, some.injEq, some.injEq, ρ.block_eq hxx h.exit]
  have hplaced : Agree (g.layout.forM (g.checkBlock g.reachable))
      (g'.layout.forM (g'.checkBlock g'.reachable)) :=
    forM_agree h.layout fun _ _ hx => h.checkBlock_agree hx
  unfold verify
  refine .ite hhead (fun _ => .error _ _) (.ite hlast
    (fun _ => .error _ _) ?_)
  dsimp only
  rcases absent_cases (firstRepeat?_agree h.layout .nil) with ⟨hf, hf'⟩ | ⟨t, t', hf, hf'⟩
  · rw [hf, hf']
    refine .ite (by rw [h.chainEndCount]) (fun _ => .error _ _) (hplaced.bind ?_)
    rcases absent_cases ⟨h.unplaced, h.symm.unplaced⟩ with ⟨hf, hf'⟩ | ⟨t, t', hf, hf'⟩
    · rw [hf, hf']
      exact .refl _
    · rw [hf, hf']
      exact .error _ _
  · rw [hf, hf']
    exact .error _ _

end Graph
end MethodGraph
