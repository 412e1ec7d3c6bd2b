import MethodGraph.Proofs.Images
/-!
  Committing a state and reloading it.

  The main statement is that this brings the state back (`VmState.commit_reload`).  It is about any
  state whose slots have the type of their elements, whose symbols do not get into each other's way
  and whose cells are in memory and do not overlap.  The code is then emitted without a fault and
  executed without an error, every slot is a value with the scalar it had, symbols are as they were,
  and so are all bytes outside the cells.  The pointer of a stack is at the address of its slot, as
  far as the type of the pointer can hold that address.

  Committing and reloading are first said of lists of leaves, by going through the list, and then
  of a state by its leaves.
-/

namespace MethodGraph

open List Emit Machine Memory VmState OperandStack

variable {m m' : Method} {b : BuilderId} {σ σ1 : Machine} {l : SymbolId → Scalar}
  {ps : List (SymbolId × Scalar)} {t : SymbolId} {q s : VmState} {c : Cell}

/-- The scalars of symbols after some of them have been written, in order. -/
def assigned (l : SymbolId → Scalar) (ps : List (SymbolId × Scalar)) : SymbolId → Scalar :=
  ps.foldl (fun l p t => if p.1 = t then p.2 else l t) l

theorem assigned_append (l : SymbolId → Scalar) (ps qs : List (SymbolId × Scalar)) :
    assigned l (ps ++ qs) = assigned (assigned l ps) qs := List.foldl_append

theorem assigned_of_not_mem (h : t ∉ ps.map (·.1)) : assigned l ps t = l t := by
  induction ps generalizing l with
  | nil => rfl
  | cons p ps ih =>
    rw [map_cons, mem_cons, not_or] at h
    exact (ih h.2).trans (if_neg fun hp => h.1 hp.symm)

theorem assigned_of_mem {a : Scalar} (hps : (ps.map (·.1)).Nodup) (h : (t, a) ∈ ps) :
    assigned l ps t = a := by
  induction ps generalizing l with
  | nil => exact absurd h not_mem_nil
  | cons p ps ih =>
    obtain ⟨hp, hps⟩ := nodup_cons.1 hps
    rcases mem_cons.1 h with rfl | h
    · exact (assigned_of_not_mem hp).trans (if_pos rfl)
    · exact ih hps h

namespace VmState

/-! ## Leaves -/

mutual

/-- The registers, stacks and arrays of a state, in order. -/
def leaves : VmState → List VmState
  | composite parts => leavesOfAll parts
  | register r => [register r]
  | fieldRegister r => [fieldRegister r]
  | stack s => [stack s]
  | array a => [array a]

/-- The registers, stacks and arrays of several states, in order. -/
def leavesOfAll : List VmState → List VmState
  | [] => []
  | p :: rest => leaves p ++ leavesOfAll rest

end

/-- The cells of the slots of a leaf. -/
def leafSlots (σ : Machine) : VmState → List Cell
  | stack s => s.slotCells σ
  | array a => a.slotCells σ
  | _ => []

/-- The symbol that mirrors a register of a leaf, with the register's cell. -/
def leafMirrors (σ : Machine) : VmState → List (SymbolId × Cell)
  | register r => [(r.symbol, r.cellOf σ (σ.symbol r.symbol))]
  | fieldRegister r => [(r.symbol, r.cell σ)]
  | stack s => [(s.pointer.symbol, s.pointerCell σ)]
  | _ => []

def leafCells (σ : Machine) (p : VmState) : List Cell :=
  leafSlots σ p ++ (leafMirrors σ p).map (·.2)

/-- The symbols that mirror registers. -/
def leafMirrored : VmState → List SymbolId
  | register r => [r.symbol]
  | fieldRegister r => [r.symbol]
  | stack s => [s.pointer.symbol]
  | _ => []

/-- The symbols that addresses are computed from. -/
def leafAnchors : VmState → List SymbolId
  | fieldRegister r => [r.object]
  | stack s => [s.base]
  | array a => [a.base]
  | _ => []

/-- The symbols of stack pointers. -/
def leafPointers : VmState → List SymbolId
  | stack s => [s.pointer.symbol]
  | _ => []

/-- What committing assigns to the symbols of stack pointers. -/
def leafPoints (σ : Machine) : VmState → List (SymbolId × Scalar)
  | stack s => [(s.pointer.symbol, .int (s.pointerAddress σ))]
  | _ => []

/-- What is needed to emit the code of a leaf: values and symbols are there with the declared
    types. -/
def LeafTyped (m : Method) : VmState → Prop
  | register r => r.Typed m ∧ r.ty.isScalar = true
  | fieldRegister r => (∃ y, m.graph.symbols.get? r.symbol = some y ∧ y.ty = r.field.valueType) ∧
      (∃ o, m.graph.symbols.get? r.object = some o) ∧ r.field.valueType.isScalar = true
  | stack s => s.Typed m
  | array a => Emit.RowTyped m a.slots a.element a.base
  | composite _ => False

/-- What is needed to execute it: slots and addresses have been computed. -/
def LeafComputed (σ : Machine) : VmState → Prop
  | register r => σ.Computes r.address
  | stack s => (∀ v ∈ s.slots, σ.Computes v) ∧ σ.Computes s.pointer.address
  | array a => ∀ v ∈ a.slots, σ.Computes v
  | _ => True

/-- The scalars of slots and registers are of their types. -/
def LeafHolds (σ : Machine) : VmState → Prop
  | register r => r.ty.Holds (σ.symbol r.symbol)
  | fieldRegister r => r.field.valueType.Holds (σ.symbol r.symbol)
  | stack s => ∀ v ∈ s.slots, s.element.Holds (σ.scalar v)
  | array a => ∀ v ∈ a.slots, a.element.Holds (σ.scalar v)
  | composite _ => True

/-- Symbols that mirror registers are different from each other and from those that addresses are
    computed from. -/
structure Separate (L : List VmState) : Prop where
  nodup : (L.flatMap leafMirrored).Nodup
  anchors : ∀ t ∈ L.flatMap leafMirrored, t ∉ L.flatMap leafAnchors

/-- The symbols whose scalars the cells of a leaf depend on. -/
def leafReads : VmState → List SymbolId
  | register r => [r.symbol]
  | fieldRegister r => [r.symbol, r.object]
  | stack s => [s.base]
  | array a => [a.base]
  | composite _ => []

theorem map_fst_leafMirrors (σ : Machine) (p : VmState) :
    (leafMirrors σ p).map (·.1) = leafMirrored p := by
  cases p <;> rfl

theorem map_fst_leafPoints (σ : Machine) (p : VmState) :
    (leafPoints σ p).map (·.1) = leafPointers p := by
  cases p <;> rfl

variable {p : VmState}

theorem leafPointers_subset (h : t ∈ leafPointers p) : t ∈ leafMirrored p := by
  cases p with
  | stack s => exact h
  | _ => exact absurd h not_mem_nil

theorem mem_leafPointers (h : t ∈ leafPointers p) : ∃ s, p = stack s ∧ s.pointer.symbol = t := by
  cases p with
  | stack s => exact ⟨s, rfl, (mem_singleton.1 h).symm⟩
  | _ => exact absurd h not_mem_nil

theorem leafReads_subset (h : t ∈ leafReads p) : t ∈ leafMirrored p ∨ t ∈ leafAnchors p := by
  cases p with
  | register r => exact .inl h
  | fieldRegister r =>
    rcases mem_cons.1 h with rfl | h
    · exact .inl (mem_singleton.2 rfl)
    · exact .inr h
  | stack s => exact .inr h
  | array a => exact .inr h
  | composite ps => exact absurd h not_mem_nil

/-- A row whose values and base are kept has the same cells. -/
theorem elementCells_congr {slots : List ValueId} {element : Ty} {base : SymbolId}
    (ht : Emit.RowTyped m slots element base) (hkept : σ.Kept m.graph.values.size σ1)
    (hbase : σ1.symbol base = σ.symbol base) (index : Nat → Int) :
    elementCells σ1 element (σ1.symbol base).toInt index slots.zipIdx =
      elementCells σ element (σ.symbol base).toInt index slots.zipIdx := by
  grind [elementCells, map_congr_left, hkept.scalar, ht.lt]

/-- A leaf with the same scalars to look at has the same cells. -/
theorem leaf_congr (ht : LeafTyped m p) (hkept : σ.Kept m.graph.values.size σ1)
    (hsame : ∀ t ∈ leafReads p, σ1.symbol t = σ.symbol t) :
    leafSlots σ1 p = leafSlots σ p ∧ leafMirrors σ1 p = leafMirrors σ p ∧
      leafPoints σ1 p = leafPoints σ p := by
  cases p with
  | register r =>
    have hr := hsame r.symbol (mem_singleton.2 rfl)
    simp only [leafSlots, leafMirrors, leafPoints, Register.cellOf, hr, hkept.scalar ht.1.2,
      and_self]
  | fieldRegister r => grind [FieldRegister.cell, leafSlots, leafMirrors, leafPoints, leafReads]
  | stack s =>
    have hbase := hsame s.base (mem_singleton.2 rfl)
    have hpoint : s.pointerAddress σ1 = s.pointerAddress σ := by
      unfold pointerAddress
      rw [hbase]
    have hcell : s.pointerCell σ1 = s.pointerCell σ := by
      unfold pointerCell Register.cellOf
      rw [hpoint, hkept.scalar ht.pointer.2]
    have hslots : s.slotCells σ1 = s.slotCells σ := elementCells_congr ht.row hkept hbase _
    simp only [leafSlots, leafMirrors, leafPoints, hpoint, hcell, hslots, and_self]
  | array a =>
    have hbase := hsame a.base (mem_singleton.2 rfl)
    have hslots : a.slotCells σ1 = a.slotCells σ := elementCells_congr ht hkept hbase _
    simp only [leafSlots, leafMirrors, leafPoints, hslots, and_self]
  | composite ps => exact ht.elim

theorem LeafTyped.mono (ht : LeafTyped m p) {P : Machine → Prop} {Q : Machine → Machine → Prop}
    (h : m.Does b m' P Q) : LeafTyped m' p := by
  have hregister : ∀ {r : Register}, r.Typed m → r.Typed m' := by
    grind [Register.Typed, h.symbols, h.size]
  have hrow : ∀ {slots : List ValueId} {element : Ty} {base : SymbolId},
      Emit.RowTyped m slots element base → Emit.RowTyped m' slots element base := by
    rintro slots element base ⟨hslots, helement, y, hy⟩
    exact ⟨fun v hv => h.values (hslots v hv), helement, y, h.symbols _ _ hy⟩
  cases p with
  | register r => exact ⟨hregister ht.1, ht.2⟩
  | fieldRegister r => grind [LeafTyped, h.symbols]
  | stack s => exact ⟨hrow ht.row, hregister ht.pointer, ht.integral⟩
  | array a => exact hrow ht
  | composite ps => exact ht

theorem LeafComputed.kept (hp : LeafComputed σ p) (ht : LeafTyped m p)
    (hkept : σ.Kept m.graph.values.size σ1) : LeafComputed σ1 p := by
  cases p with
  | register r => exact (hkept.computes ht.1.2).2 hp
  | stack s =>
    exact ⟨fun v hv => (hkept.computes (ht.row.lt hv)).2 (hp.1 v hv),
      (hkept.computes ht.pointer.2).2 hp.2⟩
  | array a => exact fun v hv => (hkept.computes (Emit.RowTyped.lt ht hv)).2 (hp v hv)
  | fieldRegister r | composite ps => trivial

/-- Leaves that look at none of the symbols that were assigned have the same cells as before. -/
theorem leaves_congr {L : List VmState} (ht : ∀ p ∈ L, LeafTyped m p)
    (hkept : σ.Kept m.graph.values.size σ1) (hsymbols : σ1.symbol = assigned σ.symbol ps)
    (hps : ∀ p ∈ L, ∀ t ∈ leafReads p, t ∉ ps.map (·.1)) :
    L.flatMap (leafSlots σ1) = L.flatMap (leafSlots σ) ∧
    L.flatMap (leafMirrors σ1) = L.flatMap (leafMirrors σ) ∧
    L.flatMap (leafPoints σ1) = L.flatMap (leafPoints σ) ∧
    L.flatMap (leafCells σ1) = L.flatMap (leafCells σ) := by
  have hcongr : ∀ p ∈ L, leafSlots σ1 p = leafSlots σ p ∧ leafMirrors σ1 p = leafMirrors σ p ∧
      leafPoints σ1 p = leafPoints σ p := by
    refine fun p hp => leaf_congr (ht p hp) hkept fun t hreads => ?_
    rw [hsymbols, assigned_of_not_mem (hps p hp t hreads)]
  refine ⟨flatMap_congr fun p hp => (hcongr p hp).1, flatMap_congr fun p hp => (hcongr p hp).2.1,
    flatMap_congr fun p hp => (hcongr p hp).2.2, flatMap_congr fun p hp => ?_⟩
  rw [leafCells, leafCells, (hcongr p hp).1, (hcongr p hp).2.1]

namespace Separate

variable {p : VmState} {L : List VmState}

theorem head (h : Separate (p :: L)) : Separate [p] where
  nodup := by
    rw [flatMap_singleton]
    exact (nodup_append.1 h.nodup).1
  anchors t := by
    rw [flatMap_singleton, flatMap_singleton]
    exact fun ht hanchor => h.anchors t (mem_append_left _ ht) (mem_append_left _ hanchor)

theorem tail (h : Separate (p :: L)) : Separate L where
  nodup := (nodup_append.1 h.nodup).2.1
  anchors t ht hanchor :=
    h.anchors t (mem_append_right _ ht) (mem_append_right _ hanchor)

/-- What the first leaf mirrors is nothing that the others look at. -/
theorem not_reads (h : Separate (p :: L)) (hq : q ∈ L) (ht : t ∈ leafReads q) :
    t ∉ leafMirrored p := by
  intro hp
  rcases leafReads_subset ht with ht | ht
  · exact (nodup_append.1 h.nodup).2.2 t hp t (mem_flatMap.2 ⟨q, hq, ht⟩) rfl
  · exact h.anchors t (mem_append_left _ hp)
      (mem_append_right _ (mem_flatMap.2 ⟨q, hq, ht⟩))

/-- What the others mirror is nothing that the first leaf looks at. -/
theorem reads_not (h : Separate (p :: L)) (ht : t ∈ leafReads p) : t ∉ L.flatMap leafMirrored := by
  intro hL
  rcases leafReads_subset ht with ht | ht
  · exact (nodup_append.1 h.nodup).2.2 t ht t hL rfl
  · exact h.anchors t (mem_append_right _ hL) (mem_append_left _ ht)

theorem base_ne {s : OperandStack} (h : Separate (stack s :: L)) : s.base ≠ s.pointer.symbol :=
  fun heq => h.anchors s.pointer.symbol (mem_append_left _ (mem_singleton.2 rfl))
    (mem_append_left _ (mem_singleton.2 heq.symm))

/-- No leaf looks at the symbol of a pointer. -/
theorem not_pointers (h : Separate L) (hq : q ∈ L) (ht : t ∈ leafReads q) :
    t ∉ L.flatMap leafPointers := by
  induction L with
  | nil => exact absurd hq not_mem_nil
  | cons p L ih =>
    intro hpointer
    rcases mem_append.1 hpointer with hp | hL
    · rcases mem_cons.1 hq with rfl | hq
      · cases q with
        | stack s =>
          rw [mem_singleton.1 hp] at ht
          exact h.base_ne (mem_singleton.1 ht).symm
        | _ => exact absurd hp not_mem_nil
      · exact h.not_reads hq ht (leafPointers_subset hp)
    · have hreads_not := @h.reads_not
      have htail := @h.tail
      grind [leafPointers_subset]

end Separate

/-! ## Committing -/

/-- The cells of a leaf are written, and the pointer of a stack is set. -/
theorem commit_leaf_does (h : m.Accepts b) (ht : LeafTyped m p) :
    ∃ m', (commit b p).run m = .ok ((), m') ∧
      m.Does b m' (fun σ => LeafComputed σ p ∧ ∀ c ∈ leafCells σ p, c.Within σ.memory)
        fun σ σ' => σ'.memory = σ.memory.keepAll (leafCells σ p) ∧
          σ'.symbol = assigned σ.symbol (leafPoints σ p) := by
  cases p with
  | register r =>
    obtain ⟨m', hrun, hdoes⟩ := Register.commit_does h ht.1 (Ty.size_le_of_isScalar ht.2)
    refine ⟨m', hrun, (hdoes.pre _ ?_).post ?_⟩
    · exact fun hσ => ⟨hσ.1, hσ.2 _ (mem_singleton.2 rfl)⟩
    · exact fun hσ => ⟨hσ.1, symbol_congr hσ.2⟩
  | fieldRegister r =>
    obtain ⟨⟨y, hy, hty⟩, ⟨o, ho⟩, hscalar⟩ := ht
    obtain ⟨m', hrun, hdoes⟩ :=
      FieldRegister.commit_does h hy hty ho (Ty.size_le_of_isScalar hscalar)
    refine ⟨m', hrun, (hdoes.pre _ ?_).post ?_⟩
    · exact fun hσ => hσ.2 _ (mem_singleton.2 rfl)
    · exact fun hσ => ⟨hσ.1, symbol_congr hσ.2⟩
  | stack s =>
    obtain ⟨m', hrun, hdoes⟩ := commit_does h ht
    refine ⟨m', hrun, (hdoes.pre _ ?_).post ?_⟩
    · exact fun hσ => ⟨hσ.1.1, hσ.1.2, hσ.2⟩
    · exact fun hσ => ⟨hσ.1, funext hσ.2⟩
  | array a =>
    obtain ⟨m', hrun, hdoes⟩ := OperandArray.commit_does h ht
    refine ⟨m', hrun, (hdoes.pre _ ?_).post ?_⟩
    · exact fun hσ => ⟨hσ.1, fun c hc => hσ.2 c (mem_append_left _ hc)⟩
    · rintro σ σ' ⟨hmemory, hlocals⟩
      rw [leafCells, leafMirrors, map_nil, append_nil]
      · exact ⟨hmemory, symbol_congr hlocals⟩
      all_goals exact fun _ => nofun
  | composite ps => exact ht.elim

variable {L : List VmState} (h : m.Accepts b) (ht : ∀ p ∈ L, LeafTyped m p) (hL : Separate L)

include h ht hL in
/-- Leaves that are committed one after another do not notice each other. -/
theorem commit_leaves_does :
    ∃ m', (forM L (commit b)).run m = .ok ((), m') ∧
      m.Does b m' (fun σ => (∀ p ∈ L, LeafComputed σ p) ∧
          ∀ c ∈ L.flatMap (leafCells σ), c.Within σ.memory)
        fun σ σ' => σ'.memory = σ.memory.keepAll (L.flatMap (leafCells σ)) ∧
          σ'.symbol = assigned σ.symbol (L.flatMap (leafPoints σ)) := by
  induction L generalizing m with
  | nil =>
    refine ⟨m, rfl, ((Method.Does.nothing h).pre _ fun _ => trivial).post ?_⟩
    rintro σ σ' rfl
    exact ⟨rfl, rfl⟩
  | cons p L ih =>
    obtain ⟨m1, hrun1, hdoes1⟩ := commit_leaf_does h (ht p mem_cons_self)
    obtain ⟨m2, hrun2, hdoes2⟩ := ih hdoes1.accepts
      (fun q hq => (ht q (mem_cons_of_mem _ hq)).mono hdoes1) hL.tail
    have hrun : (forM (p :: L) (commit b)).run m = .ok ((), m2) := by
      rw [forM_cons]
      exact bind_eq_ok.2 ⟨(), m1, hrun1, hrun2⟩
    refine ⟨m2, hrun, ?_⟩
    -- what the first leaf did is nothing that the others look at
    have hreads : ∀ (σ : Machine), ∀ q ∈ L, ∀ t ∈ leafReads q, t ∉ (leafPoints σ p).map (·.1) := by
      intro σ q hq t ht
      rw [map_fst_leafPoints]
      exact fun hp => hL.not_reads hq ht (leafPointers_subset hp)
    have hrest : ∀ q ∈ L, LeafTyped m q := fun q hq => ht q (mem_cons_of_mem _ hq)
    refine (hdoes1.pre _ ?_).seq hdoes2 ?_ ?_
    · exact fun hσ => ⟨hσ.1 p mem_cons_self, fun c hc => hσ.2 c (mem_append_left _ hc)⟩
    · rintro σ σ1 ⟨hcomputed, hin⟩ hkept ⟨hmemory, hsymbols⟩
      obtain ⟨-, -, -, hcells⟩ := leaves_congr hrest hkept hsymbols (hreads σ)
      rw [hcells, hmemory]
      refine ⟨fun q hq => (hcomputed q (mem_cons_of_mem _ hq)).kept (hrest q hq) hkept,
        fun c hc => ?_⟩
      exact (within_congr (σ.memory.size_keepAll _)).2 (hin c (mem_append_right _ hc))
    · rintro σ σ1 σ2 - hkept ⟨hmemory, hsymbols⟩ - ⟨hmemory', hsymbols'⟩
      obtain ⟨-, -, hpoints, hcells⟩ := leaves_congr hrest hkept hsymbols (hreads σ)
      rw [hcells, hmemory] at hmemory'
      rw [hpoints, hsymbols] at hsymbols'
      rw [flatMap_cons, flatMap_cons, keepAll_append, assigned_append]
      exact ⟨hmemory', hsymbols'⟩

mutual

/-- Committing a state is committing its leaves. -/
theorem commit_eq_leaves (b : BuilderId) (s : VmState) :
    commit b s = forM s.leaves (commit b) := by
  cases s with
  | composite ps => exact commitAll_eq_leaves b ps
  | register r | fieldRegister r | stack s | array a =>
    rw [leaves, forM_cons, forM_nil]
    exact bind_pure_unit.symm

theorem commitAll_eq_leaves (b : BuilderId) (ps : List VmState) :
    commitAll b ps = forM (leavesOfAll ps) (commit b) := by
  cases ps with
  | nil => rfl
  | cons p ps =>
    rw [commitAll, leavesOfAll, forM_append, commit_eq_leaves b p, commitAll_eq_leaves b ps]

end

/-! ## Reloading -/

/-- What the symbols that mirror registers are reloaded with. -/
def loaded (m : Memory) (c : SymbolId × Cell) : SymbolId × Scalar :=
  (c.1, m.peek c.2.address c.2.ty)

/-- A leaf with other values in its slots. -/
inductive Refills : VmState → VmState → Prop where
  | register (r : Register) : Refills (register r) (register r)
  | fieldRegister (r : FieldRegister) : Refills (fieldRegister r) (fieldRegister r)
  | stack (s : OperandStack) {ws : List ValueId} (h : ws.length = s.slots.length) :
    Refills (stack s) (stack { s with slots := ws })
  | array (a : OperandArray) {ws : List ValueId} (h : ws.length = a.slots.length) :
    Refills (array a) (array { a with slots := ws })

theorem reload_leaf_does (h : m.Accepts b) (ht : LeafTyped m p) (hp : Separate [p]) :
    ∃ q m', (reload b p).run m = .ok (q, m') ∧ Refills p q ∧
      (∀ w ∈ q.slots, w < m'.graph.values.size) ∧
      m.Does b m' (fun σ => LeafComputed σ p ∧ ∀ c ∈ leafCells σ p, c.Within σ.memory)
        fun σ σ' => σ'.memory = σ.memory ∧
          List.Forall₂ (fun w c => σ'.Has w (σ.memory.peek c.address c.ty)) q.slots
            (leafSlots σ p) ∧
          σ'.symbol = assigned σ.symbol ((leafMirrors σ p).map (loaded σ.memory)) := by
  have hbound : ∀ {m' : Method} {ws : List ValueId} {ty : Ty},
      (∀ w ∈ ws, m'.graph.values.get? w = some ty) → ∀ w ∈ ws, w < m'.graph.values.size :=
    fun h w hw => Arena.get?_isSome.1 (by rw [h w hw]; rfl)
  cases p with
  | register r =>
    obtain ⟨m', hrun, hdoes⟩ := Register.reload_does h (Ty.size_le_of_isScalar ht.2)
    refine ⟨.register r, m', bind_eq_ok.2 ⟨(), m', hrun, rfl⟩, .register r, nofun,
      (hdoes.pre _ ?_).post ?_⟩
    · exact fun hσ => ⟨hσ.1, Cell.within_mk.1 (hσ.2 _ (mem_singleton.2 rfl))⟩
    · exact fun hσ => ⟨hσ.1, .nil, funext hσ.2⟩
  | fieldRegister r =>
    obtain ⟨-, ⟨o, ho⟩, hscalar⟩ := ht
    obtain ⟨m', hrun, hdoes⟩ := FieldRegister.reload_does h ho (Ty.size_le_of_isScalar hscalar)
    refine ⟨.fieldRegister r, m', bind_eq_ok.2 ⟨(), m', hrun, rfl⟩, .fieldRegister r, nofun,
      (hdoes.pre _ ?_).post ?_⟩
    · exact fun hσ => hσ.2 _ (mem_singleton.2 rfl)
    · exact fun hσ => ⟨hσ.1, .nil, funext hσ.2⟩
  | stack s =>
    obtain ⟨ws, m', hrun, htyped, hlength, hdoes⟩ := reload_does h ht hp.base_ne
    refine ⟨.stack { s with slots := ws }, m', bind_eq_ok.2 ⟨_, m', hrun, rfl⟩,
      .stack s hlength, hbound htyped, (hdoes.pre _ ?_).post ?_⟩
    · exact fun hσ => ⟨hσ.1.2, hσ.2⟩
    · exact fun hσ => ⟨hσ.2.1, hσ.1, funext hσ.2.2⟩
  | array a =>
    obtain ⟨ws, m', hrun, htyped, hlength, hdoes⟩ := OperandArray.reload_does h ht
    refine ⟨.array { a with slots := ws }, m', bind_eq_ok.2 ⟨_, m', hrun, rfl⟩,
      .array a hlength, hbound htyped, (hdoes.pre _ ?_).post ?_⟩
    · exact fun hσ c hc => hσ.2 c (mem_append_left _ hc)
    · rintro σ σ' ⟨hws, hmemory, hlocals⟩
      exact ⟨hmemory, hws, symbol_congr hlocals⟩
  | composite ps => exact ht.elim

include h ht hL in
/-- Leaves that are reloaded one after another do not notice each other. -/
theorem reload_leaves_does :
    ∃ L' m', (L.mapM (reload b)).run m = .ok (L', m') ∧ List.Forall₂ Refills L L' ∧
      m.Does b m' (fun σ => (∀ p ∈ L, LeafComputed σ p) ∧
          ∀ c ∈ L.flatMap (leafCells σ), c.Within σ.memory)
        fun σ σ' => σ'.memory = σ.memory ∧
          List.Forall₂ (fun w c => σ'.Has w (σ.memory.peek c.address c.ty)) (L'.flatMap slots)
            (L.flatMap (leafSlots σ)) ∧
          σ'.symbol = assigned σ.symbol ((L.flatMap (leafMirrors σ)).map (loaded σ.memory)) := by
  induction L generalizing m with
  | nil =>
    refine ⟨[], m, rfl, .nil, ((Method.Does.nothing h).pre _ fun _ => trivial).post ?_⟩
    rintro σ σ' rfl
    exact ⟨rfl, .nil, rfl⟩
  | cons p L ih =>
    obtain ⟨q, m1, hrun1, hq, hlt, hdoes1⟩ := reload_leaf_does h (ht p mem_cons_self) hL.head
    obtain ⟨L', m2, hrun2, hL', hdoes2⟩ := ih hdoes1.accepts
      (fun q hq => (ht q (mem_cons_of_mem _ hq)).mono hdoes1) hL.tail
    refine ⟨q :: L', m2, ?_, .cons hq hL', ?_⟩
    · rw [mapM_cons]
      exact bind_eq_ok.2 ⟨q, m1, hrun1, bind_eq_ok.2 ⟨L', m2, hrun2, rfl⟩⟩
    have hreads : ∀ (σ : Machine), ∀ q ∈ L, ∀ t ∈ leafReads q,
        t ∉ ((leafMirrors σ p).map (loaded σ.memory)).map (·.1) := by
      intro σ q hq t ht
      rw [map_map]
      exact map_fst_leafMirrors σ p ▸ hL.not_reads hq ht
    have hrest : ∀ q ∈ L, LeafTyped m q := fun q hq => ht q (mem_cons_of_mem _ hq)
    refine (hdoes1.pre _ ?_).seq hdoes2 ?_ ?_
    · exact fun hσ => ⟨hσ.1 p mem_cons_self, fun c hc => hσ.2 c (mem_append_left _ hc)⟩
    · rintro σ σ1 ⟨hcomputed, hin⟩ hkept ⟨hmemory, -, hsymbols⟩
      obtain ⟨-, -, -, hcells⟩ := leaves_congr hrest hkept hsymbols (hreads σ)
      rw [hcells, hmemory]
      exact ⟨fun q hq => (hcomputed q (mem_cons_of_mem _ hq)).kept (hrest q hq) hkept,
        fun c hc => hin c (mem_append_right _ hc)⟩
    · rintro σ σ1 σ2 - hkept ⟨hmemory, hslots, hsymbols⟩ hkept' ⟨hmemory', hslots', hsymbols'⟩
      obtain ⟨hsame, hmirrors, -⟩ := leaves_congr hrest hkept hsymbols (hreads σ)
      rw [hsame, hmemory] at hslots'
      rw [hmirrors, hsymbols] at hsymbols'
      have hslots : List.Forall₂ (fun w c => σ2.Has w (σ.memory.peek c.address c.ty)) q.slots
          (leafSlots σ p) :=
        ((forall₂_and_left _ _).2 ⟨hlt, hslots⟩).imp fun w c hw => hkept'.has hw.1 hw.2
      refine ⟨hmemory'.trans hmemory, rel_append hslots hslots', ?_⟩
      rw [hsymbols', hmemory, flatMap_cons, map_append, assigned_append]

theorem Refills.alike (h : Refills p q) : p.alike q = true := by
  cases h with
  | register r => simp [VmState.alike, Register.alike]
  | fieldRegister r => simp [VmState.alike]
  | stack s h => simp [VmState.alike, OperandStack.alike, OperandStack.depth, Register.alike, h]
  | array a h => simp [VmState.alike, OperandArray.alike, OperandArray.length, h]

theorem Refills.leaves (h : Refills p q) : q.leaves = [q] := by
  cases h <;> rfl

theorem length_mapM {α β : Type} {f : α → Emit β} {l : List α} {r : List β}
    (h : (l.mapM f).run m = .ok (r, m')) : r.length = l.length := by
  induction l generalizing m r with
  | nil =>
    cases h
    rfl
  | cons a l ih =>
    rw [mapM_cons] at h
    obtain ⟨x, m1, -, h⟩ := bind_eq_ok.1 h
    obtain ⟨xs, m2, hrun, h⟩ := bind_eq_ok.1 h
    cases h
    rw [length_cons, length_cons, ih hrun]

mutual

/-- A state is reloaded by reloading its leaves. -/
theorem reload_of_leaves {m m' : Method} {s : VmState} {L : List VmState}
    (hrun : (s.leaves.mapM (reload b)).run m = .ok (L, m')) (hL : List.Forall₂ Refills s.leaves L) :
    ∃ s', (reload b s).run m = .ok (s', m') ∧ s'.leaves = L ∧ s.alike s' = true := by
  cases s with
  | composite ps =>
    obtain ⟨qs, hrun, hqs, halike⟩ := reloadAll_of_leaves hrun hL
    exact ⟨composite qs, bind_eq_ok.2 ⟨qs, m', hrun, rfl⟩, hqs, halike⟩
  | register r | fieldRegister r | stack s | array a =>
    obtain ⟨q, qs, hq, hnil, rfl⟩ := forall₂_cons_left_iff.1 hL
    obtain rfl := forall₂_nil_left_iff.1 hnil
    rw [leaves, mapM_cons] at hrun
    obtain ⟨q', m1, hrun, hrest⟩ := bind_eq_ok.1 hrun
    cases hrest
    exact ⟨q, hrun, hq.leaves, hq.alike⟩

theorem reloadAll_of_leaves {m m' : Method} {ps L : List VmState}
    (hrun : ((leavesOfAll ps).mapM (reload b)).run m = .ok (L, m'))
    (hL : List.Forall₂ Refills (leavesOfAll ps) L) :
    ∃ qs, (reloadAll b ps).run m = .ok (qs, m') ∧ leavesOfAll qs = L ∧ allAlike ps qs = true := by
  cases ps with
  | nil =>
    cases hrun
    exact ⟨[], rfl, rfl, rfl⟩
  | cons p ps =>
    rw [leavesOfAll, mapM_append] at hrun
    obtain ⟨L1, m1, hrun1, hrun⟩ := bind_eq_ok.1 hrun
    obtain ⟨L2, m2, hrun2, hrun⟩ := bind_eq_ok.1 hrun
    cases hrun
    have hlength := length_mapM hrun1
    have hL1 : List.Forall₂ Refills p.leaves L1 :=
      take_left' hlength.symm ▸ forall₂_take_append _ _ _ hL
    have hL2 : List.Forall₂ Refills (leavesOfAll ps) L2 := by
      have hdrop := forall₂_drop_append _ _ _ hL
      rwa [leavesOfAll, drop_left' hlength.symm] at hdrop
    obtain ⟨q, hrun1, hq, halike⟩ := reload_of_leaves hrun1 hL1
    obtain ⟨qs, hrun2, hqs, hallAlike⟩ := reloadAll_of_leaves hrun2 hL2
    refine ⟨q :: qs, bind_eq_ok.2
      ⟨q, m1, hrun1, bind_eq_ok.2 ⟨qs, _, hrun2, rfl⟩⟩, ?_, ?_⟩
    · rw [leavesOfAll, hq, hqs]
    · rw [allAlike, halike, hallAlike]
      rfl

end

mutual

theorem slots_eq_leaves (s : VmState) : s.slots = s.leaves.flatMap slots := by
  cases s with
  | composite ps => exact slotsOfAll_eq_leaves ps
  | register r | fieldRegister r | stack s | array a => rw [leaves, flatMap_singleton]

theorem slotsOfAll_eq_leaves (ps : List VmState) :
    slotsOfAll ps = (leavesOfAll ps).flatMap slots := by
  cases ps with
  | nil => rfl
  | cons p ps =>
    rw [slotsOfAll, leavesOfAll, flatMap_append, slots_eq_leaves p, slotsOfAll_eq_leaves ps]

end

/-! ## There and back -/

/-- All cells of a state, with the scalars that belong into them. -/
def cells (s : VmState) (σ : Machine) : List Cell := s.leaves.flatMap (leafCells σ)

/-- A state whose code can be emitted: what it refers to is there with the declared types, and
    symbols do not get into each other's way. -/
structure Typed (s : VmState) (m : Method) : Prop where
  leaves : ∀ p ∈ s.leaves, LeafTyped m p
  separate : Separate s.leaves

/-- A state whose code can be executed: its values have been computed, and its cells are in
    memory. -/
structure Placed (s : VmState) (σ : Machine) : Prop where
  computed : ∀ p ∈ s.leaves, LeafComputed σ p
  within : ∀ c ∈ s.cells σ, c.Within σ.memory

/-- Moreover, scalars are of their types, and cells do not overlap. -/
structure Stored (s : VmState) (σ : Machine) : Prop extends s.Placed σ where
  holds : ∀ p ∈ s.leaves, LeafHolds σ p
  apart : (s.cells σ).Pairwise Cell.Apart

/-- Committing a state and reloading it writes all its cells and then reads from them. -/
theorem commit_reload_does (h : m.Accepts b) (hs : s.Typed m) :
    ∃ m1 s' m2, (commit b s).run m = .ok ((), m1) ∧ (reload b s).run m1 = .ok (s', m2) ∧
      s.alike s' = true ∧ m.Does b m2 s.Placed fun σ σ' =>
        σ'.memory = σ.memory.keepAll (s.cells σ) ∧
        List.Forall₂ (fun w c => σ'.Has w (σ'.memory.peek c.address c.ty)) s'.slots
          (s.leaves.flatMap (leafSlots σ)) ∧
        σ'.symbol = assigned (assigned σ.symbol (s.leaves.flatMap (leafPoints σ)))
          ((s.leaves.flatMap (leafMirrors σ)).map (loaded σ'.memory)) := by
  obtain ⟨m1, hrun1, hdoes1⟩ := commit_leaves_does h hs.leaves hs.separate
  obtain ⟨L, m2, hrun2, hL, hdoes2⟩ := reload_leaves_does hdoes1.accepts
    (fun p hp => (hs.leaves p hp).mono hdoes1) hs.separate
  obtain ⟨s', hreload, rfl, halike⟩ := reload_of_leaves hrun2 hL
  refine ⟨m1, s', m2, commit_eq_leaves b s ▸ hrun1, hreload, halike, ?_⟩
  rw [slots_eq_leaves s']
  -- committing sets pointers only, and nothing is computed from those
  have hreads : ∀ (σ : Machine), ∀ p ∈ s.leaves, ∀ t ∈ leafReads p,
      t ∉ (s.leaves.flatMap (leafPoints σ)).map (·.1) := by
    intro σ p hp t ht
    rw [map_flatMap, flatMap_congr fun p _ => map_fst_leafPoints σ p]
    exact hs.separate.not_pointers hp ht
  refine (hdoes1.pre s.Placed fun hσ => ⟨hσ.computed, hσ.within⟩).seq hdoes2 ?_ ?_
  · rintro σ σ1 hσ hkept ⟨hmemory, hsymbols⟩
    obtain ⟨-, -, -, hcells⟩ := leaves_congr hs.leaves hkept hsymbols (hreads σ)
    rw [hcells, hmemory]
    exact ⟨fun p hp => (hσ.computed p hp).kept (hs.leaves p hp) hkept,
      fun c hc => (within_congr (σ.memory.size_keepAll _)).2 (hσ.within c hc)⟩
  · rintro σ σ1 σ2 - hkept ⟨hmemory, hsymbols⟩ - ⟨hmemory', hslots, hsymbols'⟩
    obtain ⟨hsame, hmirrors, -⟩ := leaves_congr hs.leaves hkept hsymbols (hreads σ)
    rw [hsame, ← hmemory'] at hslots
    rw [hmirrors, hsymbols, ← hmemory'] at hsymbols'
    exact ⟨hmemory'.trans hmemory, hslots, hsymbols'⟩

/-- The cells of slots have the scalars of the slots. -/
theorem content_leafSlots (ht : LeafTyped m p) :
    (leafSlots σ p).map (·.content) = p.slots.map σ.scalar := by
  have hrow : ∀ (slots : List ValueId) (element : Ty) (address : Int64) (index : Nat → Int),
      (elementCells σ element address index slots.zipIdx).map (·.content) =
        slots.map σ.scalar := by
    intro slots element address index
    calc (elementCells σ element address index slots.zipIdx).map (·.content)
      _ = slots.zipIdx.map fun q => σ.scalar q.1 := map_map
      _ = (slots.zipIdx.map Prod.fst).map σ.scalar := by rw [map_map]; rfl
      _ = slots.map σ.scalar := by rw [zipIdx_map_fst]
  cases p with
  | register r | fieldRegister r => rfl
  | stack s => rw [leafSlots, slotCells, hrow, slots]
  | array a => rw [leafSlots, OperandArray.slotCells, hrow, slots]
  | composite ps => exact ht.elim

theorem leafSlots_holds (hp : LeafHolds σ p) (hc : c ∈ leafSlots σ p) : c.ty.Holds c.content := by
  cases p with
  | stack s =>
    obtain ⟨q, hq, rfl⟩ := mem_map.1 hc
    exact hp _ (fst_mem_of_mem_zipIdx hq)
  | array a =>
    obtain ⟨q, hq, rfl⟩ := mem_map.1 hc
    exact hp _ (fst_mem_of_mem_zipIdx hq)
  | register r | fieldRegister r | composite ps => exact absurd hc not_mem_nil

/-- A symbol that mirrors a register is that of a pointer, or its scalar is in the cell. -/
theorem leafMirrors_content (hp : LeafHolds σ p) (hc : (t, c) ∈ leafMirrors σ p) :
    t ∈ leafPointers p ∨ c.ty.Holds c.content ∧ c.content = σ.symbol t := by
  cases p with
  | register r =>
    cases mem_singleton.1 hc
    exact .inr ⟨hp, rfl⟩
  | fieldRegister r =>
    cases mem_singleton.1 hc
    exact .inr ⟨hp, rfl⟩
  | stack s =>
    cases mem_singleton.1 hc
    exact .inl (mem_singleton.2 rfl)
  | array a | composite ps => exact absurd hc not_mem_nil

theorem leafCells_suit (ht : LeafTyped m p) (hp : LeafHolds σ p) (hc : c ∈ leafCells σ p)
    : c.ty.suits c.content = true := by
  rcases mem_append.1 hc with hc | hc
  · exact (leafSlots_holds hp hc).1
  · obtain ⟨⟨t, c⟩, hmirror, rfl⟩ := mem_map.1 hc
    rcases leafMirrors_content hp hmirror with hpointer | hholds
    · cases p with
      | stack s =>
        cases mem_singleton.1 hmirror
        exact ht.integral
      | _ => exact absurd hpointer not_mem_nil
    · exact hholds.1.1

/-- After all cells have been written, each of them has its scalar. -/
theorem Stored.peek (hs : s.Typed m) (hσ : s.Stored σ) (hc : c ∈ s.cells σ) :
    (σ.memory.keepAll (s.cells σ)).peek c.address c.ty = c.ty.cut c.content := by
  refine peek_keepAll hσ.apart hσ.within (fun d hd => ?_) c hc
  obtain ⟨p, hp, hd⟩ := mem_flatMap.1 hd
  exact leafCells_suit (hs.leaves p hp) (hσ.holds p hp) hd

theorem mem_cells_of_slot (hc : c ∈ s.leaves.flatMap (leafSlots σ)) : c ∈ s.cells σ := by
  obtain ⟨p, hp, hc⟩ := mem_flatMap.1 hc
  exact mem_flatMap.2 ⟨p, hp, mem_append_left _ hc⟩

theorem mem_cells_of_mirror (hp : p ∈ s.leaves) (hc : (t, c) ∈ leafMirrors σ p) : c ∈ s.cells σ :=
  mem_flatMap.2 ⟨p, hp, mem_append_right _ (mem_map.2 ⟨(t, c), hc, rfl⟩)⟩

/-- The scalar that a mirrored symbol is reloaded with. -/
theorem assigned_mirror (hs : s.Typed m) (hσ : s.Stored σ) (hp : p ∈ s.leaves)
    (hc : (t, c) ∈ leafMirrors σ p) (l : SymbolId → Scalar) :
    assigned l ((s.leaves.flatMap (leafMirrors σ)).map
      (loaded (σ.memory.keepAll (s.cells σ)))) t = c.ty.cut c.content := by
  refine assigned_of_mem ?_ (mem_map.2 ⟨(t, c), mem_flatMap.2 ⟨p, hp, hc⟩, ?_⟩)
  · rw [map_map, map_flatMap]
    exact (flatMap_congr fun p _ => map_fst_leafMirrors σ p) ▸ hs.separate.nodup
  · rw [loaded, hσ.peek hs (mem_cells_of_mirror hp hc)]

/-- Committing a state and reloading it brings it back.  Every slot becomes a value with the scalar
    that it had, no symbol changes but those of stack pointers, and no byte outside the cells of the
    state.  The pointer of a stack, and its cell, is at the address of slot `depth + offset`, cut to
    the type of the pointer. -/
theorem commit_reload (hm : m.Reachable) (hb : b < m.builders.size) {s : VmState}
    (hs : s.Typed m) :
    ∃ m₁ s' m₂ ops, (commit b s).run m = .ok ((), m₁) ∧ (reload b s).run m₁ = .ok (s', m₂) ∧
      s.alike s' = true ∧ m.Appended b ops m₂ ∧
      ∀ (g : Graph) (hosts : Bindings String HostFn) (σ : Machine), g.HasValues m₂ →
        m₂.graph.values.size ≤ σ.values.size → s.Stored σ →
        ∃ σ', Exec.Takes g hosts ops σ σ' ∧
          List.Forall₂ (fun v w => σ'.Has w (σ.scalar v)) s.slots s'.slots ∧
          (∀ t, (∀ st, stack st ∈ s.leaves → st.pointer.symbol ≠ t) →
            σ'.symbol t = σ.symbol t) ∧
          (∀ st, stack st ∈ s.leaves →
            let address := st.pointer.ty.wrapInt (st.pointerAddress σ)
            σ'.symbol st.pointer.symbol = .int address ∧
            σ'.memory.load (σ.scalar st.pointer.address).toInt st.pointer.ty =
              .ok (.ok (.int address))) ∧
          σ'.memory.size = σ.memory.size ∧
          ∀ i, (∀ c ∈ s.cells σ, ¬ c.Covers i) → σ'.memory.bytes[i]? = σ.memory.bytes[i]? := by
  obtain ⟨m₁, s', m₂, hcommit, hreload, halike, hdoes⟩ := commit_reload_does ⟨hm.sound, hb⟩ hs
  obtain ⟨ops, happ, hrun⟩ := hdoes.code
  refine ⟨m₁, s', m₂, ops, hcommit, hreload, halike, happ, fun g hosts σ hg hroom hσ => ?_⟩
  obtain ⟨σ', htakes, -, hmemory, hslots, hsymbols⟩ := hrun g hosts σ hg hroom hσ.toPlaced
  rw [hmemory] at hsymbols hslots
  refine ⟨σ', htakes, ?_, fun t ht => ?_, fun st hst => ⟨?_, ?_⟩, ?_, fun i hi => ?_⟩
  · -- the cells of slots are read with the scalars that were written
    have hpeek : ∀ c ∈ s.leaves.flatMap (leafSlots σ),
        (σ.memory.keepAll (s.cells σ)).peek c.address c.ty = c.content := by
      intro c hc
      rw [hσ.peek hs (mem_cells_of_slot hc)]
      obtain ⟨p, hp, hc⟩ := List.mem_flatMap.1 hc
      exact (leafSlots_holds (hσ.holds p hp) hc).2
    have hread : List.Forall₂ (fun c w => σ'.Has w c.content) (s.leaves.flatMap (leafSlots σ))
        s'.slots :=
      ((List.forall₂_and_left _ _).2 ⟨hpeek, hslots.flip⟩).imp fun c w h => h.1 ▸ h.2
    have hcontent : (s.leaves.flatMap (leafSlots σ)).map (·.content) = s.slots.map σ.scalar := by
      rw [slots_eq_leaves, List.map_flatMap, List.map_flatMap]
      exact List.flatMap_congr fun p hp => content_leafSlots (hs.leaves p hp)
    have hscalars : List.Forall₂ (fun a w => σ'.Has w a) (s.slots.map σ.scalar) s'.slots :=
      hcontent ▸ List.forall₂_map_left_iff.2 hread
    exact List.forall₂_map_left_iff.1 hscalars
  · have hpointer : ∀ p ∈ s.leaves, t ∉ leafPointers p := fun p hp hmem => by
      obtain ⟨st, rfl, hsymbol⟩ := mem_leafPointers hmem
      exact ht st hp hsymbol
    by_cases hmirror : ∃ p ∈ s.leaves, ∃ c, (t, c) ∈ leafMirrors σ p
    · obtain ⟨p, hp, c, hc⟩ := hmirror
      rcases leafMirrors_content (hσ.holds p hp) hc with hmem | ⟨hholds, hcontent⟩
      · exact absurd hmem (hpointer p hp)
      · rw [hsymbols, assigned_mirror hs hσ hp hc, hholds.2, hcontent]
    · rw [hsymbols, assigned_of_not_mem, assigned_of_not_mem]
      · intro hmem
        rw [List.map_flatMap] at hmem
        obtain ⟨p, hp, hmem⟩ := List.mem_flatMap.1 hmem
        exact hpointer p hp (map_fst_leafPoints σ p ▸ hmem)
      · intro hmem
        obtain ⟨x, hx, rfl⟩ := List.mem_map.1 hmem
        obtain ⟨⟨t, c⟩, hc, rfl⟩ := List.mem_map.1 hx
        obtain ⟨p, hp, hc⟩ := List.mem_flatMap.1 hc
        exact hmirror ⟨p, hp, c, hc⟩
  · rw [hsymbols, assigned_mirror hs hσ hst (List.mem_singleton.2 rfl)]
    rfl
  · have hmem : st.pointerCell σ ∈ s.cells σ :=
      mem_cells_of_mirror hst (List.mem_singleton.2 rfl)
    have hsize : (st.pointerCell σ).ty.size ≤ 8 :=
      Ty.size_le_of_isScalar (Ty.isScalar_of_isIntegral (hs.leaves _ hst).integral)
    have hload := Memory.load_eq_peek hsize
      ((Memory.within_congr (σ.memory.size_keepAll (s.cells σ))).2 (hσ.within _ hmem))
    rw [hσ.peek hs hmem] at hload
    rw [hmemory]
    exact hload
  · rw [hmemory, Memory.size_keepAll]
  · rw [hmemory, Memory.bytes_keepAll hi]

/-- A stack of one number, whose pointer has some type, and a register. -/
def numberAndRegister (ty : Ty) : VmState := composite [
  stack { slots := [0], element := .int32, pointer := ⟨0, 1, ty, 4⟩, base := 1, growsUp := true,
          offset := 0 },
  register ⟨2, 2, .int32, 1⟩]

/-- The number and the addresses of the two registers are constants. -/
def numberAndRegisterCalls (ty : Ty) : List Call := [
  .defineLocal "top" ty, .defineLocal "base" .address, .defineLocal "pc" .int32,
  .constInt 0 .int32 7, .constInt 0 .address 0x1010, .constInt 0 .address 0x1020]

/-- A machine that has come to the end of these, with room for what else is emitted. -/
def atNumberAndRegister : Machine where
  memory := ⟨.replicate 48 0⟩
  values := #[some (.int 7), some (.int 0x1010), some (.int 0x1020)] ++ Array.replicate 20 none
  locals := ⟨[(0, .int 0), (1, .int 0x1000), (2, .int 5)]⟩

theorem numberAndRegister_typed {ty : Ty} (hty : ty.isIntegral = true)
    (hvalues : m.graph.values.items = #[.int32, .address, .address])
    (hsymbols : m.graph.symbols.items.map (·.ty) = #[ty, .address, .int32]) :
    (numberAndRegister ty).Typed m := by
  have hvalue : m.graph.values.get? 0 = some .int32 := by
    rw [Arena.get?, hvalues]
    rfl
  have hsize : m.graph.values.size = 3 := by
    rw [Arena.size, hvalues]
    rfl
  have hsymbol : ∀ {s : SymbolId} {t : Ty}, #[ty, .address, .int32][s]? = some t →
      ∃ y, m.graph.symbols.get? s = some y ∧ y.ty = t := by grind [Arena.get?]
  have hnodup : ([0, 2] : List SymbolId).Nodup := by decide
  have hanchors : ∀ t ∈ ([0, 2] : List SymbolId), t ∉ ([1] : List SymbolId) := by decide
  refine ⟨?_, hnodup, hanchors⟩
  simp only [numberAndRegister, leaves, leavesOfAll, append_nil, cons_append,
    nil_append, forall_mem_cons, not_mem_nil, false_implies, implies_true, and_true]
  obtain ⟨y, hy, -⟩ := hsymbol (s := 1) rfl
  refine ⟨⟨⟨?_, rfl, y, hy⟩, ⟨hsymbol rfl, ?_⟩, hty⟩, ⟨hsymbol rfl, ?_⟩, rfl⟩
  · rintro v (_ | ⟨_, ⟨⟩⟩)
    exact hvalue
  · rw [hsize]
    exact Nat.lt_of_sub_eq_succ rfl
  · rw [hsize]
    exact Nat.lt_of_sub_eq_succ rfl

/-- All that is asked for holds, for a narrow and for a wide pointer. -/
theorem numberAndRegister_ready (ty : Ty) (hty : ty = .int8 ∨ ty = .int64) :
    ∃ m, (Method.new "m" {}).after (numberAndRegisterCalls ty) = .ok m ∧ 0 < m.builders.size ∧
      (numberAndRegister ty).Typed m ∧ (numberAndRegister ty).Stored atNumberAndRegister ∧
      ∀ m1 s' m2, (commit 0 (numberAndRegister ty)).run m = .ok ((), m1) →
        (reload 0 (numberAndRegister ty)).run m1 = .ok (s', m2) →
        m2.graph.values.size ≤ atNumberAndRegister.values.size := by
  have hcheck : passes ((Method.new "m" {}).after (numberAndRegisterCalls ty)) (fun m => decide (
        0 < m.builders.size ∧ m.graph.values.items = #[.int32, .address, .address] ∧
        m.graph.symbols.items.map (·.ty) = #[ty, .address, .int32]) &&
      passes ((commit 0 (numberAndRegister ty)).run m) fun r =>
        passes ((reload 0 (numberAndRegister ty)).run r.2) fun r =>
          decide (r.2.graph.values.size ≤ atNumberAndRegister.values.size)) = true := by
    rcases hty with rfl | rfl <;> decide +kernel
  have hstored : (numberAndRegister ty).Stored atNumberAndRegister := by
    rcases hty with rfl | rfl
    all_goals
      refine
        { computed := ?_, within := by decide +kernel, holds := ?_, apart := by decide +kernel }
      all_goals
        simp only [numberAndRegister, leaves, leavesOfAll, append_nil, cons_append,
          nil_append, forall_mem_cons, not_mem_nil, false_implies, implies_true,
          and_true, LeafComputed, LeafHolds]
        decide +kernel
  obtain ⟨m, hafter, hcheck⟩ := of_passes hcheck
  obtain ⟨hshape, hcommit⟩ := Bool.and_eq_true_iff.1 hcheck
  obtain ⟨hbuilders, hvalues, hsymbols⟩ := of_decide_eq_true hshape
  obtain ⟨r, hr, hcheck⟩ := of_passes hcommit
  obtain ⟨r', hr', hroom⟩ := of_passes hcheck
  have hintegral : ty.isIntegral = true := by rcases hty with rfl | rfl <;> rfl
  refine ⟨m, hafter, hbuilders, numberAndRegister_typed hintegral hvalues hsymbols, hstored, ?_⟩
  intro m1 s' m2 hcommit hreload
  cases hr.symm.trans hcommit
  cases hr'.symm.trans hreload
  exact of_decide_eq_true hroom

/-- A case of it: the number is 7 again and the register 5, and the pointer is behind the number. -/
theorem commit_reload_number : ∃ m m₁ s' m₂ ops w σ',
    (Method.new "m" {}).after (numberAndRegisterCalls .int64) = .ok m ∧
    (commit 0 (numberAndRegister .int64)).run m = .ok ((), m₁) ∧
    (reload 0 (numberAndRegister .int64)).run m₁ = .ok (s', m₂) ∧
    m.Appended 0 ops m₂ ∧ Exec.Takes m₂.graph .empty ops atNumberAndRegister σ' ∧
    s'.slots = [w] ∧ σ'.Has w (.int 7) ∧ σ'.symbol 2 = .int 5 ∧ σ'.symbol 0 = .int 0x1004 := by
  obtain ⟨m, hafter, hbuilders, htyped, hstored, hroom⟩ :=
    numberAndRegister_ready .int64 (.inr rfl)
  obtain ⟨m₁, s', m₂, ops, hcommit, hreload, -, happ, hrun⟩ :=
    commit_reload ⟨_, _, _, hafter⟩ hbuilders htyped
  obtain ⟨σ', htakes, hslots, hsymbols, hpointers, -, -⟩ := hrun m₂.graph .empty
    atNumberAndRegister (fun _ _ h => h) (hroom m₁ s' m₂ hcommit hreload) hstored
  obtain ⟨w, ws, hw, hnil, hws⟩ := List.forall₂_cons_left_iff.1 hslots
  refine ⟨m, m₁, s', m₂, ops, w, σ', hafter, hcommit, hreload, happ, htakes, ?_, hw, ?_, ?_⟩
  · rw [hws, List.forall₂_nil_left_iff.1 hnil]
  · refine hsymbols 2 fun st hst => ?_
    rcases List.mem_cons.1 hst with heq | hst
    · cases heq
      decide
    · cases List.mem_singleton.1 hst
  · exact (hpointers _ List.mem_cons_self).1.trans (by decide +kernel)

/-- A pointer that cannot hold the address: one byte of it is left. -/
theorem commit_reload_narrow_pointer : ∃ m m₁ s' m₂ ops σ',
    (Method.new "m" {}).after (numberAndRegisterCalls .int8) = .ok m ∧
    (numberAndRegister .int8).Typed m ∧ (numberAndRegister .int8).Stored atNumberAndRegister ∧
    (commit 0 (numberAndRegister .int8)).run m = .ok ((), m₁) ∧
    (reload 0 (numberAndRegister .int8)).run m₁ = .ok (s', m₂) ∧
    m.Appended 0 ops m₂ ∧ Exec.Takes m₂.graph .empty ops atNumberAndRegister σ' ∧
    ∃ st, stack st ∈ (numberAndRegister .int8).leaves ∧
      st.pointerAddress atNumberAndRegister = 0x1004 ∧ σ'.symbol st.pointer.symbol = .int 4 := by
  obtain ⟨m, hafter, hbuilders, htyped, hstored, hroom⟩ :=
    numberAndRegister_ready .int8 (.inl rfl)
  have haccepts : m.Accepts 0 := ⟨Method.Reachable.sound ⟨_, _, _, hafter⟩, hbuilders⟩
  obtain ⟨m₁, s', m₂, hcommit, hreload, -, hdoes⟩ := commit_reload_does haccepts htyped
  obtain ⟨ops, happ, hrun⟩ := hdoes.code
  obtain ⟨σ', htakes, -, hmemory, -, hsymbols⟩ := hrun m₂.graph .empty atNumberAndRegister
    (fun _ _ h => h) (hroom m₁ s' m₂ hcommit hreload) hstored.toPlaced
  refine ⟨m, m₁, s', m₂, ops, σ', hafter, htyped, hstored, hcommit, hreload, happ, htakes, _,
    List.mem_cons_self, by decide +kernel, ?_⟩
  rw [hsymbols, hmemory]
  decide +kernel

end VmState
end MethodGraph
