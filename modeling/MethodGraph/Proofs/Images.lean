import MethodGraph.Proofs.Effects
/-!
  The images of registers, stacks and arrays in memory.

  Each of them has cells in memory, and which scalar belongs into a cell is read off the machine.
  Committing writes the cells one after another and sets the pointer of a stack.  Reloading reads
  them: every slot becomes a new value, and a mirrored symbol gets the scalar of its cell.
-/

namespace MethodGraph

open List Emit Arena Machine

variable {slots : List ValueId} {a : OperandArray} {s : OperandStack} {r : Register} {o : Symbol}
  {base : SymbolId} {element ty : Ty}

variable {m m' : Method} {b : BuilderId}

namespace Ty

/-- The types of single numbers and addresses. -/
def isScalar (ty : Ty) : Bool := ty.isInteger || ty.isFloating || ty == .address

theorem size_le_of_isScalar (h : ty.isScalar = true) : ty.size ≤ 8 := by
  cases ty <;> first | decide | cases h

theorem isScalar_of_isIntegral (h : ty.isIntegral = true) : ty.isScalar = true := by
  cases ty <;> first | rfl | cases h

end Ty

/-! ## Cells -/

/-- The cells of a row of elements, where each slot comes with its number. -/
def elementCells (σ : Machine) (element : Ty) (base : Int64) (index : Nat → Int)
    (slots : List (ValueId × Nat)) : List Cell :=
  slots.map fun p => ⟨elementAddress base element (index p.2), element, σ.scalar p.1⟩

namespace Register

/-- The cell of a register, for a scalar that is to be kept there. -/
def cellOf (r : Register) (σ : Machine) (a : Scalar) : Cell :=
  ⟨(σ.scalar r.address).toInt, r.ty, a⟩

/-- The symbol has the type of the register, and the address is a value. -/
def Typed (r : Register) (m : Method) : Prop :=
  (∃ y, m.graph.symbols.get? r.symbol = some y ∧ y.ty = r.ty) ∧ r.address < m.graph.values.size

end Register

namespace FieldRegister

def cell (r : FieldRegister) (σ : Machine) : Cell :=
  ⟨(σ.symbol r.object).toInt + Int64.ofNat r.field.offset, r.field.valueType, σ.symbol r.symbol⟩

end FieldRegister

namespace OperandStack

/-- Where the pointer is when the stack has been committed. -/
def pointerAddress (s : OperandStack) (σ : Machine) : Int64 :=
  elementAddress (σ.symbol s.base).toInt s.element (s.elementIndex (s.depth + s.offset))

def slotCells (s : OperandStack) (σ : Machine) : List Cell :=
  elementCells σ s.element (σ.symbol s.base).toInt (fun i => s.elementIndex i) s.slots.zipIdx

def pointerCell (s : OperandStack) (σ : Machine) : Cell :=
  s.pointer.cellOf σ (.int (s.pointerAddress σ))

end OperandStack

namespace OperandArray

def slotCells (a : OperandArray) (σ : Machine) : List Cell :=
  elementCells σ a.element (σ.symbol a.base).toInt (fun i => i) a.slots.zipIdx

end OperandArray

/-! ## Registers -/

variable (h : m.Accepts b)

include h in
/-- The symbol of a register is read and put into its cell. -/
theorem Register.commit_does (hr : r.Typed m) (hsize : r.ty.size ≤ 8) :
    ∃ m', (r.commit b).run m = .ok ((), m') ∧
      m.Does b m' (fun σ => σ.Computes r.address ∧
          (r.cellOf σ (σ.symbol r.symbol)).Within σ.memory) fun σ σ' =>
        σ'.memory = σ.memory.keep (r.cellOf σ (σ.symbol r.symbol)) ∧ σ'.locals = σ.locals := by
  obtain ⟨⟨y, hy, hty⟩, haddress⟩ := hr
  obtain ⟨v, m1, hrun1, hv, hdoes1⟩ := loadSymbol_does h hy
  obtain ⟨m2, hrun2, -, hdoes2⟩ := storeAt_does hdoes1.accepts (hty ▸ hsize) r.address hv
  refine ⟨m2, bind_eq_ok.2 ⟨v, m1, hrun1, hrun2⟩, ?_⟩
  rw [hty] at hdoes2
  refine .seq (hdoes1.pre _ fun _ => trivial) hdoes2 ?_ ?_
  · rintro σ σ1 ⟨hcomputes, hin⟩ hkept ⟨hv, hmemory, -⟩
    refine ⟨(hkept.computes haddress).2 hcomputes, hv.computes, ?_⟩
    rw [hkept.scalar haddress, scalar_of_has hv, hmemory]
    exact hin
  · rintro σ σ1 σ2 - hkept ⟨hv, hmemory, hlocals⟩ - rfl
    rw [hkept.scalar haddress, scalar_of_has hv, hmemory]
    exact ⟨rfl, hlocals⟩

include h in
/-- The symbol of a register gets what is in its cell. -/
theorem Register.reload_does (hsize : r.ty.size ≤ 8) :
    ∃ m', (r.reload b).run m = .ok ((), m') ∧
      m.Does b m' (fun σ => σ.Computes r.address ∧
          (σ.memory.position? (σ.scalar r.address).toInt r.ty.size).isSome = true) fun σ σ' =>
        σ'.memory = σ.memory ∧ ∀ t, σ'.symbol t =
          if r.symbol = t then σ.memory.peek (σ.scalar r.address).toInt r.ty else σ.symbol t := by
  obtain ⟨v, m1, hrun1, hv, hdoes1⟩ := loadAt_does h hsize r.address
  obtain ⟨m2, hrun2, hdoes2⟩ := storeSymbol_does_of hdoes1 r.symbol
  exact ⟨m2, bind_eq_ok.2 ⟨v, m1, hrun1, hrun2⟩, hdoes2⟩

include h in
/-- The address of a field is computed from the symbol of its object. -/
theorem FieldRegister.address_does (r : FieldRegister) (ho : m.graph.symbols.get? r.object = some o)
    :
    ∃ w m', (r.address b).run m = .ok (w, m') ∧ w < m'.graph.values.size ∧
      m.Does b m' (fun _ => True) fun σ σ' =>
        σ'.Has w (.int (r.cell σ).address) ∧ σ'.memory = σ.memory ∧ σ'.locals = σ.locals := by
  obtain ⟨v, m1, hrun1, -, hdoes1⟩ := loadSymbol_does h ho
  obtain ⟨w, m2, hrun2, hw, hdoes2⟩ := offsetAt_does hdoes1.accepts v r.field.offset
  refine ⟨w, m2, bind_eq_ok.2 ⟨v, m1, hrun1, hrun2⟩, get?_isSome.1 (by rw [hw]; rfl),
    hdoes1.seq hdoes2 ?_ ?_⟩
  · rintro σ σ1 - - ⟨hv, -, -⟩
    exact hv.computes
  · grind [Machine.Has, Machine.scalar, FieldRegister.cell]

include h in
theorem FieldRegister.commit_does {r : FieldRegister} {y : Symbol}
    (hy : m.graph.symbols.get? r.symbol = some y) (hty : y.ty = r.field.valueType)
    (ho : m.graph.symbols.get? r.object = some o) (hsize : r.field.valueType.size ≤ 8) :
    ∃ m', (r.commit b).run m = .ok ((), m') ∧
      m.Does b m' (fun σ => (r.cell σ).Within σ.memory) fun σ σ' =>
        σ'.memory = σ.memory.keep (r.cell σ) ∧ σ'.locals = σ.locals := by
  obtain ⟨v, m1, hrun1, hv, hdoes1⟩ := loadSymbol_does h hy
  obtain ⟨w, m2, hrun2, hw, hdoes2⟩ := address_does hdoes1.accepts r (hdoes1.symbols _ _ ho)
  obtain ⟨m3, hrun3, -, hdoes3⟩ := storeAt_does hdoes2.accepts (hty ▸ hsize) w
    (hdoes2.values hv)
  rw [hty] at hdoes3
  have hlt : v < m1.graph.values.size := Arena.get?_isSome.1 (by rw [hv]; rfl)
  refine ⟨m3, bind_eq_ok.2 ⟨v, m1, hrun1, bind_eq_ok.2 ⟨w, m2, hrun2, hrun3⟩⟩, ?_⟩
  have hboth : m.Does b m2 (fun σ => (r.cell σ).Within σ.memory) fun σ σ' =>
      σ'.Has v (σ.symbol r.symbol) ∧ σ'.Has w (.int (r.cell σ).address) ∧ σ'.memory = σ.memory ∧
        σ'.locals = σ.locals := by
    refine .seq (hdoes1.pre _ fun _ => trivial) hdoes2 (fun _ _ _ => trivial) ?_
    rintro σ σ1 σ2 - - ⟨hv, hmemory, hlocals⟩ hkept ⟨hw, hmemory', hlocals'⟩
    have haddress : (r.cell σ1).address = (r.cell σ).address := by
      unfold cell Machine.symbol
      rw [hlocals]
    exact ⟨hkept.has hlt hv, haddress ▸ hw, hmemory'.trans hmemory, hlocals'.trans hlocals⟩
  refine hboth.seq hdoes3 ?_ ?_
  · grind [FieldRegister.cell, Machine.Has, Machine.Computes, Scalar.toInt, Machine.scalar]
  · grind [FieldRegister.cell, Machine.Has, Scalar.toInt, Machine.scalar]

include h in
theorem FieldRegister.reload_does {r : FieldRegister} (ho : m.graph.symbols.get? r.object = some o)
    (hsize : r.field.valueType.size ≤ 8) :
    ∃ m', (r.reload b).run m = .ok ((), m') ∧
      m.Does b m' (fun σ => (r.cell σ).Within σ.memory) fun σ σ' =>
        σ'.memory = σ.memory ∧ ∀ t, σ'.symbol t = if r.symbol = t then
          σ.memory.peek (r.cell σ).address r.field.valueType else σ.symbol t := by
  obtain ⟨w, m1, hrun1, -, hdoes1⟩ := address_does h r ho
  obtain ⟨v, m2, hrun2, -, hdoes2⟩ := loadAt_does hdoes1.accepts hsize w
  have hboth : m.Does b m2 (fun σ => (r.cell σ).Within σ.memory) fun σ σ' =>
      σ'.Has v (σ.memory.peek (r.cell σ).address r.field.valueType) ∧ σ'.memory = σ.memory ∧
        σ'.locals = σ.locals := by
    refine .seq (hdoes1.pre _ fun _ => trivial) hdoes2 ?_ ?_
    · rintro σ σ1 hin - ⟨hw, hmemory, -⟩
      refine ⟨hw.computes, ?_⟩
      rw [scalar_of_has hw, hmemory]
      exact hin
    · grind [Machine.Has, Scalar.toInt, Machine.scalar]
  obtain ⟨m3, hrun3, hdoes3⟩ := storeSymbol_does_of hboth r.symbol
  exact ⟨m3, bind_eq_ok.2 ⟨w, m1, hrun1, bind_eq_ok.2 ⟨v, m2, hrun2, hrun3⟩⟩, hdoes3⟩

/-! ## Rows of elements -/

include h in
/-- Values are put into the cells of a row. -/
theorem Emit.storeElements_does (hsize : element.size ≤ 8) {base : ValueId}
    (hbase : base < m.graph.values.size) (index : Nat → Int) {slots : List (ValueId × Nat)}
    (hslots : ∀ p ∈ slots, m.graph.values.get? p.1 = some element) :
    ∃ m', (slots.forM fun p => storeElement b element base (index p.2) p.1).run m = .ok ((), m') ∧
      m.Does b m' (fun σ => σ.Computes base ∧ (∀ p ∈ slots, σ.Computes p.1) ∧
          ∀ c ∈ elementCells σ element (σ.scalar base).toInt index slots, c.Within σ.memory)
        fun σ σ' => σ'.memory = σ.memory.keepAll
            (elementCells σ element (σ.scalar base).toInt index slots) ∧
          σ'.locals = σ.locals := by
  induction slots generalizing m with
  | nil =>
    refine ⟨m, rfl, h, fun _ _ h => h, [], .refl m b, fun _ _ σ _ _ _ => ?_⟩
    exact ⟨σ, .nil, .refl _ σ, rfl, rfl⟩
  | cons p slots ih =>
    have hp := hslots p mem_cons_self
    have hlt : ∀ q ∈ p :: slots, q.1 < m.graph.values.size := fun q hq =>
      get?_isSome.1 (by rw [hslots q hq]; rfl)
    obtain ⟨m1, hrun1, hdoes1⟩ := storeElement_does h hsize hbase (index p.2) hp
    obtain ⟨m2, hrun2, hdoes2⟩ := ih hdoes1.accepts (hbase.trans_le hdoes1.size)
      fun q hq => hdoes1.values (hslots q (mem_cons_of_mem _ hq))
    refine ⟨m2, bind_eq_ok.2 ⟨(), m1, hrun1, hrun2⟩, ?_⟩
    -- the later cells are the same after the first has been written
    have hcells : ∀ {σ σ1 : Machine}, σ.Kept m.graph.values.size σ1 →
        elementCells σ1 element (σ1.scalar base).toInt index slots =
          elementCells σ element (σ.scalar base).toInt index slots := by
      intro σ σ1 hkept
      rw [hkept.scalar hbase]
      refine map_congr_left fun q hq => ?_
      rw [hkept.scalar (hlt q (mem_cons_of_mem _ hq))]
    refine .seq (hdoes1.pre _ fun hσ => ⟨hσ.1, hσ.2.1 p mem_cons_self,
      hσ.2.2 _ mem_cons_self⟩) hdoes2 ?_ ?_
    · rintro σ σ1 ⟨hcomputes, hall, hin⟩ hkept ⟨hmemory, -⟩
      refine ⟨(hkept.computes hbase).2 hcomputes, fun q hq => ?_, fun c hc => ?_⟩
      · have hq := mem_cons_of_mem p hq
        exact (hkept.computes (hlt q hq)).2 (hall q hq)
      · grind [Memory.within_congr, elementCells, σ.memory.size_keep]
    · grind [elementCells, Memory.keepAll]

include h in
/-- New values get what is in the cells of a row. -/
theorem Emit.loadElements_does (hsize : element.size ≤ 8) {base : ValueId}
    (hbase : base < m.graph.values.size) (index : Nat → Int) (is : List Nat) :
    ∃ ws m', (is.mapM fun i => loadElement b element base (index i)).run m = .ok (ws, m') ∧
      (∀ w ∈ ws, m'.graph.values.get? w = some element) ∧ ws.length = is.length ∧
      m.Does b m' (fun σ => σ.Computes base ∧ ∀ i ∈ is, (σ.memory.position?
          (elementAddress (σ.scalar base).toInt element (index i)) element.size).isSome = true)
        fun σ σ' => List.Forall₂ (fun w i => σ'.Has w (σ.memory.peek
            (elementAddress (σ.scalar base).toInt element (index i)) element)) ws is ∧
          σ'.memory = σ.memory ∧ σ'.locals = σ.locals := by
  induction is generalizing m with
  | nil =>
    refine ⟨[], m, rfl, fun _ h => absurd h not_mem_nil, rfl, h, fun _ _ h => h, [],
      .refl m b, fun _ _ σ _ _ _ => ?_⟩
    exact ⟨σ, .nil, .refl _ σ, .nil, rfl, rfl⟩
  | cons i is ih =>
    obtain ⟨w, m1, hrun1, hw, hdoes1⟩ := loadElement_does h hsize hbase (index i)
    obtain ⟨ws, m2, hrun2, hws, hlength, hdoes2⟩ := ih hdoes1.accepts
      (hbase.trans_le hdoes1.size)
    have hlt : w < m1.graph.values.size := get?_isSome.1 (by rw [hw]; rfl)
    refine ⟨w :: ws, m2, ?_, ?_, congrArg (· + 1) hlength, ?_⟩
    · rw [mapM_cons]
      exact bind_eq_ok.2 ⟨w, m1, hrun1, bind_eq_ok.2 ⟨ws, m2, hrun2, rfl⟩⟩
    · grind [hdoes2.values]
    refine .seq (hdoes1.pre _ fun hσ => ⟨hσ.1, hσ.2 i mem_cons_self⟩) hdoes2 ?_ ?_
    · rintro σ σ1 ⟨hcomputes, hin⟩ hkept ⟨-, hmemory, -⟩
      rw [hmemory, hkept.scalar hbase]
      exact ⟨(hkept.computes hbase).2 hcomputes, fun j hj => hin j (mem_cons_of_mem _ hj)⟩
    · rintro σ σ1 σ2 - hkept ⟨hw, hmemory, hlocals⟩ hkept' ⟨hws, hmemory', hlocals'⟩
      rw [hmemory, hkept.scalar hbase] at hws
      exact ⟨.cons (hkept'.has hlt hw) hws, hmemory'.trans hmemory, hlocals'.trans hlocals⟩

/-! ## Stacks and arrays -/

/-- The slots have the type of the elements, and the symbol of the base is there. -/
structure Emit.RowTyped (m : Method) (slots : List ValueId) (element : Ty) (base : SymbolId) :
    Prop where
  slots : ∀ v ∈ slots, m.graph.values.get? v = some element
  element : element.isScalar = true
  base : ∃ y, m.graph.symbols.get? base = some y

theorem Emit.RowTyped.lt (h : RowTyped m slots element base) {v : ValueId} (hv : v ∈ slots) :
    v < m.graph.values.size := Arena.get?_isSome.1 (by rw [h.slots v hv]; rfl)

include h in
/-- A row of slots is put into its cells. -/
theorem Emit.storeRow_does (ht : RowTyped m slots element base) (index : Nat → Int) :
    ∃ v m1 m', (loadSymbol b base).run m = .ok (v, m1) ∧ v < m'.graph.values.size ∧
      (slots.zipIdx.forM fun p => storeElement b element v (index p.2) p.1).run m1 = .ok ((), m') ∧
      m.Does b m' (fun σ => (∀ v ∈ slots, σ.Computes v) ∧ ∀ c ∈ elementCells σ element
          (σ.symbol base).toInt index slots.zipIdx, c.Within σ.memory)
        fun σ σ' => σ'.Has v (σ.symbol base) ∧ σ'.memory = σ.memory.keepAll
            (elementCells σ element (σ.symbol base).toInt index slots.zipIdx) ∧
          σ'.locals = σ.locals := by
  obtain ⟨y, hy⟩ := ht.base
  have hmem : ∀ p ∈ slots.zipIdx, p.1 ∈ slots := fun p hp => fst_mem_of_mem_zipIdx hp
  obtain ⟨v, m1, hrun1, hv, hdoes1⟩ := loadSymbol_does h hy
  have hlt : v < m1.graph.values.size := get?_isSome.1 (by rw [hv]; rfl)
  obtain ⟨m2, hrun2, hdoes2⟩ := storeElements_does hdoes1.accepts
    (Ty.size_le_of_isScalar ht.element) hlt index
    fun p hp => hdoes1.values (ht.slots p.1 (hmem p hp))
  refine ⟨v, m1, m2, hrun1, hlt.trans_le hdoes2.size, hrun2, ?_⟩
  have hcells : ∀ {σ σ1 : Machine}, σ.Kept m.graph.values.size σ1 → σ1.Has v (σ.symbol base) →
      elementCells σ1 element (σ1.scalar v).toInt index slots.zipIdx =
        elementCells σ element (σ.symbol base).toInt index slots.zipIdx := by
    intro σ σ1 hkept hv
    rw [scalar_of_has hv]
    refine map_congr_left fun p hp => ?_
    rw [hkept.scalar (ht.lt (hmem p hp))]
  refine .seq (hdoes1.pre _ fun _ => trivial) hdoes2 ?_ ?_
  · rintro σ σ1 ⟨hall, hin⟩ hkept ⟨hv, hmemory, -⟩
    refine ⟨hv.computes, fun p hp => ?_, fun c hc => ?_⟩
    · exact (hkept.computes (ht.lt (hmem p hp))).2 (hall p.1 (hmem p hp))
    · rw [hcells hkept hv] at hc
      rw [hmemory]
      exact hin c hc
  · rintro σ σ1 σ2 - hkept ⟨hv, hmemory, hlocals⟩ hkept' ⟨hmemory', hlocals'⟩
    rw [hcells hkept hv, hmemory] at hmemory'
    exact ⟨hkept'.has hlt hv, hmemory', hlocals'.trans hlocals⟩

include h in
/-- A row of slots is read from its cells. -/
theorem Emit.loadRow_does (ht : RowTyped m slots element base) (index : Nat → Int) :
    ∃ v m1 ws m', (loadSymbol b base).run m = .ok (v, m1) ∧
      ((List.range slots.length).mapM fun i => loadElement b element v (index i)).run m1 =
        .ok (ws, m') ∧
      (∀ w ∈ ws, m'.graph.values.get? w = some element) ∧ ws.length = slots.length ∧
      m.Does b m' (fun σ => ∀ c ∈ elementCells σ element (σ.symbol base).toInt index
          slots.zipIdx, c.Within σ.memory)
        fun σ σ' => List.Forall₂ (fun w c => σ'.Has w (σ.memory.peek c.address c.ty)) ws
            (elementCells σ element (σ.symbol base).toInt index slots.zipIdx) ∧
          σ'.memory = σ.memory ∧ σ'.locals = σ.locals := by
  obtain ⟨y, hy⟩ := ht.base
  obtain ⟨v, m1, hrun1, hv, hdoes1⟩ := loadSymbol_does h hy
  have hlt : v < m1.graph.values.size := get?_isSome.1 (by rw [hv]; rfl)
  obtain ⟨ws, m2, hrun2, hws, hlength, hdoes2⟩ := loadElements_does hdoes1.accepts
    (Ty.size_le_of_isScalar ht.element) hlt index (range slots.length)
  rw [length_range] at hlength
  refine ⟨v, m1, ws, m2, hrun1, hrun2, hws, hlength, ?_⟩
  -- the cells of the row, by the numbers of its slots
  have hrange : slots.zipIdx.map (·.2) = range slots.length := by
    rw [zipIdx_map_snd, range_eq_range']
  refine .seq (hdoes1.pre _ fun _ => trivial) hdoes2 ?_ ?_
  · rintro σ σ1 hin - ⟨hv, hmemory, -⟩
    refine ⟨hv.computes, fun i hi => ?_⟩
    rw [← hrange] at hi
    obtain ⟨p, hp, rfl⟩ := mem_map.1 hi
    have hc : (⟨elementAddress (σ.symbol base).toInt element (index p.2), element,
      σ.scalar p.1⟩ : Cell) ∈ elementCells σ element (σ.symbol base).toInt index slots.zipIdx :=
      mem_map.2 ⟨p, hp, rfl⟩
    rw [scalar_of_has hv, hmemory]
    exact Cell.within_mk.1 (hin _ hc)
  · grind [forall₂_map_right_iff, elementCells, Machine.Has, Machine.scalar]

/-- What is needed to emit the code of a stack. -/
structure OperandStack.Typed (s : OperandStack) (m : Method) : Prop where
  row : Emit.RowTyped m s.slots s.element s.base
  pointer : s.pointer.Typed m
  integral : s.pointer.ty.isIntegral = true

include h in
/-- The slots of a stack are put into their cells, and the pointer gets its address. -/
theorem OperandStack.commit_does (ht : s.Typed m) :
    ∃ m', (s.commit b).run m = .ok ((), m') ∧
      m.Does b m' (fun σ => (∀ v ∈ s.slots, σ.Computes v) ∧ σ.Computes s.pointer.address ∧
          ∀ c ∈ s.slotCells σ ++ [s.pointerCell σ], c.Within σ.memory)
        fun σ σ' => σ'.memory = σ.memory.keepAll (s.slotCells σ ++ [s.pointerCell σ]) ∧
          ∀ t, σ'.symbol t =
            if s.pointer.symbol = t then .int (s.pointerAddress σ) else σ.symbol t := by
  have hsize := Ty.size_le_of_isScalar (Ty.isScalar_of_isIntegral ht.integral)
  obtain ⟨v, m1, m2, hrun1, hv, hrun2, hdoes2⟩ := storeRow_does h ht.row
    fun i => s.elementIndex i
  obtain ⟨w, m3, hrun3, -, hdoes3⟩ := elementAt_does hdoes2.accepts s.element hv
    (s.elementIndex (s.depth + s.offset))
  let P : Machine → Prop := fun σ => (∀ v ∈ s.slots, σ.Computes v) ∧
    σ.Computes s.pointer.address ∧ ∀ c ∈ s.slotCells σ ++ [s.pointerCell σ], c.Within σ.memory
  -- the slots are written and the address of the pointer is computed
  have hslots : m.Does b m3 P fun σ σ' => σ'.Has w (.int (s.pointerAddress σ)) ∧
      σ'.memory = σ.memory.keepAll (s.slotCells σ) ∧ σ'.locals = σ.locals := by
    refine (hdoes2.pre P fun hσ =>
      ⟨hσ.1, fun c hc => hσ.2.2 c (mem_append_left _ hc)⟩).seq hdoes3 ?_ ?_
    · rintro σ σ1 - - ⟨hv, -, -⟩
      exact hv.computes
    · rintro σ σ1 σ2 - - ⟨hv, hmemory, hlocals⟩ - ⟨hw, hmemory', hlocals'⟩
      rw [scalar_of_has hv] at hw
      exact ⟨hw, hmemory'.trans hmemory, hlocals'.trans hlocals⟩
  -- the symbol of the pointer is set
  obtain ⟨m4, hrun4, hpointer⟩ := storeSymbol_does_of hslots s.pointer.symbol
  obtain ⟨⟨y, hy, hty⟩, haddress⟩ := ht.pointer
  have htyped : s.pointer.Typed m4 :=
    ⟨⟨y, hpointer.symbols _ _ hy, hty⟩, haddress.trans_le hpointer.size⟩
  obtain ⟨m5, hrun5, hdoes5⟩ := Register.commit_does hpointer.accepts htyped hsize
  refine ⟨m5, bind_eq_ok.2 ⟨v, m1, hrun1, bind_eq_ok.2 ⟨(), m2, hrun2,
    bind_eq_ok.2 ⟨w, m3, hrun3, bind_eq_ok.2 ⟨(), m4, hrun4, hrun5⟩⟩⟩⟩, ?_⟩
  -- the cell of the pointer gets what is now in its symbol
  have hcell : ∀ {σ σ1 : Machine}, σ.Kept m.graph.values.size σ1 →
      (∀ t, σ1.symbol t =
        if s.pointer.symbol = t then .int (s.pointerAddress σ) else σ.symbol t) →
      s.pointer.cellOf σ1 (σ1.symbol s.pointer.symbol) = s.pointerCell σ := by
    intro σ σ1 hkept hsymbols
    rw [hsymbols, if_pos rfl]
    unfold pointerCell Register.cellOf
    rw [hkept.scalar haddress]
  refine hpointer.seq hdoes5 ?_ ?_
  · rintro σ σ1 ⟨-, hcomputes, hin⟩ hkept ⟨hmemory, hsymbols⟩
    refine ⟨(hkept.computes haddress).2 hcomputes, ?_⟩
    rw [hcell hkept hsymbols, hmemory]
    refine (Memory.within_congr (σ.memory.size_keepAll _)).2 (hin _ ?_)
    exact mem_append_right _ (mem_singleton.2 rfl)
  · grind [Memory.keepAll, Machine.symbol]

include h in
/-- The pointer of a stack is read from its cell, and the slots become new values that are read from
    theirs. -/
theorem OperandStack.reload_does (ht : s.Typed m) (hne : s.base ≠ s.pointer.symbol) :
    ∃ ws m', (s.reload b).run m = .ok ({ s with slots := ws }, m') ∧
      (∀ w ∈ ws, m'.graph.values.get? w = some s.element) ∧ ws.length = s.slots.length ∧
      m.Does b m' (fun σ => σ.Computes s.pointer.address ∧
          ∀ c ∈ s.slotCells σ ++ [s.pointerCell σ], c.Within σ.memory)
        fun σ σ' => List.Forall₂ (fun w c => σ'.Has w (σ.memory.peek c.address c.ty)) ws
            (s.slotCells σ) ∧ σ'.memory = σ.memory ∧ ∀ t, σ'.symbol t =
          if s.pointer.symbol = t then
            σ.memory.peek (s.pointerCell σ).address (s.pointerCell σ).ty
          else σ.symbol t := by
  have hsize := Ty.size_le_of_isScalar (Ty.isScalar_of_isIntegral ht.integral)
  obtain ⟨m1, hrun1, hdoes1⟩ := Register.reload_does h hsize
  have hrow : Emit.RowTyped m1 s.slots s.element s.base := by
    obtain ⟨y, hy⟩ := ht.row.base
    exact ⟨fun v hv => hdoes1.values (ht.row.slots v hv), ht.row.element, y, hdoes1.symbols _ _ hy⟩
  obtain ⟨v, m2, ws, m3, hrun2, hrun3, hws, hlength, hdoes3⟩ :=
    loadRow_does hdoes1.accepts hrow fun i => s.elementIndex i
  refine ⟨ws, m3, bind_eq_ok.2 ⟨(), m1, hrun1, bind_eq_ok.2 ⟨v, m2, hrun2,
    bind_eq_ok.2 ⟨ws, m3, hrun3, rfl⟩⟩⟩, hws, hlength, ?_⟩
  -- the base is not the pointer, so it is where it was
  have hcells : ∀ {σ σ1 : Machine}, σ.Kept m.graph.values.size σ1 → (∀ t, σ1.symbol t =
        if s.pointer.symbol = t then σ.memory.peek (σ.scalar s.pointer.address).toInt s.pointer.ty
        else σ.symbol t) → s.slotCells σ1 = s.slotCells σ := by
    intro σ σ1 hkept hsymbols
    unfold slotCells elementCells
    rw [hsymbols, if_neg hne.symm]
    refine map_congr_left fun p hp => ?_
    rw [hkept.scalar (ht.row.lt (fst_mem_of_mem_zipIdx hp))]
  have hpointer : ∀ {σ : Machine}, (∀ c ∈ s.slotCells σ ++ [s.pointerCell σ],
      c.Within σ.memory) → (s.pointerCell σ).Within σ.memory := fun h =>
    h _ (mem_append_right _ (mem_singleton.2 rfl))
  refine .seq (hdoes1.pre _ fun hσ => ⟨hσ.1, Cell.within_mk.1 (hpointer hσ.2)⟩) hdoes3 ?_ ?_
  · grind [OperandStack.slotCells]
  · rintro σ σ1 σ2 - hkept ⟨hmemory, hsymbols⟩ - ⟨hws, hmemory', hlocals'⟩
    have hws : List.Forall₂ (fun w c => σ2.Has w (σ1.memory.peek c.address c.ty)) ws
      (s.slotCells σ1) := hws
    rw [hcells hkept hsymbols, hmemory] at hws
    exact ⟨hws, hmemory'.trans hmemory,
      fun t => (congrFun (symbol_congr hlocals') t).trans (hsymbols t)⟩

include h in
theorem OperandArray.commit_does (ht : Emit.RowTyped m a.slots a.element a.base) :
    ∃ m', (a.commit b).run m = .ok ((), m') ∧
      m.Does b m' (fun σ => (∀ v ∈ a.slots, σ.Computes v) ∧
          ∀ c ∈ a.slotCells σ, c.Within σ.memory)
        fun σ σ' => σ'.memory = σ.memory.keepAll (a.slotCells σ) ∧ σ'.locals = σ.locals := by
  obtain ⟨v, m1, m2, hrun1, -, hrun2, hdoes⟩ := storeRow_does h ht fun i => i
  refine ⟨m2, bind_eq_ok.2 ⟨v, m1, hrun1, hrun2⟩, hdoes.post fun hσ => hσ.2⟩

include h in
theorem OperandArray.reload_does (ht : Emit.RowTyped m a.slots a.element a.base) :
    ∃ ws m', (a.reload b).run m = .ok ({ a with slots := ws }, m') ∧
      (∀ w ∈ ws, m'.graph.values.get? w = some a.element) ∧ ws.length = a.slots.length ∧
      m.Does b m' (fun σ => ∀ c ∈ a.slotCells σ, c.Within σ.memory)
        fun σ σ' => List.Forall₂ (fun w c => σ'.Has w (σ.memory.peek c.address c.ty)) ws
            (a.slotCells σ) ∧ σ'.memory = σ.memory ∧ σ'.locals = σ.locals := by
  obtain ⟨v, m1, ws, m2, hrun1, hrun2, hws, hlength, hdoes⟩ := loadRow_does h ht fun i => i
  exact ⟨ws, m2, bind_eq_ok.2 ⟨ws, m2, bind_eq_ok.2 ⟨v, m1, hrun1, hrun2⟩, rfl⟩, hws,
    hlength, hdoes⟩

end MethodGraph
