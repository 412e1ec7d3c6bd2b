import MethodGraph.Proofs.Bytes
import MethodGraph.Proofs.Layout
import MethodGraph.Proofs.Straight
import MethodGraph.Vm.Operands
/-!
  Straight code that uses memory and symbols.

  A builder of a method that is not connected accepts operations (`Method.Accepts`), so emitting
  one never meets a fault.  `Method.Does` says what was emitted between two methods does to a
  machine: from every machine that satisfies a condition it gets to one that is in a relation to it,
  and on the way it changes none of the values that were there.  Pieces of code are put together by
  `Does.seq`, which asks that the first one brings about what the second one needs.

  The machine is looked at through the scalar of a value and the scalar of a symbol, which are there
  always, and memory through cells.
-/

namespace MethodGraph

open Arena Machine Exec

variable {operands : List ValueId} {n : Nat} {opcode : Opcode} {a : Scalar} {s : SymbolId}
  {element ty : Ty} {base v : ValueId}

variable {m m1 m2 m' : Method} {b : BuilderId}

/-! ## The scalars of a machine -/

namespace Machine

/-- The scalar of a value, or zero if it has none. -/
def scalar (σ : Machine) (v : ValueId) : Scalar := (σ.values[v]?).join.getD (.int 0)

/-- The scalar of a symbol; one that was never written counts as zero. -/
def symbol (σ : Machine) (s : SymbolId) : Scalar := (σ.locals.get? s).getD (.int 0)

/-- The value has been computed. -/
def Computes (σ : Machine) (v : ValueId) : Prop := ((σ.values[v]?).join).isSome = true

/-- The values below `n` have not changed, and there is room for as many as before. -/
structure Kept (n : Nat) (σ σ' : Machine) : Prop where
  room : σ'.values.size = σ.values.size
  values : ∀ v < n, σ'.values[v]? = σ.values[v]?

instance (σ : Machine) (v : ValueId) : Decidable (σ.Computes v) :=
  inferInstanceAs (Decidable (_ = _))

variable {σ σ1 σ' : Machine} {v : ValueId} {n : Nat}

theorem scalar_of_has (h : σ.Has v a) : σ.scalar v = a := by
  unfold scalar
  rw [show σ.values[v]? = some (some a) from h]
  rfl

theorem has_scalar (h : σ.Computes v) : σ.Has v (σ.scalar v) := by
  grind [Option.isSome_iff_exists, Has, scalar, Computes]

theorem Has.computes (h : σ.Has v a) : σ.Computes v := by
  unfold Computes
  rw [show σ.values[v]? = some (some a) from h]
  rfl

theorem symbol_assign (σ : Machine) (s t : SymbolId) (a : Scalar) :
    (σ.assign s a).symbol t = if s = t then a else σ.symbol t := by
  unfold symbol assign
  rw [Bindings.get?_insert]
  split <;> rfl

theorem symbol_congr {σ σ' : Machine} (h : σ'.locals = σ.locals) : σ'.symbol = σ.symbol := by
  funext t
  unfold symbol
  rw [h]

namespace Kept

theorem refl (n : Nat) (σ : Machine) : σ.Kept n σ := ⟨rfl, fun _ _ => rfl⟩

theorem trans {k : Nat} (h : Kept n σ σ1) (h' : Kept k σ1 σ') (hle : n ≤ k) : Kept n σ σ' :=
  ⟨h'.room.trans h.room, fun v hv =>
    (h'.values v (hv.trans_le hle)).trans (h.values v hv)⟩

theorem scalar (h : Kept n σ σ') (hv : v < n) : σ'.scalar v = σ.scalar v := by
  unfold Machine.scalar
  rw [h.values v hv]

theorem computes (h : Kept n σ σ') (hv : v < n) : σ'.Computes v ↔ σ.Computes v := by
  unfold Computes
  rw [h.values v hv]

theorem has (h : Kept n σ σ') (hv : v < n) (ha : σ.Has v a) : σ'.Has v a :=
  (h.values v hv).trans ha

theorem put (n : Nat) (σ : Machine) (a : Scalar) : Kept n σ (σ.put n a) :=
  ⟨σ.size_put n a, fun _ hv => getElem?_put_of_ne hv.ne a⟩

end Kept
end Machine

/-! ## Single operations -/

namespace Exec

variable {g : Graph} {hosts : Bindings String HostFn} {p : BlockId × Nat} {σ : Machine}
  {v w u : ValueId} {a c : Scalar} {ty : Ty}

theorem step_symbol (hty : g.values.get? v = some ty) :
    (step g hosts p ⟨.load s, [], some v, []⟩).run.run σ = .ok (.ok .next, σ.put v (σ.symbol s)) :=
  (bind_ok (lift_ok (resultType_eq rfl hty))).trans rfl

variable (hty : g.values.get? w = some ty) (hv : σ.Has v a)

include hty hv in
theorem step_loadAt (hsize : ty.size ≤ 8) (hin : (σ.memory.position? a.toInt ty.size).isSome = true)
    :
    (step g hosts p ⟨.loadAt, [v], some w, []⟩).run.run σ =
      .ok (.ok .next, σ.put w (σ.memory.peek a.toInt ty)) := by
  refine (bind_ok (lift_ok (resultType_eq rfl hty))).trans ?_
  refine (bind_ok (readOperand_run rfl hv)).trans ?_
  have hload : (loadAt a.toInt ty).run.run σ = .ok (.ok (σ.memory.peek a.toInt ty), σ) := by
    have hget : (get : Exec Machine).run.run σ = .ok (.ok σ, σ) := rfl
    refine (bind_ok hget).trans ?_
    rw [Memory.load_eq_peek hsize hin]
    rfl
  exact (bind_ok hload).trans rfl

include hty hv in
theorem step_storeAt (hw : σ.Has w c) (hsize : ty.size ≤ 8)
    (hin : Cell.Within ⟨a.toInt, ty, c⟩ σ.memory) :
    (step g hosts p ⟨.storeAt, [v, w], none, []⟩).run.run σ =
      .ok (.ok .next, { σ with memory := σ.memory.keep ⟨a.toInt, ty, c⟩ }) := by
  obtain ⟨q, haccess, hkeep⟩ := Memory.access_of_within hsize hin
  refine (bind_ok (lift_ok rfl)).trans ?_
  refine (bind_ok (readOperand_run rfl hv)).trans ?_
  refine (bind_ok (readOperand_run rfl hw)).trans ?_
  refine (bind_ok (lift_ok rfl)).trans ?_
  refine (bind_ok (lift_ok (fetch_eq_ok.2 hty))).trans ?_
  have hstore : (storeAt a.toInt ty c).run.run σ =
      .ok (.ok (), { σ with memory := σ.memory.keep ⟨a.toInt, ty, c⟩ }) := by
    have hget : (get : Exec Machine).run.run σ = .ok (.ok σ, σ) := rfl
    refine (bind_ok hget).trans ?_
    rw [haccess, hkeep]
    rfl
  exact (bind_ok hstore).trans rfl

theorem step_indexAt (hty : g.values.get? u = some ty) (hv : σ.Has v a)
    (hw : σ.Has w c) : (step g hosts p ⟨.indexAt n, [v, w], some u, []⟩).run.run σ =
      .ok (.ok .next, σ.put u (.int (a.toInt + c.toInt * Int64.ofNat n))) := by
  refine (bind_ok (lift_ok (resultType_eq rfl hty))).trans ?_
  refine (bind_ok (readOperand_run rfl hv)).trans ?_
  exact (bind_ok (readOperand_run rfl hw)).trans rfl

include hty hv in
theorem step_offsetAt :
    (step g hosts p ⟨.offsetAt n, [v], some w, []⟩).run.run σ =
      .ok (.ok .next, σ.put w (.int (a.toInt + Int64.ofNat n))) := by
  refine (bind_ok (lift_ok (resultType_eq rfl hty))).trans ?_
  exact (bind_ok (readOperand_run rfl hv)).trans rfl

end Exec

/-! ## Pieces of code -/

/-- The method is not connected and has the builder. -/
structure Method.Accepts (m : Method) (b : BuilderId) : Prop where
  sound : Draft.Sound ⟨m, [], []⟩
  there : b < m.builders.size

/-- What was emitted takes every machine that satisfies `P` to one that `Q` relates it to.  No value
    that was there before is changed. -/
structure Method.Does (m : Method) (b : BuilderId) (m' : Method) (P : Machine → Prop)
    (Q : Machine → Machine → Prop) : Prop where
  accepts : m'.Accepts b
  symbols : ∀ s y, m.graph.symbols.get? s = some y → m'.graph.symbols.get? s = some y
  code : ∃ ops, m.Appended b ops m' ∧ ∀ (g : Graph) (hosts : Bindings String HostFn) (σ : Machine),
    g.HasValues m' → m'.graph.values.size ≤ σ.values.size → P σ →
    ∃ σ', Exec.Takes g hosts ops σ σ' ∧ σ.Kept m.graph.values.size σ' ∧ Q σ σ'

variable (h : m.Accepts b)

namespace Method.Does

variable {P P' : Machine → Prop} {Q Q' R : Machine → Machine → Prop}

theorem values (h : m.Does b m' P Q)
    (hv : m.graph.values.get? v = some ty) : m'.graph.values.get? v = some ty := by
  obtain ⟨ops, happ, -⟩ := h.code
  exact happ.values v ty hv

theorem size (h : m.Does b m' P Q) : m.graph.values.size ≤ m'.graph.values.size := by
  obtain ⟨ops, happ, -⟩ := h.code
  exact happ.size

include h in
theorem nothing : m.Does b m (fun _ => True) fun σ σ' => σ' = σ :=
  ⟨h, fun _ _ h => h, [], .refl m b, fun _ _ σ _ _ _ => ⟨σ, .nil, .refl _ σ, rfl⟩⟩

/-- One piece of code behind another. -/
theorem seq (h : m.Does b m1 P Q) (h' : m1.Does b m2 P' Q')
    (hneeds : ∀ {σ σ1}, P σ → σ.Kept m.graph.values.size σ1 → Q σ σ1 → P' σ1)
    (hgives : ∀ {σ σ1 σ2}, P σ → σ.Kept m.graph.values.size σ1 → Q σ σ1 →
      σ1.Kept m1.graph.values.size σ2 → Q' σ1 σ2 → R σ σ2) : m.Does b m2 P R := by
  obtain ⟨ops, happ, hrun⟩ := h.code
  obtain ⟨ops', happ', hrun'⟩ := h'.code
  refine ⟨h'.accepts, fun s y hs => h'.symbols s y (h.symbols s y hs), ops ++ ops',
    happ.trans happ', fun g hosts σ hg hroom hP => ?_⟩
  obtain ⟨σ1, htakes, hkept, hQ⟩ := hrun g hosts σ (fun v ty hv => hg v ty (happ'.values v ty hv))
    (happ'.size.trans hroom) hP
  obtain ⟨σ2, htakes', hkept', hQ'⟩ := hrun' g hosts σ1 hg (hkept.room ▸ hroom)
    (hneeds hP hkept hQ)
  exact ⟨σ2, htakes.append htakes', hkept.trans hkept' happ.size, hgives hP hkept hQ hkept' hQ'⟩

/-- A piece of code of which more is asked for. -/
theorem pre (h : m.Does b m' P Q) (R : Machine → Prop) (hR : ∀ {σ}, R σ → P σ) :
    m.Does b m' R Q := by
  obtain ⟨ops, happ, hrun⟩ := h.code
  exact ⟨h.accepts, h.symbols, ops, happ, fun g hosts σ hg hroom hσ =>
    hrun g hosts σ hg hroom (hR hσ)⟩

/-- A piece of code of which less is promised. -/
theorem post (h : m.Does b m' P Q) (hR : ∀ {σ σ'}, Q σ σ' → R σ σ') : m.Does b m' P R := by
  obtain ⟨ops, happ, hrun⟩ := h.code
  refine ⟨h.accepts, h.symbols, ops, happ, fun g hosts σ hg hroom hσ => ?_⟩
  obtain ⟨σ', htakes, hkept, hQ⟩ := hrun g hosts σ hg hroom hσ
  exact ⟨σ', htakes, hkept, hR hQ⟩

end Method.Does

namespace Emit

include h in
/-- An operation can be emitted. -/
theorem emit_run (op : Operation) (hop : op.isTerminator = false)
    (hthrow : op.opcode.canThrow = false) (ht : op.targets = []) :
    ∃ m', (emit b op).run m = .ok ((), m') ∧ m'.Accepts b ∧
      (∀ s y, m.graph.symbols.get? s = some y → m'.graph.symbols.get? s = some y) := by
  obtain ⟨d, hd⟩ := Method.exists_builder? h.there
  obtain ⟨x, m1, hopen, hlt, -, -⟩ := openBlock_run hd (h.sound.idle.builders b d hd).1
    fun x hx => h.sound.idle.tails b d x hd hx
  have hrun : (emit b op).run m = .ok ((), m1.withBlock x (·.push op)) :=
    bind_eq_ok.2 ⟨x, m1, hopen, push_eq_ok.2 ⟨hlt, rfl⟩⟩
  have hbuilds : Builds .full ⟨m, [], []⟩ ⟨m1.withBlock x (·.push op), [], []⟩ :=
    emit_builds ⟨hop, hthrow, ht⟩ (.inl rfl) hrun
  obtain ⟨e, he, -⟩ := hbuilds.below.builders b d hd
  exact ⟨_, hrun, ⟨hbuilds.sound h.sound, Method.lt_of_builder? he⟩, hbuilds.below.symbols⟩

variable {P : Machine → Prop}

include h in
/-- An operation without a result that takes machines to machines. -/
theorem emit_does (hop : opcode.isTerminator = false) (hthrow : opcode.canThrow = false)
    {f : Machine → Machine}
    (hstep : ∀ (g : Graph) (hosts : Bindings String HostFn) p (σ : Machine), g.HasValues m →
      P σ → (Exec.step g hosts p ⟨opcode, operands, none, []⟩).run.run σ = .ok (.ok .next, f σ))
    (hvalues : ∀ σ, (f σ).values = σ.values) :
    ∃ m', (emit b { opcode, operands }).run m = .ok ((), m') ∧
      m'.graph.values = m.graph.values ∧ m.Does b m' P fun σ σ' => σ' = f σ := by
  obtain ⟨m', hrun, haccepts, hsymbols⟩ := emit_run h { opcode, operands } hop hthrow rfl
  obtain ⟨happ, hsame⟩ := emit_appended hrun
  refine ⟨m', hrun, hsame, haccepts, hsymbols, _, happ, fun g hosts σ hg _ hP => ?_⟩
  refine ⟨f σ, .single fun p => hstep g hosts p σ (fun v ty hv => hg v ty (hsame ▸ hv)) hP, ?_, rfl⟩
  refine ⟨?_, fun v _ => ?_⟩
  · rw [hvalues]
  · rw [hvalues]

include h in
/-- An operation that gives its result a scalar. -/
theorem emitValue_does (ty : Ty) (hop : opcode.isTerminator = false)
    (hthrow : opcode.canThrow = false) {f : Machine → Scalar}
    (hstep : ∀ (g : Graph) (hosts : Bindings String HostFn) p (σ : Machine), g.HasValues m →
      g.values.get? m.graph.values.size = some ty → P σ →
      (Exec.step g hosts p ⟨opcode, operands, some m.graph.values.size, []⟩).run.run σ =
        .ok (.ok .next, σ.put m.graph.values.size (f σ))) :
    ∃ w m', (emitValue b opcode operands ty).run m = .ok (w, m') ∧
      m'.graph.values.get? w = some ty ∧ m.Does b m' P fun σ σ' =>
        σ'.Has w (f σ) ∧ σ'.memory = σ.memory ∧ σ'.locals = σ.locals := by
  have hnew := lawful_newValue (l := .full) ty m _ _ [] [] rfl
  obtain ⟨m', hemit, haccepts', hsymbols⟩ := emit_run ⟨hnew.sound h.sound, h.there⟩
    { opcode, operands, result := some m.graph.values.size } hop hthrow rfl
  have hrun : (emitValue b opcode operands ty).run m = .ok (m.graph.values.size, m') :=
    bind_eq_ok.2 ⟨_, _, rfl, bind_eq_ok.2 ⟨(), m', hemit, rfl⟩⟩
  obtain ⟨-, hvalues, happ⟩ := emitValue_appended hrun
  have hw : m'.graph.values.get? m.graph.values.size = some ty := by
    rw [hvalues, get?_alloc, if_pos rfl]
  refine ⟨_, m', hrun, hw, haccepts', hsymbols, _, happ, fun g hosts σ hg hroom hP => ?_⟩
  have hlt : m.graph.values.size < σ.values.size :=
    (get?_isSome.1 (by rw [hw]; rfl)).trans_le hroom
  exact ⟨_, .single fun p => hstep g hosts p σ (fun v ty hv => hg v ty (happ.values v ty hv))
    (hg _ ty hw) hP, .put _ σ _, has_put hlt _, rfl, rfl⟩

/-! ## Symbols, addresses and memory -/

include h in
theorem loadSymbol_does {y : Symbol} (hs : m.graph.symbols.get? s = some y) :
    ∃ w m', (loadSymbol b s).run m = .ok (w, m') ∧ m'.graph.values.get? w = some y.ty ∧
      m.Does b m' (fun _ => True) fun σ σ' =>
        σ'.Has w (σ.symbol s) ∧ σ'.memory = σ.memory ∧ σ'.locals = σ.locals := by
  have hsymbol : (symbol s).run m = .ok (y, m) := by
    refine bind_eq_ok.2 ⟨m, m, rfl, ?_⟩
    rw [fetch_eq_ok.2 hs]
    rfl
  obtain ⟨w, m', hrun, hw, hdoes⟩ : ∃ w m', (emitValue b (.load s) [] y.ty).run m = .ok (w, m') ∧
      m'.graph.values.get? w = some y.ty ∧ m.Does b m' (fun _ => True) fun σ σ' =>
        σ'.Has w (σ.symbol s) ∧ σ'.memory = σ.memory ∧ σ'.locals = σ.locals :=
    emitValue_does h y.ty rfl rfl fun _ _ _ _ _ hty _ => step_symbol hty
  exact ⟨w, m', bind_eq_ok.2 ⟨y, m, hsymbol, hrun⟩, hw, hdoes⟩

include h in
theorem storeSymbol_does (s : SymbolId) (v : ValueId) :
    ∃ m', (storeSymbol b s v).run m = .ok ((), m') ∧ m'.graph.values = m.graph.values ∧
      m.Does b m' (·.Computes v) fun σ σ' => σ' = σ.assign s (σ.scalar v) :=
  emit_does h rfl rfl (fun _ _ _ _ _ hv => step_store (has_scalar hv)) fun _ => rfl

/-- What code computes is put into a symbol. -/
theorem storeSymbol_does_of {mem : Machine → Memory} {val : Machine → Scalar}
    (h : m.Does b m1 P fun σ σ' => σ'.Has v (val σ) ∧ σ'.memory = mem σ ∧ σ'.locals = σ.locals)
    (s : SymbolId) : ∃ m2, (storeSymbol b s v).run m1 = .ok ((), m2) ∧ m.Does b m2 P fun σ σ' =>
      σ'.memory = mem σ ∧ ∀ t, σ'.symbol t = if s = t then val σ else σ.symbol t := by
  obtain ⟨m2, hrun, -, hdoes⟩ := storeSymbol_does h.accepts s v
  refine ⟨m2, hrun, h.seq hdoes ?_ ?_⟩
  · rintro σ σ1 - - ⟨hv, -, -⟩
    exact hv.computes
  · grind [symbol_assign, Machine.Has, Machine.assign, Machine.scalar, Machine.symbol]

include h in
theorem constInt_does (n : Int64) :
    ∃ w m', (constInt b .int64 n).run m = .ok (w, m') ∧ m'.graph.values.get? w = some .int64 ∧
      m.Does b m' (fun _ => True) fun σ σ' =>
        σ'.Has w (.int n) ∧ σ'.memory = σ.memory ∧ σ'.locals = σ.locals :=
  emitValue_does h .int64 rfl rfl fun _ _ _ _ _ hty _ => step_constInt hty

include h in
theorem loadAt_does (hsize : ty.size ≤ 8) (address : ValueId) :
    ∃ w m', (loadAt b ty address).run m = .ok (w, m') ∧ m'.graph.values.get? w = some ty ∧
      m.Does b m' (fun σ => σ.Computes address ∧
          (σ.memory.position? (σ.scalar address).toInt ty.size).isSome = true) fun σ σ' =>
        σ'.Has w (σ.memory.peek (σ.scalar address).toInt ty) ∧ σ'.memory = σ.memory ∧
          σ'.locals = σ.locals :=
  emitValue_does h ty rfl rfl fun _ _ _ _ _ hty hσ =>
    step_loadAt hty (has_scalar hσ.1) hsize hσ.2

include h in
theorem storeAt_does (hsize : ty.size ≤ 8) (address : ValueId)
    (hv : m.graph.values.get? v = some ty) :
    ∃ m', (storeAt b address v).run m = .ok ((), m') ∧ m'.graph.values = m.graph.values ∧
      m.Does b m' (fun σ => σ.Computes address ∧ σ.Computes v ∧
          Cell.Within ⟨(σ.scalar address).toInt, ty, σ.scalar v⟩ σ.memory) fun σ σ' =>
        σ' = { σ with memory := σ.memory.keep ⟨(σ.scalar address).toInt, ty, σ.scalar v⟩ } :=
  emit_does h rfl rfl (fun _ _ _ _ hg hσ => step_storeAt (hg v ty hv)
    (has_scalar hσ.1) (has_scalar hσ.2.1) hsize hσ.2.2) fun _ => rfl

include h in
theorem indexAt_does (element : Ty) (base index : ValueId) :
    ∃ w m', (indexAt b element base index).run m = .ok (w, m') ∧
      m'.graph.values.get? w = some .address ∧
      m.Does b m' (fun σ => σ.Computes base ∧ σ.Computes index) fun σ σ' =>
        σ'.Has w (.int ((σ.scalar base).toInt +
          (σ.scalar index).toInt * Int64.ofNat element.size)) ∧
          σ'.memory = σ.memory ∧ σ'.locals = σ.locals :=
  emitValue_does h .address rfl rfl fun _ _ _ _ _ hty hσ =>
    step_indexAt hty (has_scalar hσ.1) (has_scalar hσ.2)

include h in
theorem offsetAt_does (base : ValueId) (n : Nat) :
    ∃ w m', (offsetAt b base n).run m = .ok (w, m') ∧ m'.graph.values.get? w = some .address ∧
      m.Does b m' (·.Computes base) fun σ σ' =>
        σ'.Has w (.int ((σ.scalar base).toInt + Int64.ofNat n)) ∧ σ'.memory = σ.memory ∧
          σ'.locals = σ.locals :=
  emitValue_does h .address rfl rfl fun _ _ _ _ _ hty hσ =>
    step_offsetAt hty (has_scalar hσ)

end Emit

/-! ## Elements -/

/-- The address of an element. -/
def elementAddress (base : Int64) (element : Ty) (index : Int) : Int64 :=
  base + Int64.ofInt index * Int64.ofNat element.size

namespace Emit

include h in
theorem elementAt_does (element : Ty) (hbase : base < m.graph.values.size) (index : Int) :
    ∃ w m', (elementAt b element base index).run m = .ok (w, m') ∧
      m'.graph.values.get? w = some .address ∧
      m.Does b m' (·.Computes base) fun σ σ' =>
        σ'.Has w (.int (elementAddress (σ.scalar base).toInt element index)) ∧
          σ'.memory = σ.memory ∧ σ'.locals = σ.locals := by
  obtain ⟨i, m1, hrun1, -, hdoes1⟩ := constInt_does h (Int64.ofInt index)
  obtain ⟨w, m2, hrun2, hw, hdoes2⟩ := indexAt_does hdoes1.accepts element base i
  refine ⟨w, m2, bind_eq_ok.2 ⟨i, m1, hrun1, hrun2⟩, hw, ?_⟩
  refine (hdoes1.pre (·.Computes base) fun _ => trivial).seq hdoes2 ?_ ?_
  · rintro σ σ1 hσ hkept ⟨hi, -, -⟩
    exact ⟨(hkept.computes hbase).2 hσ, hi.computes⟩
  · rintro σ σ1 σ2 - hkept ⟨hi, hmemory, hlocals⟩ - ⟨hw, hmemory', hlocals'⟩
    rw [hkept.scalar hbase, scalar_of_has hi] at hw
    exact ⟨hw, hmemory'.trans hmemory, hlocals'.trans hlocals⟩

include h in
theorem loadElement_does (hsize : element.size ≤ 8) (hbase : base < m.graph.values.size)
    (index : Int) :
    ∃ w m', (loadElement b element base index).run m = .ok (w, m') ∧
      m'.graph.values.get? w = some element ∧
      m.Does b m' (fun σ => σ.Computes base ∧ (σ.memory.position?
          (elementAddress (σ.scalar base).toInt element index) element.size).isSome = true)
        fun σ σ' => σ'.Has w
            (σ.memory.peek (elementAddress (σ.scalar base).toInt element index) element) ∧
          σ'.memory = σ.memory ∧ σ'.locals = σ.locals := by
  obtain ⟨a, m1, hrun1, -, hdoes1⟩ := elementAt_does h element hbase index
  obtain ⟨w, m2, hrun2, hw, hdoes2⟩ := loadAt_does hdoes1.accepts hsize a
  refine ⟨w, m2, bind_eq_ok.2 ⟨a, m1, hrun1, hrun2⟩, hw, ?_⟩
  refine .seq (hdoes1.pre _ fun h => h.1) hdoes2 ?_ ?_
  · grind [Machine.Computes, Scalar.toInt, Machine.scalar, Machine.Has]
  · grind [Scalar.toInt, Machine.scalar, Machine.Has]

include h in
theorem storeElement_does (hsize : element.size ≤ 8) (hbase : base < m.graph.values.size)
    (index : Int) (hv : m.graph.values.get? v = some element) :
    ∃ m', (storeElement b element base index v).run m = .ok ((), m') ∧
      m.Does b m' (fun σ => σ.Computes base ∧ σ.Computes v ∧ Cell.Within
          ⟨elementAddress (σ.scalar base).toInt element index, element, σ.scalar v⟩ σ.memory)
        fun σ σ' => σ'.memory = σ.memory.keep
            ⟨elementAddress (σ.scalar base).toInt element index, element, σ.scalar v⟩ ∧
          σ'.locals = σ.locals := by
  obtain ⟨a, m1, hrun1, -, hdoes1⟩ := elementAt_does h element hbase index
  obtain ⟨m2, hrun2, -, hdoes2⟩ := storeAt_does hdoes1.accepts hsize a (hdoes1.values hv)
  have hlt : v < m.graph.values.size := get?_isSome.1 (by rw [hv]; rfl)
  refine ⟨m2, bind_eq_ok.2 ⟨a, m1, hrun1, hrun2⟩, ?_⟩
  refine .seq (hdoes1.pre _ fun h => h.1) hdoes2 ?_ ?_
  · rintro σ σ1 ⟨-, hcomputes, hin⟩ hkept ⟨ha, hmemory, -⟩
    refine ⟨ha.computes, (hkept.computes hlt).2 hcomputes, ?_⟩
    rw [scalar_of_has ha, hkept.scalar hlt, hmemory]
    exact hin
  · rintro σ σ1 σ2 - hkept ⟨ha, hmemory, hlocals⟩ - rfl
    rw [scalar_of_has ha, hkept.scalar hlt, hmemory]
    exact ⟨rfl, hlocals⟩

end Emit
end MethodGraph
