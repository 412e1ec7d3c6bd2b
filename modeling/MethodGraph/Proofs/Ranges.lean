import MethodGraph.Proofs.Frames
import MethodGraph.Proofs.Layout
import MethodGraph.Proofs.Suited
/-!
  Values in the range of their types.

  A value of a narrow integer type should hold an integer in the range of the type.  Operations see
  to it by wrapping what they compute, by loading from memory at the type, or by passing on scalars
  between values and symbols of one type.  Two of them do not: a store puts the scalar of any value
  into its symbol, whatever their types are, and a call gives its value whatever the function
  returns.

  Main statement: in a run of a method, everything is in range at every step exactly if no store and
  no call puts a scalar where it does not fit (`Method.values_in_range_iff`), and this is so if
  symbols are given values of their own type only and functions return what they are declared to.
-/

namespace MethodGraph

open List Option Arena Operation Bindings Array Except

variable {g : Graph} {args : List Scalar} {op : Operation} {a : Scalar} {name : String}
  {s : SymbolId} {ty : Ty} {v : ValueId}

/-! ## Scalars in the range of a type -/

namespace Ty

/-- Integers narrower than a scalar. -/
def isNarrow : Ty → Bool
  | int8 | int16 | int32 => true
  | _ => false

/-- If the type is narrow, the scalar is an integer in its range. -/
def Bounds (ty : Ty) (a : Scalar) : Prop :=
  ty.isNarrow = true → ∃ v : Int64, a = .int v ∧ ty.minInt ≤ v.toInt ∧ v.toInt ≤ ty.maxInt

variable {ty : Ty} {a b : Scalar}

theorem bounds_of_wide (h : ty.isNarrow = false) : ty.Bounds a := by
  intro hn
  rw [h] at hn
  cases hn

/-- What is wrapped to a type is in its range. -/
theorem bounds_wrapInt (ty : Ty) (v : Int64) : ty.Bounds (.int (ty.wrapInt v)) := by
  intro hn
  refine ⟨_, rfl, ?_⟩
  cases ty with
  | int8 =>
    grind [Int8.toInt_toInt64, minInt, wrapInt, maxInt, v.toInt8.le_toInt, v.toInt8.toInt_lt]
  | int16 =>
    grind [Int16.toInt_toInt64, minInt, wrapInt, maxInt, v.toInt16.le_toInt, v.toInt16.toInt_lt]
  | int32 =>
    grind [Int32.toInt_toInt64, minInt, wrapInt, maxInt, v.toInt32.le_toInt, v.toInt32.toInt_lt]
  | _ => cases hn

/-- Small numbers are in the range of every type. -/
theorem bounds_small {v : Int64} (hlow : 0 ≤ v.toInt) (hhigh : v.toInt ≤ 127) :
    ty.Bounds (.int v) := by
  intro hn
  refine ⟨v, rfl, ?_⟩
  cases ty with
  | int8 | int16 | int32 => simp only [minInt, maxInt]; omega
  | _ => cases hn

theorem bounds_zero (ty : Ty) : ty.Bounds (.zero ty) := by
  cases ty with
  | int8 | int16 | int32 => exact bounds_small (by decide) (by decide)
  | _ => exact bounds_of_wide rfl

end Ty

theorem Arith.bounds_apply {op : Arith} {b c : Scalar}
    (h : op.apply ty a b = .ok (some c)) : ty.Bounds c := by
  unfold apply at h
  split at h
  · next hfloat =>
    refine Ty.bounds_of_wide ?_
    cases ty with
    | float | double => rfl
    | _ => cases hfloat
  · obtain ⟨r, -, h⟩ := ok_of_bind h
    obtain ⟨v, -, rfl⟩ := map_eq_some_iff.1 (ok.inj h)
    exact ty.bounds_wrapInt v

theorem Arith.bounds_negate (h : ty.Bounds a) : ty.Bounds (negate ty a) := by
  intro hn
  obtain ⟨v, rfl, -⟩ := h hn
  exact ty.bounds_wrapInt (-v) hn

theorem Arith.bounds_checked {op : Arith} {a b v : Int64}
    (h : op.checked? ty a b = some v) : ty.Bounds (.int v) := by
  unfold checked? at h
  dsimp only at h
  split at h
  · cases h
  · next hin =>
    cases h
    intro hn
    refine ⟨_, rfl, ?_⟩
    have hwide : (-9223372036854775808 : Int) ≤ ty.minInt ∧ ty.maxInt < 9223372036854775808 := by
      cases ty <;> decide
    rw [Int64.toInt_ofInt_of_le (by omega) (by omega)]
    omega

theorem Scalar.bounds_convert (a : Scalar) (source ty : Ty) (unsigned : Bool) :
    ty.Bounds (a.convert source ty unsigned) := by
  unfold convert
  split
  · next hfloat =>
    refine Ty.bounds_of_wide ?_
    cases ty with
    | float | double => rfl
    | _ => cases hfloat
  · exact ty.bounds_wrapInt _

theorem Memory.bounds_read (m : Memory) (p : Nat) (ty : Ty) : ty.Bounds (m.read p ty) := by
  unfold read decode
  cases ty with
  | float | double => exact Ty.bounds_of_wide rfl
  | _ => exact Ty.bounds_wrapInt _ _

/-! ## Machines in range -/

/-- There is room for the values of the graph, and every value and every symbol of a narrow type
    holds an integer in its range. -/
structure Machine.InRange (g : Graph) (σ : Machine) : Prop where
  room : σ.values.size = g.values.size
  values : ∀ v ty a, g.values.get? v = some ty → σ.values[v]? = some (some a) → ty.Bounds a
  locals : ∀ s y a, g.symbols.get? s = some y → σ.locals.get? s = some a → y.ty.Bounds a

namespace Machine.InRange

variable {g : Graph} {σ σ' : Machine}

theorem congr (h : σ.InRange g) (hvalues : σ'.values = σ.values) (hlocals : σ'.locals = σ.locals) :
    σ'.InRange g := by
  constructor
  · rw [hvalues, h.room]
  · rw [hvalues]
    exact h.values
  · rw [hlocals]
    exact h.locals

/-- A value is given a scalar that fits its type. -/
theorem write (h : σ.InRange g) (ha : ∀ ty, g.values.get? v = some ty → ty.Bounds a) :
    { σ with values := σ.values.setIfInBounds v (some a) }.InRange g where
  room := size_setIfInBounds.trans h.room
  values w ty b hw hb := by grind [h.values]
  locals := h.locals

/-- A symbol is given a scalar that fits its type. -/
theorem writeLocal (h : σ.InRange g) (ha : ∀ y, g.symbols.get? s = some y → y.ty.Bounds a) :
    { σ with locals := σ.locals.insert s a }.InRange g where
  room := h.room
  values := h.values
  locals t y b ht hb := by grind [get?_insert, h.locals]

end Machine.InRange

/-! ## What operations give -/

namespace Exec

variable {α β : Type} {g : Graph} {hosts : Bindings String HostFn} {σ σ' : Machine}

/-- From a machine in range, a computation that succeeds leads to one in range, with such a
    result. -/
abbrev Gives (g : Graph) (x : Exec α) (P : α → Prop) : Prop :=
  Upholds (Machine.InRange g) (fun _ => True) x P

variable {x : Exec α} {f : α → Exec β} {P : α → Prop} {Q : β → Prop}

theorem of_bind_eq_ok {b : β} (h : (x >>= f).run.run σ = .ok (.ok b, σ')) :
    ∃ a σ1, x.run.run σ = .ok (.ok a, σ1) ∧ (f a).run.run σ1 = .ok (.ok b, σ') := by
  rcases of_bind_ok h with hok | ⟨e, σ1, -, hr⟩
  · exact hok
  · cases hr

theorem gives_read (v : ValueId) :
    Gives g (read v) fun a => ∀ ty, g.values.get? v = some ty → ty.Bounds a := by
  refine upholds_get.bind fun σ hσ => ?_
  split
  · grind [upholds_pure, hσ.values]
  · exact upholds_throw trivial

variable (ha : ∀ ty, g.values.get? v = some ty → ty.Bounds a)

include ha in
theorem gives_write : Gives g (write v a) fun _ => True :=
  upholds_modify fun _ hσ => hσ.write ha

include ha in
theorem gives_overwrite : Gives g (overwrite v a) fun _ => True := by
  refine upholds_get.bind fun σ _ => ?_
  split
  · exact gives_write ha
  · exact fun _ _ _ _ hrun => nomatch hrun

theorem gives_readLocal (s : SymbolId) :
    Gives g (readLocal s) fun a => ∀ y, g.symbols.get? s = some y → y.ty.Bounds a := by
  refine upholds_get.bind fun σ hσ => upholds_pure fun y hy => ?_
  cases ha : σ.locals.get? s with
  | none => exact Ty.bounds_small (by decide) (by decide)
  | some a => exact hσ.locals s y a hy ha

theorem gives_loadAt (address : Int64) (ty : Ty) : Gives g (loadAt address ty) ty.Bounds := by
  refine upholds_get.bind fun σ _ => upholds_lift_bind fun r hr => ?_
  cases r with
  | error e => exact upholds_throw trivial
  | ok a =>
    refine upholds_pure ?_
    unfold Memory.load at hr
    obtain ⟨r, haccess, hr⟩ := ok_of_bind hr
    cases r with
    | error e => cases hr
    | ok p =>
      cases hr
      exact σ.memory.bounds_read p ty

theorem gives_storeAt (address : Int64) (ty : Ty) (a : Scalar) :
    Gives g (storeAt address ty a) fun _ => True := by
  refine upholds_get.bind fun σ _ => ?_
  refine Upholds.bind (Q := fun _ => True) ?_ fun p _ => upholds_modify fun σ hσ => hσ.congr rfl rfl
  refine upholds_lift_bind fun r _ => ?_
  cases r with
  | error e => exact upholds_throw trivial
  | ok p => exact upholds_pure trivial

theorem gives_storageOf (place : BlockId × Nat) (size : Nat) :
    Gives g (storageOf place size) fun _ => True := by
  refine upholds_get.bind fun σ _ => ?_
  split
  · exact upholds_pure trivial
  · exact upholds_modifyGet fun σ hσ => hσ.congr rfl rfl

/-- An operand that is read fits its type. -/
theorem gives_readOperand (op : Operation) (i : Nat) :
    Gives g (readOperand op i) fun a => ∀ v ty, op.operands[i]? = some v →
      g.values.get? v = some ty → ty.Bounds a := by
  grind [upholds_lift_bind, operand, gives_read, readOperand]

/-- A result is given to a value whose type it fits. -/
theorem gives_finish (hty : op.resultType g = .ok ty)
    (ha : (∃ v, op.result = some v ∧ g.values.get? v = some ty) → ty.Bounds a) :
    Gives g (finish op a) fun _ => True := by
  unfold finish
  unfold resultType at hty
  split
  · next v hv =>
    rw [hv] at hty
    have hv' : g.values.get? v = some ty := fetch_eq_ok.1 hty
    refine (gives_write fun t ht => ?_).bind fun _ _ => upholds_pure trivial
    rw [some.inj (ht.symm.trans hv')]
    exact ha ⟨v, hv, hv'⟩
  · exact upholds_pure trivial

/-- Arithmetic gives what fits the type that it is done at, if its first operand is of that type or
    the type is not narrow. -/
theorem gives_arith {o : Arith}
    (hop : ty.isNarrow = true → ∃ w, op.operands[0]? = some w ∧ g.values.get? w = some ty) :
    Gives g (arith o op ty) ty.Bounds := by
  refine (gives_readOperand op 0).bind fun a ha => ?_
  split
  · grind [upholds_pure, Arith.bounds_negate, Ty.Bounds]
  · refine (gives_readOperand op 1).bind fun b _ => upholds_lift_bind fun r hr => ?_
    cases r with
    | none => exact upholds_throw trivial
    | some c => exact upholds_pure (Arith.bounds_apply hr)

theorem gives_atomicAdd (op : Operation) :
    Gives g (atomicAdd g op) fun a => ∀ w ty, op.operands[1]? = some w →
      g.values.get? w = some ty → ty.Bounds a := by
  refine (gives_readOperand op 0).bind fun a _ => (gives_readOperand op 1).bind fun b _ =>
    upholds_lift_bind fun v hv => upholds_lift_bind fun t ht => ?_
  refine (gives_loadAt _ t).bind fun old hold => (gives_storeAt _ _ _).bind fun _ _ =>
    upholds_pure fun w ty hw hty => ?_
  have hvw : w = v := by
    unfold operand at hv
    rw [hw] at hv
    exact ok.inj hv
  rw [hvw] at hty
  rwa [some.inj (hty.symm.trans (fetch_eq_ok.1 ht))]

/-! ## One operation -/

end Exec

/-- The scalar of a value, if it has one. -/
def Machine.value? (σ : Machine) (v : ValueId) : Option Scalar := (σ.values[v]?).join

/-- A store puts a scalar into a symbol whose type it does not fit, or a call gives its value a
    scalar that does not fit the value's type. -/
inductive Operation.Strays (g : Graph) (hosts : Bindings String HostFn) (σ : Machine)
    (op : Operation) : Prop where
  | store {s : SymbolId} {y : Symbol} {w : ValueId} {a : Scalar} (ho : op.opcode = .store s)
    (hw : op.operands[0]? = some w) (ha : σ.value? w = some a)
    (hy : g.symbols.get? s = some y) (hout : ¬ y.ty.Bounds a)
  | call {name : String} {v : ValueId} {ty : Ty} {f : HostFn} {args : List Scalar}
    (ho : op.opcode = .call name) (hv : op.result = some v) (hty : g.values.get? v = some ty)
    (hf : hosts.get? name = some f) (hargs : op.operands.mapM σ.value? = some args)
    (hout : ¬ ty.Bounds (f σ.memory args).2)

namespace Exec

variable {g : Graph} {hosts : Bindings String HostFn} {σ σ' : Machine} {p : BlockId × Nat}
  {op : Operation} {flow : Flow}

theorem read_eq_ok : (read v).run.run σ = .ok (.ok a, σ') ↔ σ.value? v = some a ∧ σ' = σ := by
  have hget : (get : Exec Machine).run.run σ = .ok (.ok σ, σ) := rfl
  unfold read Machine.value?
  rw [bind_ok hget]
  cases (σ.values[v]?).join with
  | none =>
    show ok (error (EvalError.undefinedValue v), σ) = .ok (.ok a, σ') ↔ _
    simp
  | some b =>
    show ok (ok b, σ) = .ok (.ok a, σ') ↔ _
    simp [eq_comm]

theorem mapM_read_eq_ok {vs : List ValueId} (h : (vs.mapM read).run.run σ = .ok (.ok args, σ')) :
    vs.mapM σ.value? = some args ∧ σ' = σ := by
  induction vs generalizing args σ' with
  | nil =>
    cases h
    exact ⟨rfl, rfl⟩
  | cons v vs ih =>
    rw [mapM_cons] at h
    obtain ⟨a, σ1, hread, htail⟩ := of_bind_eq_ok h
    obtain ⟨ha, rfl⟩ := read_eq_ok.1 hread
    obtain ⟨rest, σ2, hrest, hend⟩ := of_bind_eq_ok htail
    obtain ⟨hargs, rfl⟩ := ih hrest
    cases hend
    rw [mapM_cons, ha, hargs]
    exact ⟨rfl, rfl⟩

theorem readOperand_eq_ok {i : Nat} (h : (readOperand op i).run.run σ = .ok (.ok a, σ')) :
    ∃ w, op.operands[i]? = some w ∧ σ.value? w = some a ∧ σ' = σ := by
  obtain ⟨w, σ1, hoperand, hread⟩ := of_bind_eq_ok h
  unfold operand at hoperand
  cases hw : op.operands[i]? with
  | none =>
    rw [hw] at hoperand
    cases hoperand
  | some w' =>
    rw [hw] at hoperand
    cases hoperand
    obtain ⟨ha, rfl⟩ := read_eq_ok.1 hread
    exact ⟨w, rfl, ha, rfl⟩

/-- A store puts the scalar of its operand into its symbol. -/
theorem of_step_store (ho : op.opcode = .store s)
    (h : (step g hosts p op).run.run σ = .ok (.ok flow, σ')) :
    ∃ w a, op.operands[0]? = some w ∧ σ.value? w = some a ∧
      σ' = { σ with locals := σ.locals.insert s a } := by
  obtain ⟨opcode, operands, result, targets⟩ := op
  cases ho
  obtain ⟨ty, -, hstore⟩ := of_lift_bind h
  obtain ⟨a, σ1, hread, hwrite⟩ := of_bind_eq_ok hstore
  obtain ⟨w, hw, ha, rfl⟩ := readOperand_eq_ok hread
  cases hwrite
  exact ⟨w, a, hw, ha, rfl⟩

/-- A call gives its value what the function returns. -/
theorem of_step_call (ho : op.opcode = .call name)
    (h : (step g hosts p op).run.run σ = .ok (.ok flow, σ')) :
    ∃ f args, hosts.get? name = some f ∧ op.operands.mapM σ.value? = some args ∧
      σ'.locals = σ.locals ∧ σ'.values = (match op.result with
        | some v => σ.values.setIfInBounds v (some (f σ.memory args).2)
        | none => σ.values) := by
  obtain ⟨opcode, operands, result, targets⟩ := op
  cases ho
  obtain ⟨ty, -, hcall⟩ := of_lift_bind h
  obtain ⟨a, σ1, hcall, hfinish⟩ := of_bind_eq_ok hcall
  obtain ⟨args, σ2, hread, hhost⟩ := of_bind_eq_ok hcall
  obtain ⟨hargs, rfl⟩ := mapM_read_eq_ok hread
  cases hf : hosts.get? name with
  | none =>
    rw [hf] at hhost
    cases hhost
  | some f =>
    rw [hf] at hhost
    cases hhost
    refine ⟨f, args, rfl, hargs, ?_⟩
    cases result with
    | none =>
      cases hfinish
      exact ⟨rfl, rfl⟩
    | some v =>
      cases hfinish
      exact ⟨rfl, rfl⟩

/-- An operation that suits the graph leaves everything in range, unless it is one that strays. -/
theorem step_inRange (hsuits : op.Suits g) (hstays : ¬ op.Strays g hosts σ) (hσ : σ.InRange g)
    (h : (step g hosts p op).run.run σ = .ok (.ok flow, σ')) : σ'.InRange g := by
  -- all but stores and calls, which look at the machine
  have hgives : (∀ s, op.opcode ≠ .store s) → (∀ name, op.opcode ≠ .call name) →
      Gives g (step g hosts p op) fun _ => True := by
    intro hstore hcall
    refine upholds_lift_bind fun ty hty => ?_
    obtain ⟨opcode, operands, result, targets⟩ := op
    cases opcode with
    | store s => exact absurd rfl (hstore s)
    | call name => exact absurd rfl (hcall name)
    | constInt v => exact gives_finish hty fun _ => ty.bounds_wrapInt v
    | constFloat x =>
      refine gives_finish hty ?_
      rintro ⟨v, rfl, hv⟩
      obtain ⟨t, ht, hfloat⟩ := hsuits
      cases ht.symm.trans hv
      refine Ty.bounds_of_wide ?_
      cases ty with
      | float | double => rfl
      | _ => cases hfloat
    | load s =>
      refine (gives_readLocal s).bind fun a ha => gives_finish hty ?_
      rintro ⟨v, rfl, hv⟩
      obtain ⟨y, hy, ht⟩ := hsuits
      cases ht.symm.trans hv
      exact ha y hy
    | storeOver =>
      obtain ⟨v, w, t, h0, h1, hv, hw⟩ := hsuits
      refine (gives_readOperand _ 1).bind fun a ha => upholds_lift_bind fun u hu =>
        (gives_overwrite fun t' ht' => ?_).bind fun _ _ => upholds_pure trivial
      have huv : u = v := by
        unfold operand at hu
        rw [h0] at hu
        exact (ok.inj hu).symm
      rw [huv] at ht'
      rw [some.inj (ht'.symm.trans hv)]
      exact ha w t h1 hw
    | arith o =>
      refine (gives_arith fun hn => ?_).bind fun a ha => gives_finish hty fun _ => ha
      cases result with
      | none =>
        cases hty
        cases hn
      | some v =>
        obtain ⟨w, t, hw, ht, hv⟩ := hsuits
        have hv' : g.values.get? v = some ty := fetch_eq_ok.1 hty
        rcases hv with hv | hv
        · cases hv.symm.trans hv'
          exact ⟨w, hw, ht⟩
        · cases hv.symm.trans hv'
          cases hn
    | compare c =>
      refine (upholds_compare (fun _ _ => trivial) c _).bind fun holds _ => gives_finish hty fun _ => ?_
      cases holds <;> exact Ty.bounds_small (by decide) (by decide)
    | convert unsigned =>
      exact upholds_lift_bind fun _ _ =>
        upholds_lift_bind fun _ _ =>
          (gives_readOperand _ 0).bind fun a _ =>
            gives_finish hty fun _ => a.bounds_convert _ ty unsigned
    | checked o =>
      refine (gives_readOperand _ 0).bind fun a _ => (gives_readOperand _ 1).bind fun b _ => ?_
      split
      · next v hv => exact gives_finish hty fun _ => Arith.bounds_checked hv
      · grind [upholds_lift_bind, upholds_pure, upholds_throw]
    | loadAt =>
      exact (gives_readOperand _ 0).bind fun _ _ => (gives_loadAt _ ty).bind fun a ha =>
        gives_finish hty fun _ => ha
    | storeAt =>
      exact (gives_readOperand _ 0).bind fun _ _ => (gives_readOperand _ 1).bind fun _ _ =>
        upholds_lift_bind fun _ _ =>
          upholds_lift_bind fun _ _ =>
            (gives_storeAt _ _ _).bind fun _ _ => upholds_pure trivial
    | indexAt size =>
      refine (gives_readOperand _ 0).bind fun _ _ => (gives_readOperand _ 1).bind fun _ _ =>
        gives_finish hty ?_
      rintro ⟨v, rfl, hv⟩
      cases hsuits.symm.trans hv
      exact Ty.bounds_of_wide rfl
    | offsetAt offset =>
      refine (gives_readOperand _ 0).bind fun _ _ => gives_finish hty ?_
      rintro ⟨v, rfl, hv⟩
      cases hsuits.symm.trans hv
      exact Ty.bounds_of_wide rfl
    | localAlloc size =>
      refine (gives_storageOf p size).bind fun _ _ => gives_finish hty ?_
      rintro ⟨v, rfl, hv⟩
      cases hsuits.symm.trans hv
      exact Ty.bounds_of_wide rfl
    | atomicAdd =>
      refine (gives_atomicAdd _).bind fun a ha => gives_finish hty ?_
      rintro ⟨v, rfl, hv⟩
      obtain ⟨w, t, hw, ht, hv'⟩ := hsuits
      cases hv'.symm.trans hv
      exact ha w ty hw ht
    | goto => exact upholds_lift_bind fun _ _ => upholds_pure trivial
    | branch c =>
      refine (upholds_compare (fun _ _ => trivial) c _).bind fun holds _ => ?_
      cases holds with
      | true => exact upholds_lift_bind fun _ _ => upholds_pure trivial
      | false => exact upholds_pure trivial
    | ret =>
      dsimp only
      split
      · exact (gives_read _).bind fun _ _ => upholds_pure trivial
      · exact upholds_pure trivial
    | switch cases =>
      exact (gives_readOperand _ 0).bind fun _ _ =>
        upholds_lift_bind fun _ _ => upholds_pure trivial
    | transactionBegin =>
      refine upholds_lift_bind fun _ _ =>
        (upholds_modify fun σ hσ => ?_).bind fun _ _ => upholds_pure trivial
      exact hσ.congr rfl rfl
    | transactionEnd =>
      refine upholds_get.bind fun σ _ => ?_
      split
      · exact upholds_throw trivial
      · refine (upholds_modify fun σ hσ => ?_).bind fun _ _ => upholds_pure trivial
        exact hσ.congr rfl rfl
    | transactionAbort =>
      refine upholds_get.bind fun σ _ => ?_
      split
      · exact upholds_throw trivial
      · refine (upholds_modify fun σ hσ => ?_).bind fun _ _ => upholds_pure trivial
        exact hσ.congr rfl rfl
  by_cases hstore : ∃ s, op.opcode = .store s
  · obtain ⟨s, ho⟩ := hstore
    obtain ⟨w, a, hw, ha, rfl⟩ := of_step_store ho h
    refine hσ.writeLocal fun y hy => ?_
    exact Classical.byContradiction fun hout => hstays (.store ho hw ha hy hout)
  · by_cases hcall : ∃ name, op.opcode = .call name
    · obtain ⟨name, ho⟩ := hcall
      obtain ⟨f, args, hf, hargs, hlocals, hvalues⟩ := of_step_call ho h
      cases hv : op.result with
      | none =>
        rw [hv] at hvalues
        exact hσ.congr hvalues hlocals
      | some v =>
        rw [hv] at hvalues
        refine (hσ.write fun ty hty => ?_).congr hvalues hlocals
        exact Classical.byContradiction fun hout => hstays (.call ho hv hty hf hargs hout)
    · exact (hgives (fun s ho => hstore ⟨s, ho⟩) (fun name ho => hcall ⟨name, ho⟩) _ _ _ hσ h).1

/-- One that strays puts something out of range. -/
theorem not_inRange_of_strays (hstrays : op.Strays g hosts σ) (hσ : σ.InRange g)
    (h : (step g hosts p op).run.run σ = .ok (.ok flow, σ')) : ¬ σ'.InRange g := by
  intro hσ'
  cases hstrays with
  | @store s y w a ho hw ha hy hout => grind [of_step_store, get?_insert, hσ'.locals]
  | @call name v ty f args ho hv hty hf hargs hout =>
    obtain ⟨f', args', hf', hargs', hlocals, hvalues⟩ := of_step_call ho h
    cases hf.symm.trans hf'
    cases hargs.symm.trans hargs'
    rw [hv] at hvalues
    refine hout (hσ'.values v ty _ hty ?_)
    have hlt : v < σ.values.size := by
      rw [hσ.room]
      exact (Array.getElem?_eq_some_iff.1 hty).1
    rw [hvalues]
    exact getElem?_setIfInBounds_self_of_lt hlt

end Exec

/-! ## Runs -/

variable {p : BlockId × Nat}

namespace Graph

variable {g : Graph} {hosts : Bindings String HostFn} {c c' start : (BlockId × Nat) × Machine}

/-- The operation at the place of a run strays. -/
def Strays (g : Graph) (hosts : Bindings String HostFn) (c : (BlockId × Nat) × Machine) : Prop :=
  ∃ op, g.HasOp c.1 op ∧ op.Strays g hosts c.2

/-- The operation with which a run moves on, if it does so with one. -/
theorem Moves.step (h : g.Moves hosts c c') : c'.2 = c.2 ∧ (∀ op, ¬ g.HasOp c.1 op) ∨
    ∃ op flow, g.HasOp c.1 op ∧ (Exec.step g hosts c.1 op).run.run c.2 = .ok (.ok flow, c'.2) := by
  cases h with
  | next hop hstep => exact .inr ⟨_, _, hop, hstep⟩
  | jump hop hstep => exact .inr ⟨_, _, hop, hstep⟩
  | fall hfall => grind [hasOp_iff, hfall.op?_eq_none]

theorem HasOp.unique {op' : Operation} (h : g.HasOp p op) (h' : g.HasOp p op') : op = op' :=
  some.inj ((hasOp_iff.1 h).symm.trans (hasOp_iff.1 h'))

/-- A move leaves everything in range unless it is by an operation that strays. -/
theorem Moves.inRange_iff (hsuits : ∀ p op, g.HasOp p op → op.Suits g) (h : g.Moves hosts c c')
    (hc : c.2.InRange g) : c'.2.InRange g ↔ ¬ g.Strays hosts c := by
  grind [Exec.not_inRange_of_strays, Exec.step_inRange, Strays, HasOp, h.step]

/-- What no move breaks holds along the run. -/
theorem Arrives.inRange (hsuits : ∀ p op, g.HasOp p op → op.Suits g)
    (hstart : start.2.InRange g)
    (hstays : ∀ c c', g.Arrives hosts start c → g.Moves hosts c c' → c.2.InRange g →
      ¬ g.Strays hosts c) (h : g.Arrives hosts start c) : c.2.InRange g := by
  induction h with
  | refl => exact hstart
  | @tail b c hb hmove ih => exact (hmove.inRange_iff hsuits ih).2 (hstays b c hb hmove ih)

/-- What is bound at the start is the initial scalar of a symbol. -/
theorem of_mapM_initial {es : List (SymbolId × Symbol)} {ps : List (SymbolId × Scalar)}
    (h : es.mapM (fun (i, y) => return (i, ← y.initial args)) = (.ok ps : Except Fault _))
    (ha : Bindings.lookup s ps = some a) : ∃ y, (s, y) ∈ es ∧ y.initial args = .ok a := by
  induction es generalizing ps with
  | nil =>
    cases h
    cases ha
  | cons e es ih =>
    obtain ⟨i, y⟩ := e
    rw [mapM_cons] at h
    dsimp only at h
    obtain ⟨p, hp, h⟩ := ok_of_bind h
    obtain ⟨b, hy, hp⟩ := ok_of_bind hp
    obtain ⟨qs, hes, h⟩ := ok_of_bind h
    cases hp
    cases h
    unfold Bindings.lookup at ha
    split at ha
    · next his =>
      cases ha
      exact ⟨y, his ▸ mem_cons_self, hy⟩
    · grind

/-- A run starts in range if its arguments fit the parameters. -/
theorem inRange_start {ev : Evaluator} {locals : Bindings SymbolId Scalar}
    (hlocals : ev.graph.initialLocals args = .ok locals)
    (hargs : ∀ s y i a, ev.graph.symbols.get? s = some y → y.kind = .parameter i →
      args[i]? = some a → y.ty.Bounds a) : (ev.start locals).InRange ev.graph where
  room := Array.size_replicate
  values v ty a _ ha := by grind [Evaluator.start]
  locals s y a hy ha := by
    obtain ⟨ps, hps, rfl⟩ : ∃ ps, ev.graph.symbols.entries.mapM
        (fun e => return (e.1, ← e.2.initial args)) = (.ok ps : Except Fault _) ∧
        locals = ⟨ps⟩ := by
      unfold initialLocals at hlocals
      obtain ⟨ps, hps, hlocals⟩ := ok_of_bind hlocals
      cases hlocals
      exact ⟨ps, hps, rfl⟩
    obtain ⟨z, hz, hinitial⟩ := of_mapM_initial hps ha
    cases (Arena.mem_entries.1 hz).symm.trans hy
    unfold Symbol.initial at hinitial
    split at hinitial
    · cases hinitial
      exact y.ty.bounds_zero
    · grind

end Graph

/-! ## Methods -/

/-- Whether symbols of narrow types are given values of their own type only. -/
def Graph.storesAlike (g : Graph) : Bool :=
  g.blocks.toList.all fun blk => blk.operations.all fun op =>
    match op.opcode, op.operands[0]? with
    | .store s, some w =>
      (g.symbols.get? s).all fun y => !y.ty.isNarrow || g.values.get? w == some y.ty
    | _, _ => true

/-- Whether every call has a result of the type that its function is declared to return. -/
def Method.callsAlike (m : Method) : Bool :=
  m.graph.blocks.toList.all fun blk => blk.operations.all fun op =>
    match op.opcode, op.result with
    | .call name, some v => m.functions.pairs.all fun (k, sig) =>
      k != name || m.graph.values.get? v == some sig.returnType
    | _, _ => true

/-- A function from outside returns what fits a type. -/
def HostFn.Returns (f : HostFn) (ty : Ty) : Prop := ∀ memory args, ty.Bounds (f memory args).2

theorem Graph.HasOp.mem (h : g.HasOp p op) : ∃ blk ∈ g.blocks.toList, op ∈ blk.operations := by
  obtain ⟨-, blk, hblk, hop⟩ := h
  exact ⟨blk, mem_toList_iff.2 (mem_of_getElem? hblk), mem_of_getElem? hop⟩

theorem Graph.typed_of_storesAlike (h : g.storesAlike = true) {y : Symbol} {w : ValueId}
    (hop : g.HasOp p op) (ho : op.opcode = .store s) (hw : op.operands[0]? = some w)
    (hy : g.symbols.get? s = some y) (hn : y.ty.isNarrow = true) : g.values.get? w = some y.ty := by
  grind [Graph.storesAlike, hop.mem]

theorem Method.typed_of_callsAlike {m : Method} (h : m.callsAlike = true) {sig : Signature}
    (hop : m.graph.HasOp p op) (ho : op.opcode = .call name) (hv : op.result = some v)
    (hsig : (name, sig) ∈ m.functions.pairs) : m.graph.values.get? v = some sig.returnType := by
  grind [Method.callsAlike, hop.mem]

/-- What is found among the images is one of them. -/
theorem Bindings.of_get?_filterMap {α β κ : Type} [DecidableEq κ] {b : Bindings κ α}
    {f : α → Option β} {k : κ} {y : β} (h : (b.filterMap f).get? k = some y) :
    ∃ x, (k, x) ∈ b.pairs ∧ f x = some y := by
  obtain ⟨ps⟩ := b
  induction ps with
  | nil => cases h
  | cons p ps ih =>
    obtain ⟨j, x⟩ := p
    have hrest : ∀ h : (filterMap ⟨ps⟩ f).get? k = some y,
        ∃ x', (k, x') ∈ (j, x) :: ps ∧ f x' = some y := by grind
    have h : lookup k (((j, x) :: ps).filterMap fun p => (f p.2).map fun y => (p.1, y)) =
        some y := h
    rw [filterMap_cons] at h
    cases hx : f x with
    | none =>
      rw [hx] at h
      exact hrest h
    | some z => grind [Bindings.get?, Bindings.filterMap, Bindings.lookup]

namespace Method

variable {m : Method}

/-- In a run of a method on arguments that fit its parameters: everything of a narrow type is in its
    range at every step exactly if no store puts a scalar into a symbol whose type it does not fit
    and no call gives its value one.

    This is so if symbols are given values of their own type only, calls have results of the types
    that their functions are declared with, and functions from outside return what fits these. -/
theorem values_in_range_iff {name : String} {config : Config} {requests : List Request}
    (h : (Method.new name config).serve requests = .ok m) {memory : Memory} {args : List Scalar}
    {locals : Bindings SymbolId Scalar} (hlocals : m.graph.initialLocals args = .ok locals)
    (hargs : ∀ s y i a, m.graph.symbols.get? s = some y → y.kind = .parameter i →
      args[i]? = some a → y.ty.Bounds a) :
    let ev : Evaluator := { graph := m.graph, hosts := m.functions.filterMap (·.host), memory }
    let start := ((Graph.entry, 0), ev.start locals)
    ((∀ c, ev.graph.Arrives ev.hosts start c → c.2.InRange ev.graph) ↔
      ∀ c c', ev.graph.Arrives ev.hosts start c → ev.graph.Moves ev.hosts c c' →
        ¬ ev.graph.Strays ev.hosts c) ∧
    (m.graph.storesAlike = true → m.callsAlike = true →
      (∀ k sig f, (k, sig) ∈ m.functions.pairs → sig.host = some f →
        HostFn.Returns f sig.returnType) →
      ∀ c, ev.graph.Arrives ev.hosts start c → c.2.InRange ev.graph) := by
  intro ev start
  have hsuits : ∀ p op, ev.graph.HasOp p op → op.Suits ev.graph := by
    rintro p op ⟨-, blk, hblk, hop⟩
    exact suited_of_serve (suited_new name config) h p.1 blk hblk op (List.mem_of_getElem? hop)
  have hstart : start.2.InRange ev.graph := Graph.inRange_start hlocals hargs
  refine ⟨⟨fun hall c c' hc hmove => ?_, fun hnever c hc => ?_⟩,
    fun hstores hcalls hhosts c hc => ?_⟩
  · exact (hmove.inRange_iff hsuits (hall c hc)).1 (hall c' (hc.tail hmove))
  · exact Graph.Arrives.inRange hsuits hstart (fun c c' hc hmove _ => hnever c c' hc hmove) hc
  · refine Graph.Arrives.inRange hsuits hstart (fun c c' _ _ hin => ?_) hc
    rintro ⟨op, hop, hstrays⟩
    cases hstrays with
    | @store s y w a ho hw ha hy hout =>
      refine hout fun hn => ?_
      have hty := Graph.typed_of_storesAlike hstores hop ho hw hy hn
      exact hin.values w y.ty a hty (Option.join_eq_some_iff.1 ha) hn
    | @call k v ty f args ho hv hty hf hargs hout =>
      obtain ⟨sig, hsig, hhost⟩ := Bindings.of_get?_filterMap hf
      have hret := typed_of_callsAlike hcalls hop ho hv hsig
      cases hty.symm.trans hret
      exact hout (hhosts k sig f hsig hhost _ _)

/-- A parameter is doubled, which wraps around, and kept in a local of its type. -/
def doubling : List Request := [
  .call (.defineParameter "p" .int8), .call (.defineLocal "x" .int8), .call (.load 0 "p"),
  .call (.binary 0 .add 0 0), .call (.store 0 "x" 1), .call (.load 0 "x"),
  .call (.returnVoid 0), .connect]

/-- A case of it: twice a hundred wraps to -56, in range like everything else at every step. -/
theorem values_in_range_doubling : ∃ m locals,
    (Method.new "doubling" {}).serve doubling = .ok m ∧
    m.graph.initialLocals [.int 100] = .ok locals ∧ m.graph.storesAlike = true ∧
    let ev : Evaluator := { graph := m.graph, hosts := m.functions.filterMap (·.host) }
    let start := ((Graph.entry, 0), ev.start locals)
    (∃ c, ev.graph.Arrives ev.hosts start c ∧ c.2.value? 2 = some (.int (-56))) ∧
    ∀ c, ev.graph.Arrives ev.hosts start c → c.2.InRange ev.graph := by
  have hcheck : passes ((Method.new "doubling" {}).serve doubling) (fun m =>
      passes (m.graph.initialLocals [.int 100]) fun locals => decide (
        m.graph.storesAlike = true ∧ m.callsAlike = true ∧ m.functions.pairs.length = 0 ∧
        m.graph.symbols.toList = [⟨"p", .int8, .parameter 0⟩, ⟨"x", .int8, .localVar⟩] ∧
        let ev : Evaluator := { graph := m.graph, hosts := m.functions.filterMap (·.host) }
        (ev.graph.trail ev.hosts 8 ((Graph.entry, 0), ev.start locals)).any
          (fun c => c.2.value? 2 == some (.int (-56))) = true)) = true := by cbv
  obtain ⟨m, hserve, hcheck⟩ := of_passes hcheck
  obtain ⟨locals, hlocals, hstores, hcalls, hfunctions, hsymbols, htrail⟩ :=
    of_passes_decide hcheck
  obtain ⟨c, hc, hvalue⟩ := List.any_eq_true.1 htrail
  have hargs : ∀ s y i a, m.graph.symbols.get? s = some y → y.kind = .parameter i →
      [Scalar.int 100][i]? = some a → y.ty.Bounds a := by
    intro s y i a hy hkind ha
    have hmem : y ∈ m.graph.symbols.toList := Array.mem_toList_iff.2 (Array.mem_of_getElem? hy)
    rw [hsymbols] at hmem
    rcases List.mem_cons.1 hmem with rfl | hmem
    · cases hkind
      cases ha
      exact fun _ => ⟨100, rfl, by decide, by decide⟩
    · cases List.mem_singleton.1 hmem
      cases hkind
  refine ⟨m, locals, hserve, hlocals, hstores, ⟨c, Graph.arrives_of_mem_trail hc, ?_⟩, ?_⟩
  · simpa using hvalue
  · refine (values_in_range_iff hserve hlocals hargs).2 hstores hcalls fun k sig f hsig _ => ?_
    rw [List.eq_nil_of_length_eq_zero hfunctions] at hsig
    cases hsig

/-- A wide value is stored into a narrow local, which is loaded again. -/
def straying : List Request := [
  .call (.defineReturnType .int8), .call (.defineLocal "x" .int8),
  .call (.constInt 0 .int32 1000), .call (.store 0 "x" 0), .call (.load 0 "x"),
  .call (.returnValue 0 1), .connect]

/-- It is not so in general: a store does not look at the type of its symbol, so that a value of
    eight bits can hold a thousand, which the method returns. -/
theorem store_out_of_range : ∃ m locals,
    (Method.new "straying" {}).serve straying = .ok m ∧ m.graph.verify = .ok () ∧
    m.graph.initialLocals [] = .ok locals ∧ m.graph.values.get? 1 = some .int8 ∧
    let ev : Evaluator := { graph := m.graph, hosts := m.functions.filterMap (·.host) }
    let start := ((Graph.entry, 0), ev.start locals)
    (∃ c, ev.graph.Arrives ev.hosts start c ∧ c.2.value? 1 = some (.int 1000) ∧
      ¬ c.2.InRange ev.graph) ∧
    (ev.run []).map (·.1) = .ok (.ok (some (.int 1000))) := by
  have hcheck : passes ((Method.new "straying" {}).serve straying) (fun m =>
      passes (m.graph.initialLocals []) fun locals => decide (
        m.graph.verify = .ok () ∧ m.graph.values.get? 1 = some .int8 ∧
        let ev : Evaluator := { graph := m.graph, hosts := m.functions.filterMap (·.host) }
        (ev.graph.trail ev.hosts 8 ((Graph.entry, 0), ev.start locals)).any
          (fun c => c.2.value? 1 == some (.int 1000)) = true ∧
        (ev.run []).map (·.1) = .ok (.ok (some (.int 1000))))) = true := by cbv
  obtain ⟨m, hserve, hcheck⟩ := of_passes hcheck
  obtain ⟨locals, hlocals, hverify, hty, htrail, hrun⟩ := of_passes_decide hcheck
  obtain ⟨c, hc, hvalue⟩ := List.any_eq_true.1 htrail
  have hvalue : c.2.value? 1 = some (.int 1000) := by simpa using hvalue
  refine ⟨m, locals, hserve, hverify, hlocals, hty, ⟨c, Graph.arrives_of_mem_trail hc, hvalue, ?_⟩,
    hrun⟩
  intro hin
  obtain ⟨i, hi, -, hle⟩ := hin.values 1 .int8 _ hty (Option.join_eq_some_iff.1 hvalue) rfl
  cases hi
  revert hle
  decide

end Method
end MethodGraph
