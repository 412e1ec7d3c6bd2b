import MethodGraph.Proofs.Trace
/-!
  What single operations do to a machine.

  One statement for each kind of operation that a built program or a transfer of state consists of,
  said of the machine before and after it.  The operands have scalars, and the types are those that
  the graph gives to the values.
-/

namespace MethodGraph

variable {target y : BlockId} {cmp : Cmp} {operands : List ValueId} {σ σ' : Machine}
  {op : Operation} {s : SymbolId} {ty' : Ty} {α : Type} {u v : ValueId}

namespace Machine

/-- Give a value a scalar. -/
def put (σ : Machine) (v : ValueId) (a : Scalar) : Machine :=
  { σ with values := σ.values.setIfInBounds v (some a) }

/-- Give a symbol a scalar. -/
def assign (σ : Machine) (s : SymbolId) (a : Scalar) : Machine :=
  { σ with locals := σ.locals.insert s a }

/-- A value has a scalar. -/
def Has (σ : Machine) (v : ValueId) (a : Scalar) : Prop := σ.values[v]? = some (some a)

theorem has_put (hv : v < σ.values.size) (a : Scalar) : (σ.put v a).Has v a := by
  unfold Has put
  rw [Array.getElem?_setIfInBounds_self, if_pos hv]

theorem getElem?_put_of_ne {w : ValueId} (h : w ≠ v) (a : Scalar) :
    (σ.put v a).values[w]? = σ.values[w]? :=
  Array.getElem?_setIfInBounds_ne h.symm

@[simp] theorem size_put (σ : Machine) (v : ValueId) (a : Scalar) :
    (σ.put v a).values.size = σ.values.size := Array.size_setIfInBounds

end Machine

/-! ## Single operations -/

namespace Exec

variable {g : Graph} {hosts : Bindings String HostFn} {p : BlockId × Nat} {σ : Machine}
  {v w : ValueId} {a c : Scalar} {ty : Ty}

theorem read_run (h : σ.Has v a) : (read v).run.run σ = .ok (.ok a, σ) := by
  have hget : (get : Exec Machine).run.run σ = .ok (.ok σ, σ) := rfl
  unfold read
  refine (bind_ok hget).trans ?_
  rw [show σ.values[v]? = some (some a) from h]
  rfl

theorem readOperand_run {i : Nat} (hi : op.operands[i]? = some v)
    (h : σ.Has v a) : (readOperand op i).run.run σ = .ok (.ok a, σ) := by
  have hop : op.operand i = .ok v := by
    unfold Operation.operand
    rw [hi]
  exact (bind_ok (lift_ok hop)).trans (read_run h)

theorem resultType_eq (hv : op.result = some v)
    (hty : g.values.get? v = some ty) : op.resultType g = .ok ty := by
  unfold Operation.resultType
  rw [hv]
  exact Arena.fetch_eq_ok.2 hty

variable (hty : g.values.get? v = some ty)

include hty in
theorem step_constInt {n : Int64} :
    (step g hosts p ⟨.constInt n, [], some v, []⟩).run.run σ =
      .ok (.ok .next, σ.put v (.int (ty.wrapInt n))) :=
  (bind_ok (lift_ok (resultType_eq rfl hty))).trans rfl

include hty in
theorem step_constFloat {x : Binary64} :
    (step g hosts p ⟨.constFloat x, [], some v, []⟩).run.run σ =
      .ok (.ok .next, σ.put v (.float (ty.roundFloat x))) :=
  (bind_ok (lift_ok (resultType_eq rfl hty))).trans rfl

include hty in
theorem step_load (hs : σ.locals.get? s = some a) :
    (step g hosts p ⟨.load s, [], some v, []⟩).run.run σ = .ok (.ok .next, σ.put v a) := by
  refine (bind_ok (lift_ok (resultType_eq rfl hty))).trans ?_
  have hget : (get : Exec Machine).run.run σ = .ok (.ok σ, σ) := rfl
  have hread : (readLocal s).run.run σ = .ok (.ok a, σ) := by
    unfold readLocal
    refine (bind_ok hget).trans ?_
    rw [hs]
    rfl
  exact (bind_ok hread).trans rfl

theorem step_store (hv : σ.Has v a) :
    (step g hosts p ⟨.store s, [v], none, []⟩).run.run σ = .ok (.ok .next, σ.assign s a) := by
  refine (bind_ok (lift_ok rfl)).trans ?_
  exact (bind_ok (readOperand_run rfl hv)).trans rfl

theorem step_neg (hty : g.values.get? w = some ty) (hv : σ.Has v a) :
    (step g hosts p ⟨.arith .neg, [v], some w, []⟩).run.run σ =
      .ok (.ok .next, σ.put w (Arith.negate ty a)) := by
  refine (bind_ok (lift_ok (resultType_eq rfl hty))).trans ?_
  exact (bind_ok ((bind_ok (readOperand_run rfl hv)).trans rfl)).trans rfl

theorem bits_bound (hty : ty.isInteger = true) : 0 < ty.bits ∧ ty.bits ≤ 64 := by
  cases ty with
  | int8 | int16 | int32 | int64 => decide
  | _ => cases hty

/-- On integers of a width no operator meets a fault. -/
theorem onInts_ok (op : Arith) (hty : ty.isInteger = true) (x y : Int64) :
    ∃ r, op.onInts ty x y = .ok r := by
  obtain ⟨hpos, hle⟩ := bits_bound hty
  have hshift : y.toUInt64.toNat % ty.bits < 64 := Nat.lt_of_lt_of_le (Nat.mod_lt _ hpos) hle
  cases op with
  | ushr => exact ⟨_, if_pos hshift⟩
  | _ => exact ⟨_, rfl⟩

/-- Arithmetic gives what the operator gives, or divides by zero. -/
theorem step_arith {op : Arith} (hop : op.isUnary = false) (hint : ty.isInteger = true)
    {r : Option Int64} (hty : g.values.get? u = some ty) (hv : σ.Has v a)
    (hw : σ.Has w c) (hr : op.onInts ty a.toInt c.toInt = .ok r) :
    (step g hosts p ⟨.arith op, [v, w], some u, []⟩).run.run σ = match r with
      | some x => .ok (.ok .next, σ.put u (.int (ty.wrapInt x)))
      | none => .ok (.error .divisionByZero, σ) := by
  have happly : op.apply ty a c = .ok (r.map fun v => .int (ty.wrapInt v)) := by
    unfold Arith.apply
    rw [(Ty.isFloating_of_isInteger hint).1, hr]
    rfl
  refine (bind_ok (lift_ok (resultType_eq rfl hty))).trans ?_
  have harith : (arith op ⟨.arith op, [v, w], some u, []⟩ ty).run.run σ =
      match r with
      | some x => .ok (.ok (.int (ty.wrapInt x)), σ)
      | none => .ok (.error .divisionByZero, σ) := by
    refine (bind_ok (readOperand_run rfl hv)).trans ?_
    rw [hop]
    refine (bind_ok (readOperand_run rfl hw)).trans ?_
    refine (bind_ok (lift_ok happly)).trans ?_
    cases r <;> rfl
  cases r with
  | none => exact bind_error harith
  | some r => exact (bind_ok harith).trans rfl

theorem compare_run (hop : op.operands = [v, w])
    (hint : ty.isInteger = true) (hty : g.values.get? v = some ty) (hv : σ.Has v a)
    (hw : σ.Has w c) :
    (compare g cmp op).run.run σ = .ok (.ok (cmp.holdsInt a.toInt c.toInt), σ) := by
  have hfirst : op.operands[0]? = some v := by rw [hop]; rfl
  have hsecond : op.operands[1]? = some w := by rw [hop]; rfl
  have hoperand : op.operand 0 = .ok v := by
    unfold Operation.operand
    rw [hfirst]
  have htype : g.typeOf v = .ok ty := Arena.fetch_eq_ok.2 hty
  unfold compare
  refine (bind_ok (readOperand_run hfirst hv)).trans ?_
  refine (bind_ok (readOperand_run hsecond hw)).trans ?_
  refine (bind_ok (lift_ok hoperand)).trans ?_
  refine (bind_ok (lift_ok htype)).trans ?_
  unfold Cmp.holds
  rw [(Ty.isFloating_of_isInteger hint).1]
  rfl

theorem step_compare (hint : ty.isInteger = true)
    (hty : g.values.get? v = some ty) (hu : g.values.get? u = some ty') (hv : σ.Has v a)
    (hw : σ.Has w c) : (step g hosts p ⟨.compare cmp, [v, w], some u, []⟩).run.run σ =
      .ok (.ok .next, σ.put u (.int (if cmp.holdsInt a.toInt c.toInt then 1 else 0))) := by
  refine (bind_ok (lift_ok (resultType_eq rfl hu))).trans ?_
  exact (bind_ok (compare_run rfl hint hty hv hw)).trans rfl

include hty in
theorem step_convert {unsigned : Bool} (hw : g.values.get? w = some ty') (hv : σ.Has v a) :
    (step g hosts p ⟨.convert unsigned, [v], some w, []⟩).run.run σ =
      .ok (.ok .next, σ.put w (a.convert ty ty' unsigned)) := by
  have htype : g.typeOf v = .ok ty := Arena.fetch_eq_ok.2 hty
  refine (bind_ok (lift_ok (resultType_eq rfl hw))).trans ?_
  refine (bind_ok (lift_ok rfl)).trans ?_
  refine (bind_ok (lift_ok htype)).trans ?_
  exact (bind_ok (readOperand_run rfl hv)).trans rfl

theorem step_branch (hint : ty.isInteger = true)
    (hty : g.values.get? v = some ty) (hv : σ.Has v a) (hw : σ.Has w c) :
    (step g hosts p ⟨.branch cmp, [v, w], none, [target]⟩).run.run σ =
      .ok (.ok (if cmp.holdsInt a.toInt c.toInt then .jump target else .next), σ) := by
  refine (bind_ok (lift_ok rfl)).trans ?_
  refine (bind_ok (compare_run rfl hint hty hv hw)).trans ?_
  cases cmp.holdsInt a.toInt c.toInt <;> rfl

theorem step_goto : (step g hosts p ⟨.goto, operands, none, [target]⟩).run.run σ =
      .ok (.ok (.jump target), σ) := rfl

/-- The computation leaves the machine as it is. -/
def Looks {α : Type} (x : Exec α) : Prop := ∀ σ r σ', x.run.run σ = .ok (r, σ') → σ' = σ

theorem looks_pure (a : α) : Looks (pure a) := by
  intro σ r σ' h
  cases h
  rfl

theorem looks_lift (y : Except Fault α) : Looks (liftM y) := by
  intro σ r σ' h
  cases y with
  | error e => cases h
  | ok a =>
    cases h
    rfl

theorem Looks.bind {β : Type} {x : Exec α} {f : α → Exec β} (hx : Looks x)
    (hf : ∀ a, Looks (f a)) : Looks (x >>= f) := by
  intro σ r σ' h
  rcases of_bind_ok h with ⟨a, σ1, h1, h2⟩ | ⟨e, σ1, h1, hr⟩
  · obtain rfl := hx σ _ σ1 h1
    exact hf a σ1 r σ' h2
  · cases hr
    exact hx σ _ σ' h1

theorem looks_read (v : ValueId) : Looks (read v) := by
  intro σ r σ' h
  unfold read at h
  rcases of_bind_ok h with ⟨a, σ1, h1, h2⟩ | ⟨e, σ1, h1, -⟩
  · cases h1
    split at h2 <;> cases h2 <;> rfl
  · cases h1

theorem looks_compare (cmp : Cmp) (op : Operation) : Looks (compare g cmp op) := by
  have hread : ∀ i, Looks (readOperand op i) := fun i => (looks_lift _).bind looks_read
  exact (hread 0).bind fun _ => (hread 1).bind fun _ => (looks_lift _).bind fun _ =>
    (looks_lift _).bind fun _ => looks_pure _

/-- A branch that is taken goes to its target and leaves the machine as it is. -/
theorem eq_of_step_branch (h : (step g hosts p ⟨.branch cmp, operands, none, [target]⟩).run.run σ =
      .ok (.ok (.jump y), σ')) : y = target ∧ σ' = σ := by
  have hstep := (bind_ok (lift_ok rfl)).symm.trans h
  rcases of_bind_ok hstep with ⟨taken, σ1, hcompare, hrest⟩ | ⟨e, σ1, -, hr⟩
  · obtain rfl := looks_compare cmp _ σ _ σ1 hcompare
    cases taken with
    | false => cases hrest
    | true =>
      cases hrest
      exact ⟨rfl, rfl⟩
  · cases hr

/-- A transfer to one target, in any case or if a comparison holds. -/
theorem eq_of_step_transfer {opcode : Opcode} (hop : opcode = .goto ∨ ∃ cmp, opcode = .branch cmp)
    (h : (step g hosts p ⟨opcode, operands, none, [target]⟩).run.run σ = .ok (.ok (.jump y), σ')) :
    y = target ∧ σ' = σ := by
  rcases hop with rfl | ⟨cmp, rfl⟩
  · cases step_goto.symm.trans h
    exact ⟨rfl, rfl⟩
  · exact eq_of_step_branch h

theorem step_ret : (step g hosts p ⟨.ret, [], none, []⟩).run.run σ = .ok (.ok (.ret none), σ) := rfl

theorem step_ret_value (hv : σ.Has v a) :
    (step g hosts p ⟨.ret, [v], none, []⟩).run.run σ = .ok (.ok (.ret (some a)), σ) := by
  refine (bind_ok (lift_ok rfl)).trans ?_
  exact (bind_ok (read_run hv)).trans rfl

end Exec
end MethodGraph
