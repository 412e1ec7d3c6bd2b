import MethodGraph.Proofs.Ranges
import MethodGraph.Proofs.Straight
/-!
  What becomes of arithmetic that a builder has accepted.

  A builder looks at the types of the operands, the evaluator at the type of the result.  What is
  accepted has a result unless an integer is divided by zero: a bitwise operator is not applied to
  floating-point scalars, and a shift counts with the bits of the type, which are no more than those
  of a scalar.  Only a vector has more.  There the shift that brings in zeros faults when it counts
  to 64 or beyond, while the other two shifts count with the bits of a scalar then.
-/

namespace MethodGraph

open Exec

variable {op : Arith} {ty lt rt : Ty} {x y : Scalar} {m m' : Method} {b : BuilderId}
  {l r v : ValueId} {σ : Machine}

namespace Arith

/-- A vector is shifted by more bits than a scalar has. -/
def Overshifts (op : Arith) (ty : Ty) (y : Scalar) : Prop :=
  op = .ushr ∧ ty.isVector = true ∧ 64 ≤ y.toInt.toUInt64.toNat % 128

/-- An integer is divided by zero. -/
def DividesByZero (op : Arith) (ty : Ty) (y : Scalar) : Prop :=
  (op = .div ∨ op = .rem) ∧ ty.isFloating = false ∧ y.toInt = 0

theorem bits_of_isVector (ty : Ty) : if ty.isVector = true then ty.bits = 128 else ty.bits ≤ 64 := by
  cases ty <;> decide

/-- The shift that brings in zeros, for what it counts to. -/
theorem onInts_ushr (ty : Ty) (a b : Int64) : Arith.ushr.onInts ty a b =
    if ty.isVector = true ∧ 64 ≤ b.toUInt64.toNat % 128 then .error .arithmeticOverflow
    else .ok (some ((ty.zeroExtend a).toUInt64 >>>
      UInt64.ofNat (b.toUInt64.toNat % ty.bits)).toInt64) := by
  have hbits := bits_of_isVector ty
  show (if _ then _ else _) = _
  split at hbits
  · next hvector =>
    rw [hbits]
    by_cases hlt : b.toUInt64.toNat % 128 < 64
    · rw [if_pos hlt, if_neg (by omega)]
    · rw [if_neg hlt, if_pos ⟨hvector, by omega⟩]
  · next hvector =>
    have hpos : 0 < ty.bits := by cases ty <;> decide
    have hlt := Nat.mod_lt b.toUInt64.toNat hpos
    rw [if_pos (by omega), if_neg (by simp [hvector])]

/-- What a binary operator does at a type that it was accepted for. -/
theorem apply_cases (haccepted : (op.isIntegerOnly && ty.element.isFloating) = false)
    (hbinary : op.isUnary = false) :
    (op.Overshifts ty y ∧ op.apply ty x y = .error .arithmeticOverflow) ∨
    (op.DividesByZero ty y ∧ ¬ op.Overshifts ty y ∧ op.apply ty x y = .ok none) ∨
    (¬ op.DividesByZero ty y ∧ ¬ op.Overshifts ty y ∧ ∃ s, op.apply ty x y = .ok (some s)) := by
  by_cases hfloat : ty.isFloating = true
  · have hscalar : ty.isVector = false ∧ ty.element.isFloating = true := by
      cases ty with
      | float | double => decide
      | _ => cases hfloat
    refine .inr (.inr ⟨by simp [DividesByZero, hfloat], by simp [Overshifts, hscalar], ?_⟩)
    unfold apply
    rw [if_pos hfloat]
    cases op with
    | add | sub | mul | div | rem => exact ⟨_, rfl⟩
    | neg => cases hbinary
    | _ => simp [isIntegerOnly, hscalar] at haccepted
  · have happly : op.apply ty x y = (op.onInts ty x.toInt y.toInt).map
        (·.map fun v => .int (ty.wrapInt v)) := by
      unfold apply
      rw [if_neg hfloat]
      rfl
    have hint : ty.isFloating = false := Bool.eq_false_iff.2 hfloat
    rw [happly]
    cases op with
    | div | rem =>
      by_cases hzero : y.toInt = 0
      · refine .inr (.inl ⟨⟨by simp, hint, hzero⟩, by simp [Overshifts], ?_⟩)
        simp [onInts, hzero, Except.map]
      · refine .inr (.inr ⟨by simp [DividesByZero, hzero], by simp [Overshifts], ?_⟩)
        simp [onInts, hzero, Except.map]
    | ushr =>
      rw [onInts_ushr]
      by_cases hshift : ty.isVector = true ∧ 64 ≤ y.toInt.toUInt64.toNat % 128
      · exact .inl ⟨⟨rfl, hshift⟩, by rw [if_pos hshift]; rfl⟩
      · refine .inr (.inr ⟨by simp [DividesByZero], fun h => hshift h.2, ?_⟩)
        rw [if_neg hshift]
        exact ⟨_, rfl⟩
    | _ => exact .inr (.inr ⟨by simp [DividesByZero], by simp [Overshifts], _, rfl⟩)

end Arith

/-- Arithmetic that a builder has accepted, for all scalars of its operands: it has a result unless
    an integer is divided by zero, except that a vector cannot be shifted by 64 bits or more when
    zeros are brought in. -/
theorem Emit.binary_defined_iff (h : (Emit.binary b op l r).run m = .ok (v, m')) : ∃ ty,
    m'.graph.typeOf v = .ok ty ∧ m.Appended b [⟨.arith op, [l, r], some v, []⟩] m' ∧
    ∀ (σ : Machine) (x y : Scalar), σ.Has l x → σ.Has r y →
      let result := (arith op ⟨.arith op, [l, r], some v, []⟩ ty).run.run σ
      ((∃ s, result = .ok (.ok s, σ)) ∨ result = .ok (.error .divisionByZero, σ) ↔
        ¬ op.Overshifts ty y) ∧
      (result = .ok (.error .divisionByZero, σ) ↔ op.DividesByZero ty y) ∧
      (op.Overshifts ty y → result = .error .arithmeticOverflow) := by
  obtain ⟨lt, _, h1, h⟩ := bind_eq_ok.1 h
  obtain ⟨-, rfl⟩ := typeOf_eq_ok.1 h1
  obtain ⟨rt, _, h2, h⟩ := bind_eq_ok.1 h
  obtain ⟨-, rfl⟩ := typeOf_eq_ok.1 h2
  obtain ⟨ty, _, h3, h⟩ := bind_eq_ok.1 h
  obtain ⟨hty, rfl⟩ := lift_eq_ok.1 h3
  obtain ⟨rfl, hvalues, happ⟩ := emitValue_appended h
  refine ⟨ty, ?_, happ, fun σ x y hx hy => ?_⟩
  · rw [Graph.typeOf, hvalues]
    exact Arena.fetch_eq_ok.2 ((Arena.get?_alloc ..).trans (if_pos rfl))
  intro result
  have hfirst : result = _ := bind_ok (readOperand_run (i := 0) rfl hx)
  by_cases hunary : op.isUnary = true
  · obtain rfl : op = .neg := by
      cases op with
      | neg => rfl
      | _ => cases hunary
    rw [if_pos hunary] at hfirst
    have hok : result = .ok (.ok (Arith.negate ty x), σ) := hfirst
    simp [hok, Arith.Overshifts, Arith.DividesByZero]
  · rw [if_neg hunary] at hfirst
    have hsecond := hfirst.trans (bind_ok (readOperand_run (i := 1) rfl hy))
    rcases Arith.apply_cases (x := x) (y := y) (resultType_eq_ok hty).2
      (Bool.eq_false_iff.2 hunary) with ⟨hover, happly⟩ | ⟨hzero, hover, happly⟩ |
        ⟨hzero, hover, s, happly⟩
    · have hfault : result = .error .arithmeticOverflow := by
        rw [hsecond, happly]
        rfl
      have hzero : ¬ op.DividesByZero ty y := by simp [Arith.DividesByZero, hover.1]
      simp [hfault, hover, hzero]
    · have herror : result = .ok (.error .divisionByZero, σ) :=
        hsecond.trans (bind_ok (lift_ok happly))
      simp [herror, hover, hzero]
    · have hok : result = .ok (.ok s, σ) := hsecond.trans (bind_ok (lift_ok happly))
      simp [hok, hover, hzero]

/-- A case of it: a vector shifted by 130 bits, which count as two. -/
theorem Emit.binary_defined_vector : ∃ m v m' σ, (Emit.binary 0 .ushr 0 1).run m = .ok (v, m') ∧
    m'.graph.typeOf v = .ok .vecInt64 ∧ σ.Has 0 (.int 256) ∧ σ.Has 1 (.int 130) ∧
    ∃ s, (arith .ushr ⟨.arith .ushr, [0, 1], some v, []⟩ .vecInt64).run.run σ = .ok (.ok s, σ) := by
  let m : Method := { Method.new "shift" {} with
    graph := { Graph.new "shift" with values := .ofList [.vecInt64, .int64] } }
  let σ : Machine := { values := #[some (.int 256), some (.int 130)] }
  have hx : σ.Has 0 (.int 256) := rfl
  have hy : σ.Has 1 (.int 130) := rfl
  obtain ⟨v, m', hrun, hty⟩ : ∃ v m', (Emit.binary 0 .ushr 0 1).run m = .ok (v, m') ∧
      m'.graph.typeOf v = .ok .vecInt64 := ⟨_, _, rfl, rfl⟩
  obtain ⟨ty, hty', -, hall⟩ := binary_defined_iff hrun
  cases hty.symm.trans hty'
  obtain ⟨hdefined, hzero, -⟩ := hall σ _ _ hx hy
  refine ⟨m, v, m', σ, hrun, hty, hx, hy, (hdefined.2 ?_).resolve_right (mt hzero.1 ?_)⟩
  · rintro ⟨-, -, hle⟩
    exact absurd hle (by decide)
  · rintro ⟨-, -, h⟩
    exact absurd h (by decide)

/-- A vector is shifted to the right by as many bits as a scalar has. -/
def shifting (op : Arith) : List Request := [
  .call (.defineReturnType .vecInt64), .call (.constInt 0 .vecInt64 256),
  .call (.constInt 0 .int64 64), .call (.binary 0 op 0 1), .call (.returnValue 0 2), .connect]

/-- The method is accepted and found to be in order, and faults when it runs.  With the sign brought
    in instead of zeros it has a result. -/
theorem vector_shift_faults : ∃ m m', (Method.new "shifting" {}).serve (shifting .ushr) = .ok m ∧
    m.graph.verify = .ok () ∧
    (Evaluator.run { graph := m.graph } []).map (·.1) = .error .arithmeticOverflow ∧
    (Method.new "shifting" {}).serve (shifting .shr) = .ok m' ∧
    (Evaluator.run { graph := m'.graph } []).map (·.1) = .ok (.ok (some (.int 256))) := by
  have hcheck : passes ((Method.new "shifting" {}).serve (shifting .ushr)) (fun m => decide (
      m.graph.verify = .ok () ∧ (Evaluator.run { graph := m.graph } []).map (·.1) =
        .error .arithmeticOverflow)) = true := by cbv
  have hcheck' : passes ((Method.new "shifting" {}).serve (shifting .shr)) (fun m => decide (
      (Evaluator.run { graph := m.graph } []).map (·.1) = .ok (.ok (some (.int 256))))) = true := by
    cbv
  obtain ⟨m, hserve, hverify, hrun⟩ := of_passes_decide hcheck
  obtain ⟨m', hserve', hrun'⟩ := of_passes_decide hcheck'
  exact ⟨m, m', hserve, hverify, hrun, hserve', hrun'⟩

end MethodGraph
