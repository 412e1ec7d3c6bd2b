import Mathlib
import MethodGraph.Proofs.Operations
/-!
  Integers of `w` bits in 64-bit registers.

  An integer type holds the words of its width, and the register of a word is its sign extension
  (`Ty.word`); these are the integers in the range of the type.  `Arith.onWords` and `Cmp.onWords`
  are the operators on words of any width.  Cutting a register to the width of the type commutes
  with sums, products and bitwise operators, so these may be computed at full width.  Quotients,
  remainders and shifts to the right of sign-extended words have the right value already, except
  that the least integer divided by -1 is one too large and comes back to itself when it is cut.
  Sign extension keeps the unsigned order as well, because negative words are the greatest ones on
  both sides.
-/

namespace MethodGraph

variable {ty source : Ty} {w : Nat}

/-- The register of a word. -/
def Ty.word (ty : Ty) (x : BitVec ty.bits) : Int64 := .ofBitVec (x.signExtend 64)

/-- An operator on words; nothing on a division by zero. -/
def Arith.onWords (op : Arith) (x y : BitVec w) : Option (BitVec w) :=
  match op with
  | add => some (x + y)
  | sub => some (x - y)
  | mul => some (x * y)
  | div => if y = 0 then none else some (x.sdiv y)
  | rem => if y = 0 then none else some (x.srem y)
  | and => some (x &&& y)
  | or => some (x ||| y)
  | xor => some (x ^^^ y)
  | shl => some (x <<< (y.toNat % w))
  | shr => some (x.sshiftRight (y.toNat % w))
  | ushr => some (x >>> (y.toNat % w))
  | neg => some (-x)

/-- A comparison of words. -/
def Cmp.onWords (c : Cmp) (x y : BitVec w) : Bool :=
  match c with
  | eq => x == y
  | ne => x != y
  | lt => x.slt y
  | le => x.sle y
  | gt => y.slt x
  | ge => y.sle x
  | ult => x.ult y
  | ule => x.ule y
  | ugt => y.ult x
  | uge => y.ule x

/-! ## Registers of words -/

theorem toInt_setWidth_of_le (v : BitVec 64) (hw : w ≤ 64) :
    (v.setWidth w).toInt = v.toInt.bmod (2 ^ w) := by
  rw [← BitVec.signExtend_eq_setWidth_of_le v hw, BitVec.toInt_signExtend_eq_toInt_bmod_of_le v hw]

variable (hty : ty.isInteger = true)

namespace Ty

include hty in
theorem bits_le : ty.bits ≤ 64 ∧ 0 < ty.bits ∧
    ty.bits ∣ 2 ^ ty.bits ∧ ty.minInt = -2 ^ (ty.bits - 1) ∧ ty.maxInt = 2 ^ (ty.bits - 1) - 1 := by
  cases ty with
  | int8 | int16 | int32 | int64 => decide +kernel
  | _ => cases hty

include hty in
theorem wrapInt_eq (v : Int64) : ty.wrapInt v = ty.word (v.toBitVec.setWidth ty.bits) := by
  have hcut : ∀ w ≤ 64, Int64.ofBitVec ((v.toBitVec.signExtend w).signExtend 64) =
      .ofBitVec ((v.toBitVec.setWidth w).signExtend 64) := by
    intro w hw
    rw [BitVec.signExtend_eq_setWidth_of_le _ hw]
  cases ty with
  | int8 => exact hcut 8 (by decide)
  | int16 => exact hcut 16 (by decide)
  | int32 => exact hcut 32 (by decide)
  | int64 =>
    refine Eq.trans ?_ (hcut 64 (Nat.le_refl _))
    rw [BitVec.signExtend_eq, BitVec.signExtend_eq]
    rfl
  | _ => cases hty

include hty in
theorem zeroExtend_eq (v : Int64) :
    ty.zeroExtend v = .ofBitVec ((v.toBitVec.setWidth ty.bits).setWidth 64) := by
  cases ty with
  | int8 | int16 | int32 => rfl
  | int64 => simp [zeroExtend, show int64.bits = 64 from rfl]
  | _ => cases hty

theorem word_zero : ty.word 0 = 0 := by
  simp [word, BitVec.signExtend_eq_setWidth_of_msb_false]

variable (hty : ty.isInteger = true) {x y : BitVec ty.bits}

include hty

theorem toInt_word (x : BitVec ty.bits) : (ty.word x).toBitVec.toInt = x.toInt :=
  BitVec.toInt_signExtend_of_le (bits_le hty).1

theorem setWidth_word (x : BitVec ty.bits) : (ty.word x).toBitVec.setWidth ty.bits = x := by
  apply BitVec.eq_of_toInt_eq
  rw [toInt_setWidth_of_le _ (bits_le hty).1, toInt_word hty, BitVec.toInt_bmod_cancel]

theorem word_inj : ty.word x = ty.word y ↔ x = y := by grind [setWidth_word]

/-- The integers in the range of a type are the registers of words. -/
theorem exists_word_iff (v : Int64) :
    (∃ x, v = ty.word x) ↔ ty.minInt ≤ v.toInt ∧ v.toInt ≤ ty.maxInt := by
  obtain ⟨hle, hpos, -, hmin, hmax⟩ := bits_le hty
  rw [hmin, hmax, ← Int64.toInt_toBitVec]
  constructor
  · rintro ⟨x, rfl⟩
    rw [toInt_word hty]
    exact ⟨x.le_toInt, Int.le_sub_one_of_lt x.toInt_lt⟩
  · rintro ⟨hlow, hhigh⟩
    refine ⟨v.toBitVec.setWidth ty.bits, Int64.toBitVec_inj.1 (BitVec.eq_of_toInt_eq ?_)⟩
    have hpow : (2 : Int) ^ ty.bits = 2 * 2 ^ (ty.bits - 1) := by
      rw [← Int.pow_succ', Nat.sub_add_cancel hpos]
    rw [toInt_word hty, toInt_setWidth_of_le _ hle]
    refine (Int.bmod_eq_of_le ?_ ?_).symm
    · push_cast
      omega
    · push_cast
      omega

end Ty

/-! ## Operators -/

namespace Arith

include hty in
/-- Shifts count with the same number on the word and on its register. -/
theorem shift_word (y : BitVec ty.bits) :
    (ty.word y).toUInt64.toNat % ty.bits = y.toNat % ty.bits := by
  have hy := congrArg BitVec.toNat (Ty.setWidth_word hty y)
  rw [BitVec.toNat_setWidth] at hy
  rw [← hy, Nat.mod_mod_of_dvd _ (Ty.bits_le hty).2.2.1]
  rfl

theorem smod_ofNat : ∀ n < 64, (Int64.ofNat n).toBitVec.smod 64 = BitVec.ofNat 64 n := by
  decide +kernel

include hty in
theorem onInts_word (op : Arith) (x y : BitVec ty.bits) :
    ∃ r, op.onInts ty (ty.word x) (ty.word y) = .ok r ∧
      r.map ty.wrapInt = (op.onWords x y).map ty.word := by
  obtain ⟨hle, hpos, -⟩ := Ty.bits_le hty
  have hx := Ty.setWidth_word hty x
  have hy := Ty.setWidth_word hty y
  have hzero : ty.word y = 0 ↔ y = 0 := by
    rw [← Ty.word_inj hty, Ty.word_zero]
  have hshift := shift_word hty y
  have hcut : ∀ {v : Int64} {z : BitVec ty.bits}, v.toBitVec.setWidth ty.bits = z →
      some (ty.wrapInt v) = some (ty.word z) := by
    rintro v _ rfl
    rw [Ty.wrapInt_eq hty]
  have hlt : y.toNat % ty.bits < 64 := Nat.lt_of_lt_of_le (Nat.mod_lt _ hpos) hle
  have hsmall : (Int64.ofNat (y.toNat % ty.bits % 64)).toBitVec.smod 64 =
      BitVec.ofNat 64 (y.toNat % ty.bits) := by
    rw [Nat.mod_eq_of_lt hlt]
    exact smod_ofNat _ hlt
  have hnat : (BitVec.ofNat 64 (y.toNat % ty.bits)).toNat = y.toNat % ty.bits :=
    Nat.mod_eq_of_lt (Nat.lt_trans hlt (by decide))
  cases op with
  | add => exact ⟨_, rfl, hcut (by rw [Int64.toBitVec_add, BitVec.setWidth_add _ _ hle, hx, hy])⟩
  | sub =>
    refine ⟨_, rfl, hcut ?_⟩
    rw [Int64.toBitVec_sub, BitVec.sub_eq_add_neg, BitVec.setWidth_add _ _ hle,
      BitVec.setWidth_neg_of_le hle, hx, hy, ← BitVec.sub_eq_add_neg]
  | mul => exact ⟨_, rfl, hcut (by rw [Int64.toBitVec_mul, BitVec.setWidth_mul _ _ hle, hx, hy])⟩
  | and => exact ⟨_, rfl, hcut (by rw [Int64.toBitVec_and, BitVec.setWidth_and, hx, hy])⟩
  | or => exact ⟨_, rfl, hcut (by rw [Int64.toBitVec_or, BitVec.setWidth_or, hx, hy])⟩
  | xor => exact ⟨_, rfl, hcut (by rw [Int64.toBitVec_xor, BitVec.setWidth_xor, hx, hy])⟩
  | neg => exact ⟨_, rfl, hcut (by rw [Int64.toBitVec_neg, BitVec.setWidth_neg_of_le hle, hx])⟩
  | div =>
    refine ⟨_, rfl, ?_⟩
    by_cases h : y = 0
    · rw [if_pos (hzero.2 h), onWords, if_pos h]
      rfl
    · rw [if_neg (mt hzero.1 h), onWords, if_neg h]
      refine hcut (BitVec.eq_of_toInt_eq ?_)
      rw [toInt_setWidth_of_le _ hle, Int64.toBitVec_div, BitVec.toInt_sdiv, Ty.toInt_word hty,
        Ty.toInt_word hty, Int.bmod_bmod_of_dvd (Nat.pow_dvd_pow 2 hle), BitVec.toInt_sdiv]
  | rem =>
    refine ⟨_, rfl, ?_⟩
    by_cases h : y = 0
    · rw [if_pos (hzero.2 h), onWords, if_pos h]
      rfl
    · rw [if_neg (mt hzero.1 h), onWords, if_neg h]
      refine hcut (BitVec.eq_of_toInt_eq ?_)
      rw [toInt_setWidth_of_le _ hle, Int64.toBitVec_mod, BitVec.toInt_srem, Ty.toInt_word hty,
        Ty.toInt_word hty, ← BitVec.toInt_srem, BitVec.toInt_bmod_cancel]
  | shl =>
    refine ⟨_, rfl, hcut ?_⟩
    rw [hshift, Int64.toBitVec_shiftLeft, hsmall, BitVec.shiftLeft_eq', hnat,
      BitVec.setWidth_shiftLeft_of_le hle, hx]
  | shr =>
    refine ⟨_, rfl, hcut (BitVec.eq_of_toInt_eq ?_)⟩
    rw [hshift, toInt_setWidth_of_le _ hle, Int64.toBitVec_shiftRight, hsmall,
      BitVec.sshiftRight_eq', hnat, BitVec.toInt_sshiftRight, Ty.toInt_word hty,
      ← BitVec.toInt_sshiftRight, BitVec.toInt_bmod_cancel]
  | ushr =>
    refine ⟨_, if_pos (by rw [hshift]; exact hlt), hcut (BitVec.eq_of_toNat_eq ?_)⟩
    rw [hshift, Ty.zeroExtend_eq hty, hx]
    show ((x.setWidth 64 >>> ((BitVec.ofNat 64 (y.toNat % ty.bits)) % 64)).setWidth ty.bits).toNat =
      (x >>> (y.toNat % ty.bits)).toNat
    rw [BitVec.ushiftRight_eq', BitVec.toNat_umod, hnat, BitVec.toNat_setWidth,
      BitVec.toNat_ushiftRight, BitVec.toNat_setWidth_of_le hle, BitVec.toNat_ushiftRight]
    show x.toNat >>> (y.toNat % ty.bits % 64) % 2 ^ ty.bits = x.toNat >>> (y.toNat % ty.bits)
    rw [Nat.mod_eq_of_lt hlt]
    exact Nat.mod_eq_of_lt (Nat.lt_of_le_of_lt (Nat.shiftRight_le ..) x.isLt)

include hty in
theorem apply_word (op : Arith) (x y : BitVec ty.bits) :
    op.apply ty (.int (ty.word x)) (.int (ty.word y)) =
      .ok ((op.onWords x y).map fun z => .int (ty.word z)) := by
  obtain ⟨r, hr, hwords⟩ := onInts_word hty op x y
  have happly : op.apply ty (.int (ty.word x)) (.int (ty.word y)) =
      .ok (r.map fun v => .int (ty.wrapInt v)) := by
    unfold apply
    rw [(Ty.isFloating_of_isInteger hty).1, if_neg Bool.false_ne_true]
    show (op.onInts ty (ty.word x) (ty.word y) >>= _) = _
    rw [hr]
    rfl
  have hmap := congrArg (Option.map Scalar.int) hwords
  rw [Option.map_map, Option.map_map] at hmap
  exact happly.trans (congrArg Except.ok hmap)

include hty in
theorem negate_word (x : BitVec ty.bits) : negate ty (.int (ty.word x)) = .int (ty.word (-x)) := by
  obtain ⟨r, hr, hwords⟩ := onInts_word hty .neg x x
  cases hr
  exact congrArg Scalar.int (Option.some.inj hwords)

end Arith

include hty in
theorem Exec.arith_word {a : Arith} {op : Operation} {σ : Machine} {x y : BitVec ty.bits}
    (hx : (readOperand op 0).run.run σ = .ok (.ok (.int (ty.word x)), σ))
    (hy : a.isUnary = false → (readOperand op 1).run.run σ = .ok (.ok (.int (ty.word y)), σ)) :
    (arith a op ty).run.run σ = .ok ((a.onWords x y).elim (.error .divisionByZero) fun z =>
      .ok (.int (ty.word z)), σ) := by
  refine (bind_ok hx).trans ?_
  by_cases hunary : a.isUnary = true
  · obtain rfl : a = .neg := by
      cases a with
      | neg => rfl
      | _ => cases hunary
    rw [if_pos hunary, Arith.negate_word hty]
    rfl
  · rw [if_neg hunary]
    refine (bind_ok (hy (Bool.eq_false_iff.2 hunary))).trans ?_
    refine (bind_ok (lift_ok (Arith.apply_word hty a x y))).trans ?_
    cases a.onWords x y <;> rfl

/-! ## Comparisons -/

include hty in
theorem Cmp.holdsInt_word (c : Cmp) (x y : BitVec ty.bits) :
    c.holdsInt (ty.word x) (ty.word y) = c.onWords x y := by
  have hlt : ∀ x y : BitVec ty.bits, decide (ty.word x < ty.word y) = x.slt y := by
    grind [BitVec.slt_eq_decide, Int64.lt_iff_toInt_lt, Int64.toInt_toBitVec, Ty.toInt_word]
  have hle : ∀ x y : BitVec ty.bits, decide (ty.word x ≤ ty.word y) = x.sle y := by
    grind [BitVec.sle_eq_decide, Int64.le_iff_toInt_le, Int64.toInt_toBitVec, Ty.toInt_word]
  have hult : ∀ x y : BitVec ty.bits,
      ((ty.word x).toUInt64 < (ty.word y).toUInt64 ↔ x.toNat < y.toNat) ∧
      ((ty.word x).toUInt64 ≤ (ty.word y).toUInt64 ↔ x.toNat ≤ y.toNat) := by
    intro x y
    obtain ⟨hle, hpos, -⟩ := Ty.bits_le hty
    have hpow : 2 ^ ty.bits = 2 * 2 ^ (ty.bits - 1) := by
      rw [← Nat.pow_succ', Nat.succ_eq_add_one, Nat.sub_add_cancel hpos]
    have hwide : 2 ^ ty.bits ≤ 2 ^ 64 := Nat.pow_le_pow_right (by decide) hle
    have hnat : ∀ z : BitVec ty.bits, (ty.word z).toUInt64.toNat =
        z.toNat + if 2 ^ (ty.bits - 1) ≤ z.toNat then 2 ^ 64 - 2 ^ ty.bits else 0 := by
      intro z
      have hz := BitVec.toNat_signExtend z (v := 64)
      simp only [BitVec.toNat_setWidth_of_le hle, BitVec.msb_eq_decide, decide_eq_true_eq] at hz
      exact hz
    rw [UInt64.lt_iff_toNat_lt, UInt64.le_iff_toNat_le, hnat, hnat]
    have := x.isLt
    have := y.isLt
    constructor <;> split <;> split <;> omega
  have heq : (ty.word x == ty.word y) = (x == y) := by
    rw [Bool.eq_iff_iff, beq_iff_eq, beq_iff_eq, Ty.word_inj hty]
  cases c with
  | eq => exact heq
  | ne => exact congrArg (!·) heq
  | lt => exact hlt x y
  | le => exact hle x y
  | gt => exact hlt y x
  | ge => exact hle y x
  | ult => exact decide_eq_decide.2 (hult x y).1
  | ule => exact decide_eq_decide.2 (hult x y).2
  | ugt => exact decide_eq_decide.2 (hult y x).1
  | uge => exact decide_eq_decide.2 (hult y x).2

/-! ## Conversions -/

theorem Scalar.convert_word (hsource : source.isInteger = true) (hty : ty.isInteger = true)
    (x : BitVec source.bits) (unsigned : Bool) :
    (Scalar.int (source.word x)).convert source ty unsigned =
      .int (ty.word (if unsigned then x.setWidth ty.bits else x.signExtend ty.bits)) := by
  have hfloat := (Ty.isFloating_of_isInteger hty).1
  have hle := (Ty.bits_le hty).1
  unfold convert
  rw [if_neg (by simp [hfloat])]
  cases unsigned with
  | true =>
    show Scalar.int (ty.wrapInt (source.zeroExtend (source.word x))) = .int (ty.word (x.setWidth _))
    rw [Ty.wrapInt_eq hty, Ty.zeroExtend_eq hsource, Ty.setWidth_word hsource,
      Int64.toBitVec_ofBitVec, BitVec.setWidth_setWidth_of_le _ hle]
  | false =>
    show Scalar.int (ty.wrapInt (source.word x)) = .int (ty.word (x.signExtend _))
    rw [Ty.wrapInt_eq hty]
    refine congrArg (fun z => Scalar.int (ty.word z)) ?_
    ext i hi
    have h64 : i < 64 := Nat.lt_of_lt_of_le hi hle
    simp [Ty.word, BitVec.getElem_signExtend, h64]

/-- The integers of a type are words in registers: what an operation computes is the result on
    words, which does not exist only if the divisor is zero.  The least word divided by -1 is
    itself, with no remainder. -/
theorem Exec.words_exact (hty : ty.isInteger = true) :
    (∀ v : Int64, (∃ x, v = ty.word x) ↔ ty.minInt ≤ v.toInt ∧ v.toInt ≤ ty.maxInt) ∧
    (∀ (a : Arith) (op : Operation) (σ : Machine) (x y : BitVec ty.bits),
      (readOperand op 0).run.run σ = .ok (.ok (.int (ty.word x)), σ) →
      (a.isUnary = false → (readOperand op 1).run.run σ = .ok (.ok (.int (ty.word y)), σ)) →
      (arith a op ty).run.run σ = .ok ((a.onWords x y).elim (.error .divisionByZero) fun z =>
        .ok (.int (ty.word z)), σ)) ∧
    (∀ (a : Arith) (x y : BitVec ty.bits),
      a.onWords x y = none ↔ (a = .div ∨ a = .rem) ∧ y = 0) ∧
    Arith.div.onWords (BitVec.intMin ty.bits) (-1) = some (BitVec.intMin ty.bits) ∧
    Arith.rem.onWords (BitVec.intMin ty.bits) (-1) = some 0 ∧
    (∀ (c : Cmp) (x y : BitVec ty.bits), c.holdsInt (ty.word x) (ty.word y) = c.onWords x y) ∧
    ∀ (source : Ty), source.isInteger = true → ∀ (x : BitVec source.bits) (unsigned : Bool),
      (Scalar.int (source.word x)).convert source ty unsigned =
        .int (ty.word (if unsigned then x.setWidth ty.bits else x.signExtend ty.bits)) := by
  have hleast : Arith.div.onWords (BitVec.intMin ty.bits) (-1) = some (BitVec.intMin ty.bits) ∧
      Arith.rem.onWords (BitVec.intMin ty.bits) (-1) = some 0 := by
    cases ty with
    | int8 | int16 | int32 | int64 => decide +kernel
    | _ => cases hty
  refine ⟨Ty.exists_word_iff hty, fun a op σ x y => arith_word hty, fun a x y => ?_, hleast.1,
    hleast.2, Cmp.holdsInt_word hty, fun source hsource x => Scalar.convert_word hsource hty x⟩
  cases a <;> simp [Arith.onWords]

/-- A case of it: -128 divided by -1 at 8 bits. -/
theorem Exec.words_exact_least : ∃ σ : Machine, σ.Has 0 (.int (-128)) ∧ σ.Has 1 (.int (-1)) ∧
    (arith .div { opcode := .arith .div, operands := [0, 1], result := some 2 } .int8).run.run σ =
      .ok (.ok (.int (-128)), σ) := by
  refine ⟨{ values := #[some (.int (-128)), some (.int (-1))] }, rfl, rfl, ?_⟩
  exact (@words_exact .int8 rfl).2.1 .div _ _ (BitVec.intMin 8) (-1)
    (readOperand_run (v := 0) rfl rfl) fun _ => readOperand_run (v := 1) rfl rfl

end MethodGraph
