import Mathlib.Algebra.Group.Nat.Defs
import MethodGraph.Eval.Memory
/-!
  What memory keeps.

  A scalar written to memory is read from there as it was, up to what its type can hold, and bytes
  elsewhere stay as they are.  The argument is about bytes: writing a number and reading it back is
  taking it modulo a power of 256, and cutting an integer to the width of its type looks at those
  bytes only.

  A `Cell` is a scalar together with the place where it is to be kept.  Cells that do not overlap
  can be written one after another, and afterwards each of them has its scalar
  (`Memory.peek_keepAll`).
-/

namespace MethodGraph

open Nat List Option Scalar Int64 UInt64 Array

variable {address : Int64} {m m' : Memory} {i n p : Nat} {a : Scalar} {ty : Ty}

namespace Memory

/-! ## Bytes -/

theorem size_writeBytes (m : Memory) (p n : Nat) (w : UInt64) :
    (m.writeBytes p n w).size = m.size := by
  induction n generalizing m p w with
  | zero => rfl
  | succ n ih => exact (ih _ _ _).trans size_setIfInBounds

theorem bytes_writeBytes (m : Memory) (p n : Nat) (w : UInt64)
    (hi : i < p ∨ p + n ≤ i) : (m.writeBytes p n w).bytes[i]? = m.bytes[i]? := by
  induction n generalizing m p w with
  | zero => rfl
  | succ n ih =>
    refine (ih _ _ _ (by omega)).trans ?_
    exact getElem?_setIfInBounds_ne (by omega)

/-- Reading looks at the bytes of its range only. -/
theorem readBytes_congr (h : ∀ i, p ≤ i → i < p + n → m'.bytes[i]? = m.bytes[i]?) :
    m'.readBytes p n = m.readBytes p n := by
  induction n generalizing p with
  | zero => rfl
  | succ n ih =>
    have hbyte : m'.bytes.getD p 0 = m.bytes.getD p 0 := by
      rw [Array.getD_eq_getD_getElem?, Array.getD_eq_getD_getElem?, h p (Nat.le_refl _) (by omega)]
    unfold readBytes
    rw [hbyte, ih fun i hlo hhi => h i (by omega) (by omega)]

/-- What was written is read, as far as there are bytes for it. -/
theorem readBytes_writeBytes (m : Memory) (p n : Nat) (w : UInt64) (h : p + n ≤ m.size) :
    (m.writeBytes p n w).readBytes p n = w.toNat % 256 ^ n := by
  induction n generalizing m p w with
  | zero => simp [readBytes, Nat.mod_one]
  | succ n ih =>
    have hlt : p < m.bytes.size := by
      have : m.size = m.bytes.size := rfl
      omega
    let m1 : Memory := ⟨m.bytes.setIfInBounds p w.toUInt8⟩
    have hsize : m1.size = m.size := Array.size_setIfInBounds
    have hfirst : (m1.writeBytes (p + 1) n (w >>> 8)).bytes.getD p 0 = w.toUInt8 := by
      rw [Array.getD_eq_getD_getElem?, bytes_writeBytes m1 (p + 1) n _ (by omega),
        Array.getElem?_setIfInBounds_self, if_pos hlt]
      rfl
    have hshift : (w >>> 8).toNat = w.toNat / 256 := by
      rw [UInt64.toNat_shiftRight]
      exact Nat.shiftRight_eq_div_pow _ _
    calc (m.writeBytes p (n + 1) w).readBytes p (n + 1)
        = w.toUInt8.toNat + 256 * ((w >>> 8).toNat % 256 ^ n) := by
          rw [← ih m1 (p + 1) (w >>> 8) (by omega), ← hfirst]
          rfl
      _ = w.toNat % 256 + 256 * (w.toNat / 256 % 256 ^ n) := by
          rw [hshift, UInt64.toNat_toUInt8]
      _ = w.toNat % 256 ^ (n + 1) := by
          rw [Nat.pow_succ', Nat.mod_mul]

end Memory

/-! ## Scalars -/

namespace Ty

/-- Integers and addresses. -/
def isIntegral (ty : Ty) : Bool := ty.isInteger || ty == .address

/-- The types whose scalars are of the kind of `a`: integers and addresses, or floating-point
    numbers. -/
def suits (ty : Ty) : Scalar → Bool
  | .int _ => ty.isInteger || ty == .address
  | .float _ => ty.isFloating

/-- What a type can hold of a scalar. -/
def cut (ty : Ty) : Scalar → Scalar
  | .int v => .int (ty.wrapInt v)
  | .float x => .float (ty.roundFloat x)

/-- The scalar is one of the type. -/
def Holds (ty : Ty) (a : Scalar) : Prop := ty.suits a = true ∧ ty.cut a = a

instance (ty : Ty) (a : Scalar) : Decidable (ty.Holds a) := inferInstanceAs (Decidable (_ ∧ _))

/-- Cutting an integer looks at the low bytes only, as many as the type has. -/
theorem wrapInt_low (hty : ty.isInteger = true ∨ ty = .address) (v : Int64) :
    ty.wrapInt (UInt64.ofNat (v.toUInt64.toNat % 256 ^ ty.size)).toInt64 = ty.wrapInt v := by
  have hlow : ∀ n ≤ 64, (UInt64.ofNat (v.toUInt64.toNat % 2 ^ n)).toBitVec.setWidth n =
      v.toBitVec.setWidth n := by
    intro n hn
    apply BitVec.eq_of_toNat_eq
    have hpow : 2 ^ n ∣ 2 ^ 64 := Nat.pow_dvd_pow 2 hn
    simp only [BitVec.toNat_setWidth, UInt64.toNat_toBitVec, UInt64.toNat_ofNat']
    rw [mod_mod_of_dvd _ hpow, mod_mod]
    rfl
  have hwide : (UInt64.ofNat (v.toUInt64.toNat % 2 ^ 64)).toInt64 = v := by
    apply toBitVec_inj.1
    have h := hlow 64 (Nat.le_refl _)
    rwa [BitVec.setWidth_eq, BitVec.setWidth_eq] at h
  rcases hty with hty | rfl
  · cases ty with
    | int8 =>
      refine congrArg Int8.toInt64 (Int8.toBitVec_inj.1 ?_)
      rw [toBitVec_toInt8, toBitVec_toInt8,
        BitVec.signExtend_eq_setWidth_of_le _ (by decide),
        BitVec.signExtend_eq_setWidth_of_le _ (by decide)]
      exact hlow 8 (by decide)
    | int16 =>
      refine congrArg Int16.toInt64 (Int16.toBitVec_inj.1 ?_)
      rw [toBitVec_toInt16, toBitVec_toInt16,
        BitVec.signExtend_eq_setWidth_of_le _ (by decide),
        BitVec.signExtend_eq_setWidth_of_le _ (by decide)]
      exact hlow 16 (by decide)
    | int32 =>
      refine congrArg Int32.toInt64 (Int32.toBitVec_inj.1 ?_)
      rw [toBitVec_toInt32, toBitVec_toInt32,
        BitVec.signExtend_eq_setWidth_of_le _ (by decide),
        BitVec.signExtend_eq_setWidth_of_le _ (by decide)]
      exact hlow 32 (by decide)
    | int64 => exact hwide
    | _ => cases hty
  · exact hwide

end Ty

namespace Memory

/-- A scalar of the kind of its type is read as far as the type can hold it. -/
theorem decode_encode (h : ty.suits a = true) :
    decode ty (UInt64.ofNat ((encode ty a).toNat % 256 ^ ty.size)) = ty.cut a := by
  cases a with
  | int v =>
    have hty : ty.isInteger = true ∨ ty = .address := by simpa [Ty.suits] using h
    have hcut :
        Scalar.int (ty.wrapInt (UInt64.ofNat (v.toUInt64.toNat % 256 ^ ty.size)).toInt64) =
        ty.cut (.int v) := congrArg Scalar.int (Ty.wrapInt_low hty v)
    cases ty with
    | float | double => cases h
    | _ => exact hcut
  | float x =>
    cases ty with
    | float =>
      have hbits : (UInt64.ofNat (x.toSingleBits.toUInt64.toNat % 256 ^ 4)).toUInt32 =
          x.toSingleBits := by
        apply UInt32.toNat_inj.1
        have hlt := x.toSingleBits.toNat_lt
        simp only [UInt32.toNat_toUInt64, UInt64.toNat_toUInt32, UInt64.toNat_ofNat']
        omega
      show Scalar.float (.ofSingleBits _) = _
      rw [show (encode .float (.float x)) = x.toSingleBits.toUInt64 from rfl]
      exact congrArg (fun b => Scalar.float (.ofSingleBits b)) hbits
    | double =>
      have hbits : UInt64.ofNat (x.bits.toNat % 256 ^ 8) = x.bits := by
        apply UInt64.toNat_inj.1
        have hlt := x.bits.toNat_lt
        rw [UInt64.toNat_ofNat']
        omega
      exact congrArg (fun b => Scalar.float ⟨b⟩) hbits
    | _ => cases h

theorem read_write (h : ty.suits a = true)
    (hp : p + ty.size ≤ m.size) : (m.write p ty a).read p ty = ty.cut a := by
  unfold read write
  rw [readBytes_writeBytes m p ty.size _ hp]
  exact decode_encode h

end Memory

/-! ## Cells -/

/-- A scalar with the place where it is to be kept. -/
structure Cell where
  address : Int64
  ty : Ty
  content : Scalar
  deriving DecidableEq, Repr

namespace Cell

/-- All bytes of the cell are in the memory. -/
def Within (c : Cell) (m : Memory) : Prop := (m.position? c.address c.ty.size).isSome = true

/-- The bytes of two cells are different. -/
def Apart (c d : Cell) : Prop :=
  c.address.toInt + c.ty.size ≤ d.address.toInt ∨ d.address.toInt + d.ty.size ≤ c.address.toInt

/-- The byte at a position is one of the cell. -/
def Covers (c : Cell) (i : Nat) : Prop :=
  c.address.toInt ≤ Memory.base + i ∧ Memory.base + i < c.address.toInt + c.ty.size

instance (c : Cell) (m : Memory) : Decidable (c.Within m) := inferInstanceAs (Decidable (_ = _))

instance (c d : Cell) : Decidable (c.Apart d) := inferInstanceAs (Decidable (_ ∨ _))

theorem within_mk :
    Within ⟨address, ty, a⟩ m ↔ (m.position? address ty.size).isSome = true := Iff.rfl

theorem Apart.symm {c d : Cell} (h : c.Apart d) : d.Apart c := Or.symm h

end Cell

namespace Memory

variable {m : Memory} {c d : Cell} {cs : List Cell}

theorem position?_eq_some :
    m.position? address n = some p ↔ address.toInt = base + p ∧ p + n ≤ m.size := by
  grind [position?]

/-- Put the content of a cell into its place, if it is there. -/
def keep (m : Memory) (c : Cell) : Memory :=
  match m.position? c.address c.ty.size with
  | some p => m.write p c.ty c.content
  | none => m

/-- Put the contents of several cells into their places, in order. -/
def keepAll (m : Memory) (cs : List Cell) : Memory := cs.foldl keep m

/-- The scalar of a type at an address, or zero if not all of it is there. -/
def peek (m : Memory) (address : Int64) (ty : Ty) : Scalar :=
  match m.position? address ty.size with
  | some p => m.read p ty
  | none => .int 0

theorem size_keep (m : Memory) (c : Cell) : (m.keep c).size = m.size := by
  unfold keep
  split
  · exact m.size_writeBytes _ _ _
  · rfl

theorem size_keepAll (m : Memory) (cs : List Cell) : (m.keepAll cs).size = m.size := by
  induction cs generalizing m with
  | nil => rfl
  | cons c cs ih => exact (ih (m.keep c)).trans (m.size_keep c)

theorem keepAll_append (m : Memory) (cs ds : List Cell) :
    m.keepAll (cs ++ ds) = (m.keepAll cs).keepAll ds := List.foldl_append

theorem position?_congr (h : m'.size = m.size) (address : Int64) (n : Nat) :
    m'.position? address n = m.position? address n := by
  unfold position?
  rw [h]

theorem within_congr (h : m'.size = m.size) : c.Within m' ↔ c.Within m := by
  unfold Cell.Within
  rw [position?_congr h]

theorem load_eq_peek (hsize : ty.size ≤ 8) (h : (m.position? address ty.size).isSome = true) :
    m.load address ty = .ok (.ok (m.peek address ty)) := by
  obtain ⟨p, hp⟩ := Option.isSome_iff_exists.1 h
  unfold load access peek
  rw [hp]
  dsimp only
  rw [if_neg (Nat.not_lt.2 hsize)]
  rfl

theorem access_of_within (hsize : c.ty.size ≤ 8) (h : c.Within m) :
    ∃ p, m.access c.address c.ty = .ok (.ok p) ∧ m.keep c = m.write p c.ty c.content := by
  obtain ⟨p, hp⟩ := isSome_iff_exists.1 h
  refine ⟨p, ?_, ?_⟩
  · unfold access
    rw [hp]
    exact if_neg (Nat.not_lt.2 hsize)
  · unfold keep
    rw [hp]

theorem bytes_keep (h : ¬ c.Covers i) : (m.keep c).bytes[i]? = m.bytes[i]? := by
  unfold keep
  split
  · grind [write, Cell.Covers, position?, m.bytes_writeBytes]
  · rfl

/-- Bytes of none of the cells stay as they are. -/
theorem bytes_keepAll (h : ∀ c ∈ cs, ¬ c.Covers i) : (m.keepAll cs).bytes[i]? = m.bytes[i]? := by
  induction cs generalizing m with
  | nil => rfl
  | cons c cs ih =>
    exact (ih fun d hd => h d (mem_cons_of_mem _ hd)).trans
      (bytes_keep (h c mem_cons_self))

theorem peek_keep_self (hc : c.Within m) (hs : c.ty.suits c.content = true) :
    (m.keep c).peek c.address c.ty = c.ty.cut c.content := by
  grind [position?, read_write, peek, keep, Cell.Within, m.size_keep]

/-- What one cell keeps does not change another. -/
theorem peek_keep_apart (h : c.Apart d) :
    (m.keep c).peek d.address d.ty = m.peek d.address d.ty := by
  unfold peek
  rw [position?_congr (m.size_keep c)]
  cases hp : m.position? d.address d.ty.size with
  | none => rfl
  | some p => grind [readBytes_congr, bytes_keep, Cell.Covers, read, Cell.Apart, position?]

theorem peek_keepAll_apart (h : ∀ c ∈ cs, c.Apart d) :
    (m.keepAll cs).peek d.address d.ty = m.peek d.address d.ty := by
  induction cs generalizing m with
  | nil => rfl
  | cons c cs ih =>
    exact (ih fun e he => h e (mem_cons_of_mem _ he)).trans
      (peek_keep_apart (h c mem_cons_self))

/-- After all cells have been written, each of them has its scalar. -/
theorem peek_keepAll (hcs : cs.Pairwise Cell.Apart) (hin : ∀ c ∈ cs, c.Within m)
    (hs : ∀ c ∈ cs, c.ty.suits c.content = true) :
    ∀ c ∈ cs, (m.keepAll cs).peek c.address c.ty = c.ty.cut c.content := by
  induction cs generalizing m with
  | nil => exact fun c hc => absurd hc not_mem_nil
  | cons c cs ih =>
    obtain ⟨hapart, hcs⟩ := pairwise_cons.1 hcs
    have hsize := m.size_keep c
    intro d hd
    rcases mem_cons.1 hd with rfl | hd
    · refine (peek_keepAll_apart fun e he => (hapart e he).symm).trans ?_
      exact peek_keep_self (hin d mem_cons_self) (hs d mem_cons_self)
    · exact ih hcs (fun e he => (within_congr hsize).2 (hin e (mem_cons_of_mem _ he)))
        (fun e he => hs e (mem_cons_of_mem _ he)) d hd

end Memory
end MethodGraph
