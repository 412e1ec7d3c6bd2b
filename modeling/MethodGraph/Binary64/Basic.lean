/-!
  Double-precision numbers by bit pattern.

  A number that is stored in memory can be read back as an integer, so the pattern is what is kept:
  also that of a NaN, whose sign and payload a `Float` does not carry.  Operations on ordinary
  numbers are those of `Float`.  For NaNs the rules are the usual ones of a processor: an operand
  that is a NaN is the result (the first of two, made quiet), and an operation that has no result
  gives the default NaN.

  The remainder is computed exactly on the scaled integers `m · 2 ^ q` that the patterns stand for.
-/

namespace MethodGraph

/-- A double-precision number. -/
structure Binary64 where
  bits : UInt64
  deriving DecidableEq, Repr, Inhabited

namespace Binary64

def zero : Binary64 := ⟨0⟩

def signBit : UInt64 := 0x8000000000000000

def quietBit : UInt64 := 0x0008000000000000

/-- The result of an operation that has none. -/
def defaultNaN : Binary64 := ⟨0xFFF8000000000000⟩

def isNegative (x : Binary64) : Bool := x.bits &&& signBit != 0

/-- The biased exponent. -/
def exponentField (x : Binary64) : Nat := ((x.bits >>> 52) &&& 0x7FF).toNat

/-- The fraction field, without the leading bit of a normal number. -/
def fraction (x : Binary64) : Nat := (x.bits &&& 0x000FFFFFFFFFFFFF).toNat

def isNaN (x : Binary64) : Bool := x.exponentField == 2047 && x.fraction != 0

def isInfinite (x : Binary64) : Bool := x.exponentField == 2047 && x.fraction == 0

def isZero (x : Binary64) : Bool := x.bits &&& ~~~signBit == 0

/-- The leading bit of the significand of a normal number, 2 ^ 52. -/
def leadingBit : Nat := 0x10000000000000

/-- The integer `m` of the magnitude `m · 2 ^ q` of a finite number. -/
def significand (x : Binary64) : Nat :=
  if x.exponentField = 0 then x.fraction else leadingBit + x.fraction

/-- The exponent `q` of the magnitude `m · 2 ^ q` of a finite number. -/
def scale (x : Binary64) : Int :=
  if x.exponentField = 0 then -1074 else x.exponentField - 1075

/-- The number with magnitude `m · 2 ^ q`, for `m < 2 ^ 53` and `-1074 ≤ q`: the significand is
    moved up until it is normal or the exponent is least. -/
def ofMagnitude (negative : Bool) (m : Nat) (q : Int) : Binary64 :=
  let sign := if negative then signBit else 0
  if m = 0 then ⟨sign⟩
  else
    let shift := min (52 - m.log2) (q + 1074).toNat
    let m' := m <<< shift
    let q' := q - shift
    let magnitude := if m' < leadingBit then m' else (q' + 1075).toNat <<< 52 + (m' - leadingBit)
    ⟨sign ||| UInt64.ofNat magnitude⟩

def toFloat (x : Binary64) : Float := Float.ofBits x.bits

def ofFloat (f : Float) : Binary64 := if f.isNaN then defaultNaN else ⟨f.toBits⟩

/-- A NaN made quiet. -/
def quiet (x : Binary64) : Binary64 := ⟨x.bits ||| quietBit⟩

/-- The NaN that a binary operation passes on, if an operand is one. -/
def passOn? (x y : Binary64) : Option Binary64 :=
  if x.isNaN then some x.quiet else if y.isNaN then some y.quiet else none

/-- A binary operation of `Float`, with the rules for NaNs. -/
def lift (op : Float → Float → Float) (x y : Binary64) : Binary64 :=
  (passOn? x y).getD (ofFloat (op x.toFloat y.toFloat))

def add : Binary64 → Binary64 → Binary64 := lift (· + ·)

def sub : Binary64 → Binary64 → Binary64 := lift (· - ·)

def mul : Binary64 → Binary64 → Binary64 := lift (· * ·)

def div : Binary64 → Binary64 → Binary64 := lift (· / ·)

/-- The remainder of the truncating division of finite numbers, with the sign of the dividend. -/
def finiteRem (x y : Binary64) : Binary64 :=
  let q := min x.scale y.scale
  let m := x.significand <<< (x.scale - q).toNat
  let d := y.significand <<< (y.scale - q).toNat
  ofMagnitude x.isNegative (m % d) q

/-- The remainder of the truncating division. -/
def rem (x y : Binary64) : Binary64 :=
  match passOn? x y with
  | some n => n
  | none =>
    if x.isInfinite || y.isZero then defaultNaN
    else if y.isInfinite then x
    else finiteRem x y

/-- Negation changes the sign bit, also of a NaN. -/
def neg (x : Binary64) : Binary64 := ⟨x.bits ^^^ signBit⟩

/-- Equality of numbers: a NaN equals nothing, and the two zeros are equal. -/
def eq (x y : Binary64) : Bool := x.toFloat == y.toFloat

def lt (x y : Binary64) : Bool := x.toFloat < y.toFloat

def le (x y : Binary64) : Bool := x.toFloat ≤ y.toFloat

/-- The integer part, the nearest end of the range for what lies outside, and zero for a NaN. -/
def toInt64 (x : Binary64) : Int64 := if x.isNaN then 0 else x.toFloat.toInt64

/-- The nearest double of a signed integer. -/
def ofInt64 (i : Int64) : Binary64 := ⟨i.toFloat.toBits⟩

/-- The nearest double of an unsigned integer. -/
def ofUInt64 (n : UInt64) : Binary64 := ⟨n.toFloat.toBits⟩

/-! ## Single precision -/

/-- The pattern of the nearest single-precision number; a NaN keeps its sign and the upper part of
    its payload. -/
def toSingleBits (x : Binary64) : UInt32 :=
  if x.isNaN then
    (x.bits >>> 32 &&& 0x80000000).toUInt32 ||| (0x7F800000 : UInt32)
      ||| (x.quiet.bits >>> 29 &&& 0x7FFFFF).toUInt32
  else x.toFloat.toFloat32.toBits

/-- The double with the value of a single-precision pattern; a NaN becomes quiet. -/
def ofSingleBits (b : UInt32) : Binary64 :=
  if b &&& 0x7F800000 == 0x7F800000 && b &&& 0x7FFFFF != 0 then
    quiet ⟨(b &&& 0x80000000).toUInt64 <<< 32 ||| (0x7FF0000000000000 : UInt64)
      ||| (b &&& 0x7FFFFF).toUInt64 <<< 29⟩
  else ⟨(Float32.ofBits b).toFloat.toBits⟩

/-- The nearest number that single precision can hold. -/
def toSingle (x : Binary64) : Binary64 := ofSingleBits x.toSingleBits

end Binary64
end MethodGraph
