import MethodGraph.Binary64.Basic
import MethodGraph.Fault
/-!
  Scalars and what the operators do to them.

  Every value is computed as a scalar: a 64-bit integer, into which narrower integers and addresses
  are sign-extended, or a double, into which single-precision numbers are widened.  An operation on
  a type computes at full width and then brings its result back to the type (`wrapInt`,
  `roundFloat`), which for integers of `w` bits is arithmetic modulo `2 ^ w`.

  Dividing an integer by zero has no result (`none`); the faults are a bitwise operator on
  floating-point scalars and a shift by more than the scalar's own width.
-/

namespace MethodGraph

/-- A computed value. -/
inductive Scalar where
  | int (v : Int64)
  | float (x : Binary64)
  deriving DecidableEq, Repr, Inhabited

namespace Scalar

/-- The scalar as an integer: a double loses its fraction. -/
def toInt : Scalar → Int64
  | int v => v
  | float x => x.toInt64

/-- The scalar as a double: the nearest one of an integer. -/
def toFloat : Scalar → Binary64
  | int v => .ofInt64 v
  | float x => x

/-- The zero of a type; that of a vector is the zero of its elements. -/
def zero (ty : Ty) : Scalar :=
  if ty.element.isFloating then float .zero else int 0

end Scalar

namespace Ty

/-- Cut an integer to the width of a type and extend its sign again. -/
def wrapInt : Ty → Int64 → Int64
  | int8, v => v.toInt8.toInt64
  | int16, v => v.toInt16.toInt64
  | int32, v => v.toInt32.toInt64
  | _, v => v

/-- Cut an integer to the width of a type and extend it by zeros. -/
def zeroExtend : Ty → Int64 → Int64
  | int8, v => v.toUInt64.toUInt8.toUInt64.toInt64
  | int16, v => v.toUInt64.toUInt16.toUInt64.toInt64
  | int32, v => v.toUInt64.toUInt32.toUInt64.toInt64
  | _, v => v

/-- The least integer of a type. -/
def minInt : Ty → Int
  | int8 => -128
  | int16 => -32768
  | int32 => -2147483648
  | _ => -9223372036854775808

/-- The greatest integer of a type. -/
def maxInt : Ty → Int
  | int8 => 127
  | int16 => 32767
  | int32 => 2147483647
  | _ => 9223372036854775807

/-- Round a double to what a type can hold. -/
def roundFloat (ty : Ty) (x : Binary64) : Binary64 := if ty = float then x.toSingle else x

/-- The number of bits that a shift of the type counts with. -/
def bits (ty : Ty) : Nat := max ty.size 1 * 8

end Ty

namespace Cmp

/-- The comparison of two doubles; the unsigned forms are the signed ones. -/
def holdsFloat : Cmp → Binary64 → Binary64 → Bool
  | eq, a, b => a.eq b
  | ne, a, b => !a.eq b
  | lt, a, b | ult, a, b => a.lt b
  | le, a, b | ule, a, b => a.le b
  | gt, a, b | ugt, a, b => b.lt a
  | ge, a, b | uge, a, b => b.le a

/-- The comparison of two scalars as values of a type. -/
def holds (c : Cmp) (ty : Ty) (a b : Scalar) : Bool :=
  if ty.isFloating then c.holdsFloat a.toFloat b.toFloat else c.holdsInt a.toInt b.toInt

end Cmp

namespace Arith

/-- A binary operator on doubles. -/
def onFloats (op : Arith) (a b : Binary64) : Except Fault Binary64 :=
  match op with
  | add => .ok (a.add b)
  | sub => .ok (a.sub b)
  | mul => .ok (a.mul b)
  | div => .ok (a.div b)
  | rem => .ok (a.rem b)
  | _ => .error (.bitwiseOnFloating op)

/-- A binary operator on 64-bit integers, before the result is brought back to the type. -/
def onInts (op : Arith) (ty : Ty) (a b : Int64) : Except Fault (Option Int64) :=
  let shift := b.toUInt64.toNat % ty.bits
  match op with
  | add => .ok (some (a + b))
  | sub => .ok (some (a - b))
  | mul => .ok (some (a * b))
  | div => .ok (if b = 0 then none else some (a / b))
  | rem => .ok (if b = 0 then none else some (a % b))
  | and => .ok (some (a &&& b))
  | or => .ok (some (a ||| b))
  | xor => .ok (some (a ^^^ b))
  | shl => .ok (some (a <<< Int64.ofNat (shift % 64)))
  | shr => .ok (some (a >>> Int64.ofNat (shift % 64)))
  | ushr =>
    if shift < 64 then
      .ok (some ((ty.zeroExtend a).toUInt64 >>> UInt64.ofNat shift).toInt64)
    else .error .arithmeticOverflow
  | neg => .ok (some (-a))

/-- Negation of a scalar as a value of a type. -/
def negate (ty : Ty) : Scalar → Scalar
  | .float x => .float x.neg
  | .int v => .int (ty.wrapInt (-v))

/-- A binary operator on scalars as values of a type; nothing on an integer division by zero. -/
def apply (op : Arith) (ty : Ty) (a b : Scalar) : Except Fault (Option Scalar) :=
  if ty.isFloating then do
    let r ← op.onFloats a.toFloat b.toFloat
    return some (.float (ty.roundFloat r))
  else do
    let r ← op.onInts ty a.toInt b.toInt
    return r.map fun v => .int (ty.wrapInt v)

/-- The exact result of an operator on integers; every operator without a checked form counts as
    multiplication. -/
def exactResult (op : Arith) (a b : Int) : Int :=
  match op with
  | add => a + b
  | sub => a - b
  | _ => a * b

/-- The result of an overflow-checked operator, if it fits the type. -/
def checked? (op : Arith) (ty : Ty) (a b : Int64) : Option Int64 :=
  let r := op.exactResult a.toInt b.toInt
  if r < ty.minInt ∨ ty.maxInt < r then none else some (Int64.ofInt r)

end Arith

namespace Scalar

/-- A scalar of type `source` as one of type `target`; the unsigned form reads an integer of the
    source type without its sign. -/
def convert (s : Scalar) (source target : Ty) (unsigned : Bool) : Scalar :=
  if target.isFloating then
    let x := match s with
      | float x => x
      | int v => if unsigned then .ofUInt64 (source.zeroExtend v).toUInt64 else .ofInt64 v
    float (target.roundFloat x)
  else
    let v := match s with
      | float x => x.toInt64
      | int v => if unsigned then source.zeroExtend v else v
    int (target.wrapInt v)

end Scalar
end MethodGraph
