/-!
  The types of values.

  A value has one machine-level type: nothing, an integer of one of four widths, one of two
  floating-point formats, an address, or a sixteen-byte vector of the numeric types.  Aggregates
  and pointers are described elsewhere (`TypeTable`); a value only ever sees the type it collapses
  to.
-/

namespace MethodGraph

/-- The type of a value. -/
inductive Ty where
  | void
  | int8
  | int16
  | int32
  | int64
  /-- The 32-bit floating-point format. -/
  | float
  /-- The 64-bit floating-point format. -/
  | double
  | address
  | vecInt8
  | vecInt16
  | vecInt32
  | vecInt64
  | vecFloat
  | vecDouble
  deriving DecidableEq, Repr, Inhabited

namespace Ty

/-- Every type, in the order of its codes. -/
def all : List Ty :=
  [void, int8, int16, int32, int64, float, double, address,
    vecInt8, vecInt16, vecInt32, vecInt64, vecFloat, vecDouble]

/-- The number of a type: scalars count from zero, vectors from sixteen. -/
def code : Ty → Nat
  | void => 0
  | int8 => 1
  | int16 => 2
  | int32 => 3
  | int64 => 4
  | float => 5
  | double => 6
  | address => 7
  | vecInt8 => 16
  | vecInt16 => 17
  | vecInt32 => 18
  | vecInt64 => 19
  | vecFloat => 20
  | vecDouble => 21

/-- The name by which listings and type tables call a type. -/
def name : Ty → String
  | void => "NoType"
  | int8 => "Int8"
  | int16 => "Int16"
  | int32 => "Int32"
  | int64 => "Int64"
  | float => "Float"
  | double => "Double"
  | address => "Address"
  | vecInt8 => "VectorInt8"
  | vecInt16 => "VectorInt16"
  | vecInt32 => "VectorInt32"
  | vecInt64 => "VectorInt64"
  | vecFloat => "VectorFloat"
  | vecDouble => "VectorDouble"

/-- The type called `s`, if there is one. -/
def ofName? (s : String) : Option Ty := all.find? (·.name == s)

/-- Integers proper; an address is not one. -/
def isInteger : Ty → Bool
  | int8 | int16 | int32 | int64 => true
  | _ => false

/-- The two scalar floating-point formats. -/
def isFloating : Ty → Bool
  | float | double => true
  | _ => false

def isVector (t : Ty) : Bool := 16 ≤ t.code

def isNumeric (t : Ty) : Bool := t.isInteger || t.isFloating

/-- Bytes a value of the type takes in memory. -/
def size : Ty → Nat
  | void => 0
  | int8 => 1
  | int16 => 2
  | int32 | float => 4
  | int64 | double | address => 8
  | vecInt8 | vecInt16 | vecInt32 | vecInt64 | vecFloat | vecDouble => 16

/-- What a vector is made of; a scalar is made of itself. -/
def element : Ty → Ty
  | vecInt8 => int8
  | vecInt16 => int16
  | vecInt32 => int32
  | vecInt64 => int64
  | vecFloat => float
  | vecDouble => double
  | t => t

/-- The vector made of elements of the type, if there is one. -/
def vectorOf? : Ty → Option Ty
  | int8 => some vecInt8
  | int16 => some vecInt16
  | int32 => some vecInt32
  | int64 => some vecInt64
  | float => some vecFloat
  | double => some vecDouble
  | _ => none

/-- The type of a binary operation on operands of types `s` and `t`: equal types give themselves,
    an address and an integer give an address, and nothing else goes together. -/
def join? (s t : Ty) : Option Ty :=
  if s = t then some s
  else if s = address && t.isInteger then some address
  else if t = address && s.isInteger then some address
  else none

/-- The integers are scalars of no floating-point format. -/
theorem isFloating_of_isInteger {t : Ty} (h : t.isInteger = true) :
    t.isFloating = false ∧ t.element = t := by
  cases t <;> simp_all [isInteger, isFloating, element]

end Ty
end MethodGraph
