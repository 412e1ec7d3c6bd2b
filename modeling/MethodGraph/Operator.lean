/-!
  Arithmetic operators and comparisons.

  An operator is only a name here, with the classes that the builders and the verifier ask for;
  what it does to numbers is said in `Scalar`.  A comparison also knows its opposite and its form
  for exchanged operands, and decides integers directly: `c.inverse` holds exactly where `c` does
  not, and `c.swap` holds of `a` and `b` exactly where `c` holds of `b` and `a`.
-/

namespace MethodGraph

/-- Arithmetic and bitwise operators. -/
inductive Arith where
  | add
  | sub
  | mul
  | div
  | rem
  | and
  | or
  | xor
  | shl
  /-- Right shift that keeps the sign. -/
  | shr
  /-- Right shift that brings in zeros. -/
  | ushr
  | neg
  deriving DecidableEq, Repr, Inhabited

namespace Arith

def all : List Arith := [add, sub, mul, div, rem, and, or, xor, shl, shr, ushr, neg]

/-- The number of an operator: binary operators count from zero, unary ones from sixteen. -/
def code : Arith → Nat
  | add => 0
  | sub => 1
  | mul => 2
  | div => 3
  | rem => 4
  | and => 5
  | or => 6
  | xor => 7
  | shl => 8
  | shr => 9
  | ushr => 10
  | neg => 16

def mnemonic : Arith → String
  | add => "add"
  | sub => "sub"
  | mul => "mul"
  | div => "div"
  | rem => "rem"
  | and => "and"
  | or => "or"
  | xor => "xor"
  | shl => "shl"
  | shr => "shr"
  | ushr => "ushr"
  | neg => "neg"

/-- The operator's full name, as diagnostics give it. -/
def longName : Arith → String
  | add => "Add"
  | sub => "Sub"
  | mul => "Mul"
  | div => "Div"
  | rem => "Rem"
  | and => "And"
  | or => "Or"
  | xor => "Xor"
  | shl => "ShiftL"
  | shr => "ShiftR"
  | ushr => "UnsignedShiftR"
  | neg => "Neg"

def ofMnemonic? (s : String) : Option Arith := all.find? (·.mnemonic == s)

def isCommutative : Arith → Bool
  | add | mul | and | or | xor => true
  | _ => false

def isUnary (a : Arith) : Bool := 16 ≤ a.code

/-- Bitwise operators and shifts take integers only. -/
def isIntegerOnly : Arith → Bool
  | and | or | xor | shl | shr | ushr => true
  | _ => false

def isShift : Arith → Bool
  | shl | shr | ushr => true
  | _ => false

/-- Operators with an overflow-checked form. -/
def canOverflow : Arith → Bool
  | add | sub | mul => true
  | _ => false

end Arith

/-- Comparisons. -/
inductive Cmp where
  | eq
  | ne
  | lt
  | le
  | gt
  | ge
  | ult
  | ule
  | ugt
  | uge
  deriving DecidableEq, Repr, Inhabited

namespace Cmp

def all : List Cmp := [eq, ne, lt, le, gt, ge, ult, ule, ugt, uge]

/-- The number of a comparison: signed ones come first, unsigned ones from six. -/
def code : Cmp → Nat
  | eq => 0
  | ne => 1
  | lt => 2
  | le => 3
  | gt => 4
  | ge => 5
  | ult => 6
  | ule => 7
  | ugt => 8
  | uge => 9

def mnemonic : Cmp → String
  | eq => "eq"
  | ne => "ne"
  | lt => "lt"
  | le => "le"
  | gt => "gt"
  | ge => "ge"
  | ult => "ult"
  | ule => "ule"
  | ugt => "ugt"
  | uge => "uge"

def ofMnemonic? (s : String) : Option Cmp := all.find? (·.mnemonic == s)

/-- The comparison that holds of integers exactly when this one does not. -/
def inverse : Cmp → Cmp
  | eq => ne
  | ne => eq
  | lt => ge
  | le => gt
  | gt => le
  | ge => lt
  | ult => uge
  | ule => ugt
  | ugt => ule
  | uge => ult

/-- The comparison that holds of exchanged operands exactly when this one holds. -/
def swap : Cmp → Cmp
  | eq => eq
  | ne => ne
  | lt => gt
  | le => ge
  | gt => lt
  | ge => le
  | ult => ugt
  | ule => uge
  | ugt => ult
  | uge => ule

def isUnsigned (c : Cmp) : Bool := 6 ≤ c.code

/-- The comparison of two 64-bit integers; the unsigned forms read the bits as natural numbers. -/
def holdsInt : Cmp → Int64 → Int64 → Bool
  | eq, a, b => a == b
  | ne, a, b => a != b
  | lt, a, b => a < b
  | le, a, b => a ≤ b
  | gt, a, b => b < a
  | ge, a, b => b ≤ a
  | ult, a, b => a.toUInt64 < b.toUInt64
  | ule, a, b => a.toUInt64 ≤ b.toUInt64
  | ugt, a, b => b.toUInt64 < a.toUInt64
  | uge, a, b => b.toUInt64 ≤ a.toUInt64

end Cmp
end MethodGraph
