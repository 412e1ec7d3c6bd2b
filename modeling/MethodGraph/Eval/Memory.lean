import MethodGraph.Checked
import MethodGraph.Eval.Error
import MethodGraph.Scalar
/-!
  Memory: a flat array of bytes above a fixed base address.

  Storage is handed out in order, aligned to eight bytes and zeroed, and never taken back.  A scalar
  is stored with its low byte first and in as many bytes as its type has.  An access that is not
  wholly inside the allocated bytes fails and changes nothing; an access of more than eight bytes is
  a fault.
-/

namespace MethodGraph

/-- The bytes above the base address. -/
structure Memory where
  bytes : Array UInt8 := #[]
  deriving DecidableEq, Repr, Inhabited

namespace Memory

def empty : Memory := ⟨#[]⟩

/-- The address of the first byte. -/
def base : Int := 0x1000

def size (m : Memory) : Nat := m.bytes.size

/-- The address of the byte at a position. -/
def addressOf (position : Nat) : Int64 := Int64.ofInt (base + position)

/-- Reserve `n` bytes, at least one, and give their address. -/
def alloc (m : Memory) (n : Nat) : Int64 × Memory :=
  let start := Checked.roundUp m.size 8
  (addressOf start, ⟨m.bytes ++ Array.replicate (start + max n 1 - m.size) 0⟩)

/-- The position of `n` bytes at an address, if all of them are allocated. -/
def position? (m : Memory) (address : Int64) (n : Nat) : Option Nat :=
  let offset := address.toInt - base
  if 0 ≤ offset ∧ offset.toNat + n ≤ m.size then some offset.toNat else none

/-- The bytes at a position, as a number whose low byte is first. -/
def readBytes (m : Memory) (position : Nat) : Nat → Nat
  | 0 => 0
  | n + 1 => (m.bytes.getD position 0).toNat + 256 * m.readBytes (position + 1) n

/-- Write the low `n` bytes of a number at a position, the lowest first. -/
def writeBytes (m : Memory) (position : Nat) : Nat → UInt64 → Memory
  | 0, _ => m
  | n + 1, w => writeBytes ⟨m.bytes.setIfInBounds position w.toUInt8⟩ (position + 1) n (w >>> 8)

/-- The scalar of a type that a pattern of bits stands for. -/
def decode (ty : Ty) (w : UInt64) : Scalar :=
  match ty with
  | .float => .float (.ofSingleBits w.toUInt32)
  | .double => .float ⟨w⟩
  | _ => .int (ty.wrapInt w.toInt64)

/-- The pattern of bits that stands for a scalar of a type. -/
def encode (ty : Ty) (s : Scalar) : UInt64 :=
  match ty with
  | .float => s.toFloat.toSingleBits.toUInt64
  | .double => s.toFloat.bits
  | _ => s.toInt.toUInt64

/-- The position of a scalar of a type at an address. -/
def access (m : Memory) (address : Int64) (ty : Ty) : Except Fault (Except EvalError Nat) :=
  match m.position? address ty.size with
  | none => .ok (.error (.outOfBounds address ty.size))
  | some p => if 8 < ty.size then .error .sliceOutOfRange else .ok (.ok p)

/-- The scalar of a type at a position. -/
def read (m : Memory) (position : Nat) (ty : Ty) : Scalar :=
  decode ty (UInt64.ofNat (m.readBytes position ty.size))

/-- Put a scalar of a type at a position. -/
def write (m : Memory) (position : Nat) (ty : Ty) (s : Scalar) : Memory :=
  m.writeBytes position ty.size (encode ty s)

/-- The scalar of a type at an address. -/
def load (m : Memory) (address : Int64) (ty : Ty) : Except Fault (Except EvalError Scalar) := do
  return (← m.access address ty).map (m.read · ty)

/-- Put a scalar of a type at an address. -/
def store (m : Memory) (address : Int64) (ty : Ty) (s : Scalar) :
    Except Fault (Except EvalError Memory) := do
  return (← m.access address ty).map (m.write · ty s)

end Memory
end MethodGraph
