import MethodGraph.Operation
import MethodGraph.TypeTable
/-!
  The simulated state of an interpreted machine.

  While bytecode is turned into a graph, the machine's registers, operand stack and operand arrays
  are kept as values of the graph and not in memory.  A register is held in a symbol; the slots of a
  stack or an array are values.  A composite state has several components.

  Here is what such a state is and what can be done to it without emitting anything: pushing and
  popping, comparing shapes, finding the first stack or array.
-/

namespace MethodGraph

/-- A register whose storage is at an address. -/
structure Register where
  /-- The symbol that holds it in between. -/
  symbol : SymbolId
  address : ValueId
  ty : Ty
  /-- How far one unit of adjustment moves it. -/
  step : Int64
  deriving DecidableEq, Repr, Inhabited

/-- A register whose storage is a field of a structure. -/
structure FieldRegister where
  /-- The symbol that holds it in between. -/
  symbol : SymbolId
  /-- The symbol that holds the address of the structure. -/
  object : SymbolId
  field : FieldRef
  deriving DecidableEq, Repr, Inhabited

/-- An operand stack.  Slot `i`, counted from the bottom, is `i` elements above the base, or below
    it for a stack that grows down; the pointer addresses slot `depth + offset`. -/
structure OperandStack where
  /-- The values on the stack, the bottom first. -/
  slots : List ValueId := []
  element : Ty
  pointer : Register
  /-- The symbol that holds the address of slot zero. -/
  base : SymbolId
  growsUp : Bool
  offset : Int
  deriving DecidableEq, Repr, Inhabited

/-- An array of operands of fixed length. -/
structure OperandArray where
  slots : List ValueId
  element : Ty
  /-- The symbol that holds the address of element zero. -/
  base : SymbolId
  deriving DecidableEq, Repr, Inhabited

/-- The simulated state of a machine. -/
inductive VmState where
  | register (r : Register)
  | fieldRegister (r : FieldRegister)
  | stack (s : OperandStack)
  | array (a : OperandArray)
  | composite (parts : List VmState)
  deriving Repr, Inhabited

namespace Register

/-- Two registers are interchangeable when they share their symbol and their storage. -/
def alike (a b : Register) : Bool := a.symbol == b.symbol && a.address == b.address

end Register

namespace OperandStack

def depth (s : OperandStack) : Nat := s.slots.length

def push (s : OperandStack) (v : ValueId) : OperandStack := { s with slots := s.slots ++ [v] }

def pop (s : OperandStack) : Except Fault (ValueId × OperandStack) :=
  match s.slots.getLast? with
  | some v => .ok (v, { s with slots := s.slots.dropLast })
  | none => .error .popEmpty

/-- The value `n` slots below the top. -/
def pick (s : OperandStack) (n : Nat) : Except Fault ValueId :=
  match s.slots.reverse[n]? with
  | some v => .ok v
  | none => .error (.pickBeyond n s.depth)

def top (s : OperandStack) : Except Fault ValueId := s.pick 0

/-- Discard the top `n` values. -/
def drop (s : OperandStack) (n : Nat) : Except Fault OperandStack :=
  if n ≤ s.depth then .ok { s with slots := s.slots.take (s.depth - n) }
  else .error (.dropBeyond n s.depth)

/-- Push the top once more. -/
def dup (s : OperandStack) : Except Fault OperandStack := do
  return s.push (← s.top)

/-- Same depth and same storage. -/
def alike (a b : OperandStack) : Bool :=
  a.depth == b.depth && a.element == b.element && a.base == b.base && a.pointer.alike b.pointer

end OperandStack

namespace OperandArray

def length (a : OperandArray) : Nat := a.slots.length

def get (a : OperandArray) (i : Nat) : Except Fault ValueId :=
  match a.slots[i]? with
  | some v => .ok v
  | none => .error .indexOutOfBounds

def set (a : OperandArray) (i : Nat) (v : ValueId) : Except Fault OperandArray :=
  if i < a.length then .ok { a with slots := a.slots.set i v } else .error .indexOutOfBounds

/-- Copy element `source` over element `target`. -/
def move (a : OperandArray) (target source : Nat) : Except Fault OperandArray := do
  a.set target (← a.get source)

/-- Same length and same storage. -/
def alike (a b : OperandArray) : Bool :=
  a.length == b.length && a.element == b.element && a.base == b.base

end OperandArray

namespace VmState

/-- A state without components. -/
def empty : VmState := composite []

/-- The name of the kind of a state. -/
def kind : VmState → String
  | register _ => "register"
  | fieldRegister _ => "register in struct"
  | stack _ => "operand stack"
  | array _ => "operand array"
  | composite _ => "composite"

mutual

/-- The values in all slots of a state, in order. -/
def slots : VmState → List ValueId
  | register _ => []
  | fieldRegister _ => []
  | stack s => s.slots
  | array a => a.slots
  | composite parts => slotsOfAll parts

/-- The values in all slots of several states, in order. -/
def slotsOfAll : List VmState → List ValueId
  | [] => []
  | p :: rest => slots p ++ slotsOfAll rest

end

mutual

/-- Whether one state can be merged into another: same shape and same storage. -/
def alike : VmState → VmState → Bool
  | register a, register b => a.alike b
  | fieldRegister a, fieldRegister b => a == b
  | stack a, stack b => a.alike b
  | array a, array b => a.alike b
  | composite as, composite bs => allAlike as bs
  | _, _ => false

/-- Whether several states are pairwise alike. -/
def allAlike : List VmState → List VmState → Bool
  | [], [] => true
  | a :: as, b :: bs => alike a b && allAlike as bs
  | _, _ => false

end

mutual

/-- Whether two states agree in everything. -/
def same : VmState → VmState → Bool
  | register a, register b => a == b
  | fieldRegister a, fieldRegister b => a == b
  | stack a, stack b => a == b
  | array a, array b => a == b
  | composite as, composite bs => allSame as bs
  | _, _ => false

/-- Whether several states pairwise agree in everything. -/
def allSame : List VmState → List VmState → Bool
  | [], [] => true
  | a :: as, b :: bs => same a b && allSame as bs
  | _, _ => false

end

mutual

/-- The first operand stack of a state. -/
def stack? : VmState → Option OperandStack
  | stack s => some s
  | composite parts => firstStack? parts
  | _ => none

/-- The first operand stack of several states. -/
def firstStack? : List VmState → Option OperandStack
  | [] => none
  | p :: rest => (stack? p).or (firstStack? rest)

end

mutual

/-- The first operand array of a state. -/
def array? : VmState → Option OperandArray
  | array a => some a
  | composite parts => firstArray? parts
  | _ => none

/-- The first operand array of several states. -/
def firstArray? : List VmState → Option OperandArray
  | [] => none
  | p :: rest => (array? p).or (firstArray? rest)

end

mutual

/-- Put another stack in the place of the first one. -/
def setStack (s : OperandStack) : VmState → VmState
  | stack _ => stack s
  | composite parts => composite (setFirstStack s parts)
  | st => st

/-- Put another stack in the place of the first one of several states. -/
def setFirstStack (s : OperandStack) : List VmState → List VmState
  | [] => []
  | p :: rest => if (stack? p).isSome then setStack s p :: rest else p :: setFirstStack s rest

end

mutual

/-- Put another array in the place of the first one. -/
def setArray (a : OperandArray) : VmState → VmState
  | array _ => array a
  | composite parts => composite (setFirstArray a parts)
  | st => st

/-- Put another array in the place of the first one of several states. -/
def setFirstArray (a : OperandArray) : List VmState → List VmState
  | [] => []
  | p :: rest => if (array? p).isSome then setArray a p :: rest else p :: setFirstArray a rest

end

end VmState
end MethodGraph
