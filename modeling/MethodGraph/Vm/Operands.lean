import MethodGraph.Vm.Registers
/-!
  Operand stacks and operand arrays of the simulated machine.

  Pushing and popping emits nothing.  `commit` writes every slot to its element of the storage and
  sets the stack pointer; `reload` reads the stack pointer and gives every slot a new value read
  from its element.
-/

namespace MethodGraph

/-- The address of an element at a constant index. -/
def Emit.elementAt (b : BuilderId) (element : Ty) (base : ValueId) (index : Int) :
    Emit ValueId := do
  let i ← constInt b .int64 (Int64.ofInt index)
  indexAt b element base i

/-- Read the element at a constant index. -/
def Emit.loadElement (b : BuilderId) (element : Ty) (base : ValueId) (index : Int) :
    Emit ValueId := do
  let address ← elementAt b element base index
  loadAt b element address

/-- Write an element at a constant index. -/
def Emit.storeElement (b : BuilderId) (element : Ty) (base : ValueId) (index : Int)
    (v : ValueId) : Emit Unit := do
  let address ← elementAt b element base index
  storeAt b address v

namespace OperandStack

/-- The index of a slot's element, relative to the base. -/
def elementIndex (s : OperandStack) (slot : Int) : Int := if s.growsUp then slot else -slot

def commit (b : BuilderId) (s : OperandStack) : Emit Unit := do
  let base ← Emit.loadSymbol b s.base
  s.slots.zipIdx.forM fun (v, slot) =>
    Emit.storeElement b s.element base (s.elementIndex slot) v
  let pointer ← Emit.elementAt b s.element base (s.elementIndex (s.depth + s.offset))
  s.pointer.store b pointer
  s.pointer.commit b

def reload (b : BuilderId) (s : OperandStack) : Emit OperandStack := do
  s.pointer.reload b
  let base ← Emit.loadSymbol b s.base
  let slots ← (List.range s.depth).mapM fun (slot : Nat) =>
    Emit.loadElement b s.element base (s.elementIndex slot)
  return { s with slots }

/-- The least offset of 32 bits, which has no negative. -/
def minOffset : Int := -2147483648

/-- An empty stack whose pointer is a register; slot zero is found from where the pointer is. -/
def create (b : BuilderId) (pointer : Register) (element : Ty) (growsUp : Bool) (offset : Int) :
    Build OperandStack := do
  let name := (← Emit.symbol pointer.symbol).name
  let base ← Build.localSymbol (name ++ ".base") .address
  let top ← pointer.load b
  if growsUp && offset = minOffset then throwThe Fault .arithmeticOverflow
  let address ← Emit.elementAt b element top (if growsUp then -offset else offset)
  Emit.storeSymbol b base address
  return { element, pointer, base, growsUp, offset }

/-- An empty stack that grows up and whose pointer is at its top element. -/
def createGrowingUp (b : BuilderId) (pointer : Register) (element : Ty) : Build OperandStack :=
  create b pointer element true (-1)

end OperandStack

namespace OperandArray

def commit (b : BuilderId) (a : OperandArray) : Emit Unit := do
  let base ← Emit.loadSymbol b a.base
  a.slots.zipIdx.forM fun (v, i) => Emit.storeElement b a.element base i v

/-- The values of the first `n` elements, read from the storage. -/
def readSlots (b : BuilderId) (element : Ty) (base : SymbolId) (n : Nat) :
    Emit (List ValueId) := do
  let address ← Emit.loadSymbol b base
  (List.range n).mapM fun (i : Nat) => Emit.loadElement b element address i

def reload (b : BuilderId) (a : OperandArray) : Emit OperandArray := do
  return { a with slots := ← readSlots b a.element a.base a.length }

/-- An array of so many elements, whose present content is read. -/
def create (b : BuilderId) (count : Nat) (element : Ty) (base : String) : Build OperandArray := do
  let base ← Build.definedSymbol base
  return { slots := ← readSlots b element base count, element, base }

end OperandArray

namespace VmState

mutual

/-- Write a state to its storage. -/
def commit (b : BuilderId) : VmState → Emit Unit
  | register r => r.commit b
  | fieldRegister r => r.commit b
  | stack s => s.commit b
  | array a => a.commit b
  | composite parts => commitAll b parts

/-- Write several states to their storage, in order. -/
def commitAll (b : BuilderId) : List VmState → Emit Unit
  | [] => pure ()
  | p :: rest => do
    commit b p
    commitAll b rest

end

mutual

/-- Read a state from its storage. -/
def reload (b : BuilderId) : VmState → Emit VmState
  | register r => do
    r.reload b
    return register r
  | fieldRegister r => do
    r.reload b
    return fieldRegister r
  | stack s => do
    return stack (← s.reload b)
  | array a => do
    return array (← a.reload b)
  | composite parts => do
    return composite (← reloadAll b parts)

/-- Read several states from their storage, in order. -/
def reloadAll (b : BuilderId) : List VmState → Emit (List VmState)
  | [] => pure []
  | p :: rest => do
    let p ← reload b p
    return p :: (← reloadAll b rest)

end

end VmState
end MethodGraph
