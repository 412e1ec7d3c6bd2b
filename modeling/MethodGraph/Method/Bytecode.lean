import MethodGraph.Method.Branch
import MethodGraph.Vm.Merge
/-!
  Builders for bytecode.

  A bytecode builder stands for an index of the bytecode that a method is made from.  It is reached
  with a state of the simulated machine and leaves with one.  Registering a successor carries the
  state along: the first to arrive gives the target its initial state; every later one goes through
  a new builder that stores its state over the target's initial state and then goes on to the
  target.  So the target of a transfer can be another builder than the one asked for.

  Indices that were registered wait to be built, each once; the least is built first.
-/

namespace MethodGraph
namespace Emit

/-! ## Records -/

/-- The record of a bytecode builder. -/
def record (b : BuilderId) : Emit BytecodeRecord := do
  match (← builder b).bytecode with
  | some r => return r
  | none => throw (.notBytecode b)

/-- Change the record of a bytecode builder. -/
def updateRecord (b : BuilderId) (f : BytecodeRecord → BytecodeRecord) : Emit Unit := do
  let r ← record b
  updateBuilder b fun d => { d with bytecode := some (f r) }

/-- A new builder for an index of the bytecode. -/
def orphanBytecode (index : Int) (name : Option String) : Emit BuilderId := do
  if index < 0 then throw (.negativeIndex index)
  newBuilder (some { index := index.toNat, name })

/-- The first builder for an index of the bytecode, created if there is none. -/
def bytecodeBuilder (index : Int) : Emit BuilderId := do
  match (← get).bytecodeBuilder? index with
  | some b => return b
  | none => orphanBytecode index none

/-! ## The worklist -/

/-- Let the index of a bytecode builder wait to be built, unless it has waited before. -/
def enqueue (b : BuilderId) : Emit Unit := do
  match (← builder b).bytecode with
  | none => pure ()
  | some r =>
    modify fun m =>
      let (fresh, queued) := m.queued.add r.index
      { m with queued, worklist := if fresh then m.worklist.insert r.index else m.worklist }

/-- The least index that waits to be built, which then waits no longer. -/
def nextBytecode : Emit (Option Nat) := do
  let m ← get
  match m.worklist.first? with
  | none => return none
  | some i =>
    set { m with worklist := m.worklist.remove i }
    return some i

/-! ## State along edges -/

/-- Let a bytecode builder start from a state. -/
def startFrom (b : BuilderId) (s : VmState) : Emit Unit :=
  updateRecord b fun r => { r with initial := some s, state := some s }

/-- Append the builder at which the bytecode starts to the body of the method. -/
def appendBytecode (b : BuilderId) : Emit Unit := do
  let s ← ((← get).vmState.getD .empty).dealias Method.root
  startFrom b s
  append Method.root b
  enqueue b

/-- A new builder in which `s` is stored over the initial state of `target`, and which then goes on
    to `target`. -/
def mergeBuilder (s initial : VmState) (target : BuilderId) : Emit BuilderId := do
  let r ← record target
  let b ← orphanBytecode r.index r.name
  s.mergeInto b initial
  gotoBuilder b target
  updateRecord b fun r =>
    { r with initial := some s, state := some initial, fallThrough := some target }
  return b

/-- Carry the state of a builder to a target; the answer is the builder to transfer to. -/
def carryState (source target : BuilderId) : Emit BuilderId := do
  let some s := (← record source).state | throw (.noVmState source)
  match (← record target).initial with
  | none =>
    let s ← s.dealias source
    startFrom target s
    updateRecord source fun r => { r with state := some s }
    return target
  | some initial => mergeBuilder s initial target

/-- Register a successor; the answer is the builder to transfer to.  An edge to a smaller index,
    or to the builder itself, closes a cycle. -/
def addSuccessor (b target : BuilderId) : Emit BuilderId := do
  let effective ← carryState b target
  let source := (← record b).index
  let destination := (← record target).index
  if destination < source || target = b then modify fun m => { m with mayLoop := true }
  updateRecord b fun r => { r with successors := r.successors ++ [effective] }
  enqueue target
  return effective

/-- Register a successor and let control go to it behind the end. -/
def addFallThrough (b target : BuilderId) : Emit BuilderId := do
  if !(← builder b).comesBack then throw (.cannotFallThrough b)
  let effective ← addSuccessor b target
  updateRecord b fun r => { r with fallThrough := some effective }
  gotoBuilder b effective
  return effective

/-- Register a successor and go to it. -/
def bytecodeGoto (b target : BuilderId) : Emit BuilderId := do
  let effective ← addSuccessor b target
  gotoBuilder b effective
  return effective

/-- Register a successor and go to it if a comparison holds. -/
def bytecodeIfCmp (b : BuilderId) (c : Cmp) (target : BuilderId) (l r : ValueId) :
    Emit BuilderId := do
  let effective ← addSuccessor b target
  ifCmp b c (some effective) l r

/-- Register a successor and go to it if a value compares so with zero. -/
def bytecodeIfCmpZero (b : BuilderId) (c : Cmp) (target : BuilderId) (v : ValueId) :
    Emit BuilderId := do
  let effective ← addSuccessor b target
  ifCmpZero b c (some effective) v

/-! ## The state of a builder -/

/-- Put another state in the place of the one that a builder has; the answer is whether it has
    one. -/
def replaceState (b : BuilderId) (s : VmState) : Emit Bool := do
  if (← record b).state.isNone then return false
  updateRecord b fun r => { r with state := some s }
  return true

/-- Write the state of a builder to its storage. -/
def commitState (b : BuilderId) : Emit Unit := do
  match (← record b).state with
  | none => pure ()
  | some s => s.commit b

/-- Read the state of a builder from its storage. -/
def reloadState (b : BuilderId) : Emit Unit := do
  match (← record b).state with
  | none => pure ()
  | some s =>
    let s ← s.reload b
    updateRecord b fun r => { r with state := some s }

/-- The operand stack of a builder's state. -/
def operandStack (b : BuilderId) : Emit OperandStack := do
  match (← record b).state.bind (·.stack?) with
  | some s => return s
  | none => throw (.noOperandStack b)

/-- Put another operand stack in the place of the one of a builder's state. -/
def setOperandStack (b : BuilderId) (s : OperandStack) : Emit Unit :=
  updateRecord b fun r => { r with state := r.state.map (·.setStack s) }

def stackPush (b : BuilderId) (v : ValueId) : Emit Unit := do
  setOperandStack b ((← operandStack b).push v)

def stackPop (b : BuilderId) : Emit ValueId := do
  let (v, s) ← (← operandStack b).pop
  setOperandStack b s
  return v

def stackTop (b : BuilderId) : Emit ValueId := do
  (← operandStack b).top

def stackPick (b : BuilderId) (n : Nat) : Emit ValueId := do
  (← operandStack b).pick n

def stackDrop (b : BuilderId) (n : Nat) : Emit Unit := do
  setOperandStack b (← (← operandStack b).drop n)

def stackDup (b : BuilderId) : Emit Unit := do
  setOperandStack b (← (← operandStack b).dup)

end Emit
end MethodGraph
