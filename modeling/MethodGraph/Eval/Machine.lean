import MethodGraph.Bindings
import MethodGraph.Eval.Memory
import MethodGraph.Graph.Basic
/-!
  The state of a run.

  A run keeps the scalar of every value computed so far, the scalars of the symbols, the storage it
  has handed out (once for each place that asks for some), the open transactions, innermost first,
  and the memory.  `Exec` is a computation on this state: it can end in an error, which leaves the
  state as it is, or in a fault.
-/

namespace MethodGraph

/-- A function supplied from outside, which may use the memory. -/
abbrev HostFn := Memory → List Scalar → Memory × Scalar

/-- A transaction that has begun and neither ended nor aborted. -/
structure Transaction where
  /-- The memory when it began. -/
  snapshot : Memory
  /-- Where control goes if it aborts. -/
  failure : BlockId
  deriving DecidableEq, Repr, Inhabited

/-- The state of a run. -/
structure Machine where
  memory : Memory := .empty
  values : Array (Option Scalar) := #[]
  locals : Bindings SymbolId Scalar := .empty
  /-- The address of the storage of each place, named by block and position. -/
  allocations : Bindings (BlockId × Nat) Int64 := .empty
  transactions : List Transaction := []
  deriving Repr, Inhabited

/-- A computation on the state of a run. -/
abbrev Exec := ExceptT EvalError (StateT Machine (Except Fault))

namespace Exec

/-- What a memory access gives, or its error. -/
def ofAccess {α : Type} (x : Except Fault (Except EvalError α)) : Exec α := do
  match ← (x : Except Fault (Except EvalError α)) with
  | .ok a => return a
  | .error e => throw e

/-- The scalar of a value. -/
def read (v : ValueId) : Exec Scalar := do
  match ((← get).values[v]?).join with
  | some s => return s
  | none => throw (.undefinedValue v)

/-- Give a value a scalar. -/
def write (v : ValueId) (s : Scalar) : Exec Unit :=
  modify fun m => { m with values := m.values.setIfInBounds v (some s) }

/-- Give a value a scalar, where there has to be such a value. -/
def overwrite (v : ValueId) (s : Scalar) : Exec Unit := do
  if v < (← get).values.size then write v s
  else throwThe Fault .indexOutOfBounds

/-- The scalar of a symbol; one that was never written counts as zero. -/
def readLocal (s : SymbolId) : Exec Scalar := do
  return ((← get).locals.get? s).getD (.int 0)

def writeLocal (s : SymbolId) (x : Scalar) : Exec Unit :=
  modify fun m => { m with locals := m.locals.insert s x }

def loadAt (address : Int64) (ty : Ty) : Exec Scalar := do
  ofAccess ((← get).memory.load address ty)

def storeAt (address : Int64) (ty : Ty) (s : Scalar) : Exec Unit := do
  let p ← ofAccess ((← get).memory.access address ty)
  modify fun m => { m with memory := m.memory.write p ty s }

/-- The storage of a place, handed out when it is first asked for. -/
def storageOf (place : BlockId × Nat) (size : Nat) : Exec Int64 := do
  match (← get).allocations.get? place with
  | some address => return address
  | none =>
    modifyGet fun m =>
      let (address, memory) := m.memory.alloc size
      (address, { m with memory, allocations := m.allocations.insert place address })

end Exec
end MethodGraph
