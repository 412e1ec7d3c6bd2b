import MethodGraph.Eval.Step
/-!
  Runs.

  A run starts at the entry and goes from block to block until it gets to the exit, which gives no
  value, or an operation returns.  Behind the last operation of a block control falls into the
  block's `next`.  The number of blocks is limited: that limit is what the recursion counts down,
  and every block counts, the exit included.
-/

namespace MethodGraph

namespace Exec

/-- The operations of a block from a position on. -/
def runOps (g : Graph) (hosts : Bindings String HostFn) (b : BlockId) :
    List Operation → Nat → Exec Flow
  | [], _ => return .next
  | op :: rest, i => do
    match ← step g hosts (b, i) op with
    | .next => runOps g hosts b rest (i + 1)
    | flow => return flow

/-- Run from a block on, for at most `fuel` more blocks out of `limit`. -/
def runFrom (g : Graph) (hosts : Bindings String HostFn) (limit : Nat) :
    Nat → BlockId → Exec (Option Scalar)
  | 0, _ => throw (.stepLimit limit)
  | fuel + 1, b => do
    if b = Graph.exit then return none
    let blk ← g.block b
    match ← runOps g hosts b blk.operations 0 with
    | .ret v => return v
    | .jump c => runFrom g hosts limit fuel c
    | .next =>
      match blk.next with
      | some c => runFrom g hosts limit fuel c
      | none => throw (.fellOff b)

end Exec

/-- The initial scalar of a symbol. -/
def Symbol.initial (s : Symbol) (args : List Scalar) : Except Fault Scalar :=
  match s.kind with
  | .localVar => .ok (.zero s.ty)
  | .parameter i =>
    match args[i]? with
    | some a => .ok a
    | none => .error .indexOutOfBounds

/-- The initial scalars of all symbols. -/
def Graph.initialLocals (g : Graph) (args : List Scalar) :
    Except Fault (Bindings SymbolId Scalar) := do
  return ⟨← g.symbols.entries.mapM fun (i, s) => return (i, ← s.initial args)⟩

/-- A graph with what a run of it needs. -/
structure Evaluator where
  graph : Graph
  hosts : Bindings String HostFn := .empty
  /-- How many blocks a run may enter. -/
  limit : Nat := 1000000
  /-- The memory, which stays from run to run. -/
  memory : Memory := .empty

namespace Evaluator

/-- Run the graph with the given arguments. -/
def run (ev : Evaluator) (args : List Scalar) :
    Except Fault (Except EvalError (Option Scalar) × Evaluator) := do
  let g := ev.graph
  if g.layout.isEmpty then return (.error (.notConnected g.name), ev)
  let expected := g.parameters.length
  if args.length ≠ expected then return (.error (.argumentCount expected args.length), ev)
  let start : Machine :=
    { memory := ev.memory
      values := Array.replicate g.values.size none
      locals := ← g.initialLocals args }
  let (r, final) ← (Exec.runFrom g ev.hosts ev.limit ev.limit Graph.entry).run.run start
  return (r, { ev with memory := final.memory })

end Evaluator
end MethodGraph
