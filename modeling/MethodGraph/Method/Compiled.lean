import MethodGraph.Eval.Run
import MethodGraph.Method.Connect
/-!
  Compiled methods.

  A compiled method is a connected graph with the functions it can call.  Each invocation runs it
  from fresh memory.
-/

namespace MethodGraph

/-- A method that can be run. -/
structure Compiled where
  graph : Graph
  mayLoop : Bool
  hosts : Bindings String HostFn

namespace Compiled

/-- Run a compiled method. -/
def invoke (c : Compiled) (args : List Scalar) :
    Except Fault (Except EvalError (Option Scalar)) := do
  let ev : Evaluator := { graph := c.graph, hosts := c.hosts }
  return (← ev.run args).1

def listing (c : Compiled) : String := c.graph.listing

end Compiled

namespace Build

/-- Connect the method and hand it out. -/
def finish : Build Compiled := do
  connect
  let m ← get
  return { graph := m.graph, mayLoop := m.mayLoop, hosts := m.functions.filterMap (·.host) }

/-- Compile what a body builds, unless the body gives up. -/
def compile (body : Build Bool) : Build Compiled := do
  if ← body then finish
  else throw (.bodyFailed (← get).graph.name)

end Build
end MethodGraph
