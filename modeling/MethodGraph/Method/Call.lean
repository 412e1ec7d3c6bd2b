import MethodGraph.Method.Emit
/-!
  Calls.

  A function that is not known is asked for once: the first call to it consults the resolver, if
  there is one, and the name counts as asked for in any case.
-/

namespace MethodGraph

/-- Ask for a function that is not known and was not asked for before. -/
def Method.request (m : Method) (name : String) : Method :=
  if m.functions.contains name || m.requested.contains name then m
  else
    let m := { m with requested := m.requested ++ [name] }
    match m.resolver with
    | none => m
    | some resolver =>
      let m := { m with asked := m.asked ++ [name] }
      match resolver name with
      | none => m
      | some s => { m with functions := m.functions.insert name s }

namespace Build

/-- The signature of a function. -/
def resolve (name : String) : Build Signature := do
  modify (·.request name)
  match (← get).functions.get? name with
  | some s => return s
  | none => throw (.unresolvedFunction name)

/-- Call a function; the result is absent if the function has none. -/
def call (b : BuilderId) (name : String) (args : List ValueId) : Build (Option ValueId) := do
  let s ← resolve name
  if args.length ≠ s.params.length then
    throwThe Fault (.argumentCount name s.params.length args.length)
  if s.returnType = .void then
    Emit.emit b { opcode := .call name, operands := args }
    return none
  else
    let v ← Emit.emitValue b (.call name) args s.returnType
    return some v

end Build
end MethodGraph
