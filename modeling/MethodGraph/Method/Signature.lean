import MethodGraph.Eval.Machine
import MethodGraph.Text.Quoted
/-!
  Functions that a method can call.

  A signature fixes the type of the result, the types of the parameters and, for a function that
  can be run, what it does.  Its text quotes the name.
-/

namespace MethodGraph

/-- What is known of a function that can be called. -/
structure Signature where
  name : String
  /-- The type of the result; `void` if there is none. -/
  returnType : Ty
  params : List Ty
  /-- What a call does when it is run. -/
  host : Option HostFn := none
  deriving Inhabited

/-- A signature as diagnostics write it. -/
def Signature.text (s : Signature) : String :=
  "FunctionSignature \x7b name: " ++ quoted s.name ++ ", return_type: " ++ s.returnType.name
    ++ ", params: [" ++ ", ".intercalate (s.params.map (·.name)) ++ "], host: "
    ++ (if s.host.isSome then "true" else "false") ++ " \x7d"

end MethodGraph
