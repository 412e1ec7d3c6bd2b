import MethodGraph.Method.Branch
/-!
  Loops.

  A loop runs a body, which is a builder.  With the body it has a builder where each round ends
  and that decides on the next, and a builder behind the loop; code in the body may go to either.
-/

namespace MethodGraph

/-- The builders of a loop. -/
structure LoopBuilders where
  body : BuilderId
  /-- Behind the loop. -/
  leave : BuilderId
  /-- The end of a round. -/
  again : BuilderId
  deriving DecidableEq, Repr, Inhabited

namespace Build

def setMayLoop : Build Unit := modify fun m => { m with mayLoop := true }

/-- Count a local from a value up (or down) to another, which it does not reach. -/
def forLoop (b : BuilderId) (up : Bool) (index : String) (body : Option BuilderId)
    (initial last increment : ValueId) : Build LoopBuilders := do
  let within : Cmp := if up then .lt else .gt
  setMayLoop
  let body ← Emit.prepare body
  store b index initial
  let round ← Emit.orphan
  let current ← load b index
  let enter ← Emit.compare b within current last
  let _ ← Emit.ifThen b (some round) enter
  let again ← Emit.orphan
  Emit.append round body
  Emit.append round again
  let current ← load again index
  let next ← Emit.binary again (if up then .add else .sub) current increment
  store again index next
  let current ← load again index
  let _ ← Emit.ifCmp again within (some round) current last
  let leave ← Emit.orphan
  Emit.append b leave
  return { body, leave, again }

/-- Run the body as long as a local is not zero, which is tested before each round. -/
def whileDo (b : BuilderId) (condition : String) (body : Option BuilderId) :
    Build LoopBuilders := do
  setMayLoop
  let body ← Emit.prepare body
  let s ← localSymbol condition .int32
  let leave ← Emit.orphan
  let again ← Emit.orphan
  Emit.append b again
  let v ← Emit.loadSymbol again s
  let _ ← Emit.ifCmpZero again .eq (some leave) v
  Emit.append b body
  Emit.gotoBuilder b again
  Emit.append b leave
  return { body, leave, again }

/-- Run the body as long as a local is not zero, which is tested after each round. -/
def doWhile (b : BuilderId) (condition : String) (body : Option BuilderId) :
    Build LoopBuilders := do
  setMayLoop
  let body ← Emit.prepare body
  let s ← localSymbol condition .int32
  Emit.append b body
  let again ← Emit.orphan
  Emit.append b again
  let v ← Emit.loadSymbol again s
  let _ ← Emit.ifCmpZero again .ne (some body) v
  let leave ← Emit.orphan
  Emit.append b leave
  return { body, leave, again }

end Build
end MethodGraph
