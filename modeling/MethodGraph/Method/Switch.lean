import MethodGraph.Method.Branch
/-!
  Choice by a number.

  A switch has arms in a fixed order and a default behind them.  An arm that falls through
  continues with the arm after it, the last with the default; the others continue behind the
  switch.
-/

namespace MethodGraph

/-- One arm of a switch. -/
structure SwitchCase where
  value : Int64
  /-- The code of the arm, a new builder if none is given. -/
  code : Option BuilderId
  falls : Bool
  deriving DecidableEq, Repr, Inhabited

/-- An arm as it is placed: the code of the case, and the builder that control enters. -/
structure SwitchArm where
  value : Int64
  code : BuilderId
  arm : BuilderId
  entry : BlockId
  deriving DecidableEq, Repr, Inhabited

namespace Emit

/-- The arm of a case; `done` is behind the switch. -/
def switchArm (done : BuilderId) (c : SwitchCase) : Emit SwitchArm := do
  let code ← prepare c.code
  if c.falls then
    return { value := c.value, code, arm := code, entry := ← entryOf code }
  else
    let arm ← orphan
    append arm code
    gotoBuilder arm done
    return { value := c.value, code, arm, entry := ← entryOf arm }

/-- Choose an arm by a value.  The answer is the default and the code of each case. -/
def switch (b : BuilderId) (selector : ValueId) (default : Option BuilderId)
    (cases : List SwitchCase) : Emit (BuilderId × List BuilderId) := do
  let default ← prepare default
  let done ← orphan
  let defaultEntry ← entryOf default
  let arms ← cases.mapM (switchArm done)
  transfer b (.switch (arms.map (·.value))) [selector] (defaultEntry :: arms.map (·.entry))
  arms.forM fun a => append b a.arm
  append b default
  append b done
  return (default, arms.map (·.code))

end Emit
end MethodGraph
