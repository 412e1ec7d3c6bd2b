import MethodGraph.Method.Values
/-!
  Transfers and conditional paths.

  A path is a builder.  Where no builder is given a new one is made, for the caller to fill in
  afterwards; it is the answer of the construct.  A path that is part of a sequence already is
  jumped to, and one that is not is appended where it is needed.
-/

namespace MethodGraph
namespace Emit

def entryOf (b : BuilderId) : Emit BlockId := do
  return (← builder b).entry

def isPlaced (b : BuilderId) : Emit Bool := do
  return (← builder b).placed

/-! ## Transfers -/

def gotoBlock (b : BuilderId) (target : BlockId) : Emit Unit := transfer b .goto [] [target]

def gotoBuilder (b target : BuilderId) : Emit Unit := do
  gotoBlock b (← entryOf target)

/-- Go to a builder, a new one if none is given. -/
def goto (b : BuilderId) (target : Option BuilderId) : Emit BuilderId := do
  let target ← prepare target
  gotoBuilder b target
  return target

def returnVoid (b : BuilderId) : Emit Unit := transfer b .ret [] []

/-- Return a value of the method's type. -/
def returnValue (b : BuilderId) (v : ValueId) : Emit Unit := do
  let ty ← typeOf v
  if ty ≠ (← get).graph.returnType then throw .returnTypeMismatch
  transfer b .ret [v] []

/-- Go to a builder if a comparison holds. -/
def ifCmp (b : BuilderId) (c : Cmp) (target : Option BuilderId) (l r : ValueId) :
    Emit BuilderId := do
  let target ← prepare target
  let entry ← entryOf target
  transfer b (.branch c) [l, r] [entry]
  return target

/-- Go to a builder if a value compares so with zero. -/
def ifCmpZero (b : BuilderId) (c : Cmp) (target : Option BuilderId) (v : ValueId) :
    Emit BuilderId := do
  let ty ← typeOf v
  let z ← zero b ty
  ifCmp b c target v z

/-! ## Paths -/

/-- Continue with a path. -/
def follow (b path : BuilderId) : Emit Unit := do
  if ← isPlaced path then gotoBuilder b path else append b path

/-- What a value is compared with, and the block where the paths meet again. -/
def beginPaths (b : BuilderId) (condition : ValueId) : Emit (ValueId × BlockId) := do
  let ty ← typeOf condition
  let z ← zero b ty
  let merge ← newBlock
  return (z, merge)

/-- Take a path, or go around it if the value compares so with zero. -/
def ifNot (b : BuilderId) (c : Cmp) (path : Option BuilderId) (condition : ValueId) :
    Emit BuilderId := do
  let (z, merge) ← beginPaths b condition
  let path ← prepare path
  transfer b (.branch c) [condition, z] [merge]
  follow b path
  appendBlock b merge
  return path

/-- Take a path unless the value is zero. -/
def ifThen (b : BuilderId) (path : Option BuilderId) (condition : ValueId) : Emit BuilderId :=
  ifNot b .eq path condition

/-- Take a path if the value is zero. -/
def ifElse (b : BuilderId) (path : Option BuilderId) (condition : ValueId) : Emit BuilderId :=
  ifNot b .ne path condition

/-- Take the second path if the value is zero, else the first. -/
def ifBoth (b : BuilderId) (thenPath elsePath : Option BuilderId) (condition : ValueId) :
    Emit (BuilderId × BuilderId) := do
  let (z, merge) ← beginPaths b condition
  let thenPath ← prepare thenPath
  let elsePath ← prepare elsePath
  transfer b (.branch .ne) [condition, z] [← entryOf thenPath]
  follow b elsePath
  gotoBlock b merge
  if !(← isPlaced thenPath) then append b thenPath
  appendBlock b merge
  return (thenPath, elsePath)

/-- Take one of two paths, of which one may be left out. -/
def ifThenElse (b : BuilderId) (thenPath elsePath : Option (Option BuilderId))
    (condition : ValueId) : Emit (Option BuilderId × Option BuilderId) :=
  match thenPath, elsePath with
  | some thenPath, none => do
    return (some (← ifThen b thenPath condition), none)
  | none, some elsePath => do
    return (none, some (← ifElse b elsePath condition))
  | some thenPath, some elsePath => do
    let (thenPath, elsePath) ← ifBoth b thenPath elsePath condition
    return (some thenPath, some elsePath)
  | none, none => do
    let _ ← beginPaths b condition
    throw .noPath

/-! ## Conditions of several terms -/

/-- Append each term, which leaves for `target` if its condition compares so with zero. -/
def appendTerms (b : BuilderId) (c : Cmp) (target : BuilderId) :
    List (BuilderId × ValueId) → Emit Unit
  | [] => pure ()
  | (term, condition) :: rest => do
    append b term
    let _ ← ifCmpZero term c (some target) condition
    appendTerms b c target rest

/-- Append the two paths behind the terms of a condition, the first of which control falls into,
    and let both continue at `merge`. -/
def appendPaths (b first second merge : BuilderId) : Emit Unit := do
  append b first
  gotoBuilder b merge
  append b second
  append b merge

/-- Take the first path if no condition is zero, else the second.  Terms behind the first zero are
    not evaluated. -/
def ifAnd (b : BuilderId) (allTrue anyFalse : Option BuilderId)
    (terms : List (BuilderId × ValueId)) : Emit (BuilderId × BuilderId) := do
  if terms.isEmpty then throw .noConjunct
  let allTrue ← prepare allTrue
  let anyFalse ← prepare anyFalse
  let merge ← orphan
  appendTerms b .eq anyFalse terms
  appendPaths b allTrue anyFalse merge
  return (allTrue, anyFalse)

/-- Take the first path if some condition is not zero, else the second.  Terms behind the first
    that is not zero are not evaluated. -/
def ifOr (b : BuilderId) (anyTrue allFalse : Option BuilderId)
    (terms : List (BuilderId × ValueId)) : Emit (BuilderId × BuilderId) := do
  let some last := terms.getLast? | throw .noDisjunct
  let anyTrue ← prepare anyTrue
  let allFalse ← prepare allFalse
  let merge ← orphan
  appendTerms b .ne anyTrue terms.dropLast
  appendTerms b .eq allFalse [last]
  appendPaths b anyTrue allFalse merge
  return (anyTrue, allFalse)

end Emit
end MethodGraph
