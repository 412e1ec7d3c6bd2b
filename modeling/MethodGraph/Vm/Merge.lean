import MethodGraph.Vm.Operands
/-!
  States that meet.

  Where two paths arrive at the same place, the later one stores the values of its state over the
  values of the state that the place was reached with first.  All slots of a stack or an array are
  stored as if at once: if one that is overwritten is also a source, every source is copied first.

  A state whose slots share a value cannot be stored over slot by slot, so a state that becomes the
  first of a place gets a copy of each value that it has already.
-/

namespace MethodGraph
namespace Emit

/-- Copies of all of these. -/
def copyAll (b : BuilderId) (vs : List ValueId) : Emit (List ValueId) := vs.mapM (copy b)

/-- A slot that is to receive two different values is a fault. -/
def checkShared : List (ValueId × ValueId) → List (ValueId × ValueId) → Except Fault Unit
  | _, [] => .ok ()
  | seen, (source, target) :: rest =>
    match seen.find? (·.2 = target) with
    | some (first, _) =>
      if first = source then checkShared seen rest
      else .error (.mergeShared target first source)
    | none => checkShared (seen ++ [(source, target)]) rest

/-- Some value that is overwritten is also a source. -/
def overlaps (pairs : List (ValueId × ValueId)) : Bool :=
  pairs.any fun p => pairs.any fun q => q.1 = p.2

/-- Store each source over its target, as if all at once.  A pair is a source and its target. -/
def mergeValues (b : BuilderId) (pairs : List (ValueId × ValueId)) : Emit Unit := do
  checkShared [] pairs
  let moves := pairs.filter fun p => p.1 ≠ p.2
  let sources := moves.map (·.1)
  let targets := moves.map (·.2)
  let sources ← if overlaps moves then copyAll b sources else pure sources
  (targets.zip sources).forM fun (target, source) => storeOver b target source

end Emit

namespace VmState

mutual

/-- Store a state over another of the same shape. -/
def mergeInto (b : BuilderId) : VmState → VmState → Emit Unit
  | register r, register t => if r.alike t then pure () else throw .mergeRegisters
  | fieldRegister r, fieldRegister t => if r = t then pure () else throw .mergeRegisters
  | stack s, stack t =>
    if s.alike t then Emit.mergeValues b (s.slots.zip t.slots)
    else throw (.mergeStacks s.depth t.depth)
  | array s, array t =>
    if s.alike t then Emit.mergeValues b (s.slots.zip t.slots)
    else throw (.mergeArrays s.length t.length)
  | composite ss, composite ts =>
    if ss.length = ts.length then mergeAll b ss ts
    else throw (.mergeComposites ss.length ts.length)
  | s, t => throw (.mergeKinds s.kind t.kind)

/-- Store several states over others, pairwise and in order. -/
def mergeAll (b : BuilderId) : List VmState → List VmState → Emit Unit
  | s :: ss, t :: ts => do
    mergeInto b s t
    mergeAll b ss ts
  | _, _ => pure ()

end

/-- Replace each value that was seen before by a copy of it.  The second component has the values
    seen so far. -/
def dealiasSlots (b : BuilderId) :
    List ValueId → List ValueId → Emit (List ValueId × List ValueId)
  | [], seen => return ([], seen)
  | v :: rest, seen => do
    let v ← if seen.contains v then Emit.copy b v else pure v
    let (rest, seen) ← dealiasSlots b rest (v :: seen)
    return (v :: rest, seen)

mutual

/-- Replace each value of a state that was seen before by a copy of it. -/
def dealiasWith (b : BuilderId) : VmState → List ValueId → Emit (VmState × List ValueId)
  | register r, seen => return (register r, seen)
  | fieldRegister r, seen => return (fieldRegister r, seen)
  | stack s, seen => do
    let (slots, seen) ← dealiasSlots b s.slots seen
    return (stack { s with slots }, seen)
  | array a, seen => do
    let (slots, seen) ← dealiasSlots b a.slots seen
    return (array { a with slots }, seen)
  | composite parts, seen => do
    let (parts, seen) ← dealiasAll b parts seen
    return (composite parts, seen)

/-- Replace each value of several states that was seen before by a copy of it. -/
def dealiasAll (b : BuilderId) : List VmState → List ValueId →
    Emit (List VmState × List ValueId)
  | [], seen => return ([], seen)
  | p :: rest, seen => do
    let (p, seen) ← dealiasWith b p seen
    let (rest, seen) ← dealiasAll b rest seen
    return (p :: rest, seen)

end

/-- Give every slot a value of its own. -/
def dealias (b : BuilderId) (s : VmState) : Emit VmState := do
  return (← s.dealiasWith b []).1

end VmState
end MethodGraph
