import MethodGraph.Graph.Reach
/-!
  Verification of a graph whose layout is fixed.

  A graph passes when the layout runs from the entry to the exit without placing a block twice,
  every edge of a placed block ends at a placed block, no block has a terminator before its end,
  every target of an operation is a successor of its block, every block that can throw has a
  handler, every reachable block that can fall through has an edge to the block it falls into, and
  every reachable block is placed.  The first of these that fails is the flaw that is reported.
-/

namespace MethodGraph

/-- What is wrong with a graph. -/
inductive Flaw where
  | startsElsewhere
  | endsElsewhere
  | placedTwice (block : BlockId)
  | chainEnds (times : Nat)
  | edgeToUnplaced (block target : BlockId)
  | earlyTerminator (block : BlockId)
  | targetWithoutEdge (block target : BlockId)
  | throwsUnhandled (block : BlockId)
  | fallsWithoutEdge (block next : BlockId)
  | fallsOff (block : BlockId)
  | neverPlaced (block : BlockId)
  deriving DecidableEq, Repr, Inhabited

/-- The words in which a flaw is reported. -/
def Flaw.message : Flaw → String
  | startsElsewhere => "layout does not start at entry B0"
  | endsElsewhere => "layout does not end at exit B1"
  | placedTwice b => s!"B{b} placed more than once"
  | chainEnds n => s!"layout chain terminated {n} times"
  | edgeToUnplaced b t => s!"B{b} has an edge to unplaced B{t}"
  | earlyTerminator b => s!"B{b} has a terminator before its end"
  | targetWithoutEdge b t => s!"B{b} branches to B{t} without an edge"
  | throwsUnhandled b => s!"B{b} can throw but has no handler"
  | fallsWithoutEdge b n => s!"B{b} falls into B{n} without an edge"
  | fallsOff b => s!"B{b} falls off the end of the layout"
  | neverPlaced b => s!"reachable B{b} was never placed"

namespace Graph

/-- The first block of a list that is already in it before. -/
def firstRepeat? : List BlockId → List BlockId → Option BlockId
  | _, [] => none
  | before, b :: rest => if before.contains b then some b else firstRepeat? (b :: before) rest

/-- How many placed blocks fall into none. -/
def chainEndCount (g : Graph) : Nat :=
  (g.layout.filter fun b => ((g.block? b).bind (·.next)).isNone).length

/-- Check the operations of a block from some position on. -/
def checkOps (b : BlockId) (blk : Block) : List Operation → Except Flaw Unit
  | [] => .ok ()
  | op :: rest => do
    if op.isTerminator && !rest.isEmpty then throw (.earlyTerminator b)
    match op.targets.find? fun t => !blk.succs.contains t with
    | some t => throw (.targetWithoutEdge b t)
    | none => pure ()
    if op.opcode.canThrow && blk.handlers.isEmpty then throw (.throwsUnhandled b)
    checkOps b blk rest

/-- Check that a block has an edge to the block it falls into. -/
def checkFall (b : BlockId) (blk : Block) : Except Flaw Unit :=
  match blk.next with
  | some n => if blk.succs.contains n then .ok () else .error (.fallsWithoutEdge b n)
  | none => .error (.fallsOff b)

/-- Check one placed block. -/
def checkBlock (g : Graph) (live : BitSet) (b : BlockId) : Except Flaw Unit :=
  match g.block? b with
  | none => .ok ()
  | some blk => do
    match blk.allSuccs.find? fun s => !g.layout.contains s with
    | some s => throw (.edgeToUnplaced b s)
    | none => pure ()
    checkOps b blk blk.operations
    if b ≠ exit && live.contains b && blk.fallsThrough then checkFall b blk

/-- Check a graph whose layout is fixed. -/
def verify (g : Graph) : Except Flaw Unit := do
  if g.layout.head? ≠ some entry then throw .startsElsewhere
  if g.layout.getLast? ≠ some exit then throw .endsElsewhere
  match firstRepeat? [] g.layout with
  | some b => throw (.placedTwice b)
  | none => pure ()
  if g.chainEndCount ≠ 1 then throw (.chainEnds g.chainEndCount)
  let live := g.reachable
  g.layout.forM (g.checkBlock live)
  match g.blocks.ids.find? fun b => live.contains b && !g.layout.contains b with
  | some b => throw (.neverPlaced b)
  | none => pure ()

end Graph
end MethodGraph
