import MethodGraph.Graph.Dominators
import MethodGraph.Total
/-!
  Natural loops.

  A normal edge whose target dominates its source is a back edge, and its target heads a loop.  The
  loop's body holds the header and everything from which a source of such an edge can be reached
  against the edges without passing the header; all back edges to one header make one loop.  Loops
  are numbered in the order of their discovery, and bodies list blocks in the order in which they
  were taken in.

  The parent of a loop is the smallest other loop whose body contains its header, the first one of
  equals; its depth counts the loops on the way up, itself included.
-/

namespace MethodGraph

/-- A natural loop. -/
structure Loop where
  header : BlockId
  /-- Where control comes back from. -/
  sources : List BlockId := []
  body : List BlockId
  /-- The number of the loop around this one. -/
  parent : Option Nat := none
  depth : Nat := 1
  deriving DecidableEq, Repr, Inhabited

namespace Loop

/-- Take the blocks of a queue into a body, and after them the predecessors of those that are new,
    in at most `fuel` rounds. -/
def grow (g : Graph) : Nat → List BlockId → List BlockId → List BlockId
  | 0, _, body => body
  | _ + 1, [], body => body
  | fuel + 1, b :: queue, body =>
    if body.contains b then grow g fuel queue body
    else grow g fuel (queue ++ g.predsOf b) (body ++ [b])

/-- Enough rounds to take in everything: every block brings its predecessors once. -/
def growBound (g : Graph) : Nat := total (g.blocks.ids.map fun b => (g.predsOf b).length) + 1

/-- Add a back edge to its loop. -/
def addSource (g : Graph) (source : BlockId) (l : Loop) : Loop :=
  if l.sources.contains source then l
  else
    { l with
      sources := l.sources ++ [source]
      body := grow g (growBound g) [source] l.body }

/-- Add a back edge to the loop of its header, which is made if there is none. -/
def record (g : Graph) (header source : BlockId) : List Loop → List Loop
  | [] => [addSource g source { header, body := [header] }]
  | l :: rest =>
    if l.header = header then addSource g source l :: rest else l :: record g header source rest

/-- All back edges, in the order of the blocks they leave. -/
def backEdges (g : Graph) (o : Order) (t : DomTree) : List (BlockId × BlockId) :=
  o.rpo.flatMap fun b =>
    match g.block? b with
    | none => []
    | some blk => (blk.succs.filter (t.dominates · b)).map fun h => (h, b)

/-- The number of the smallest other loop that contains the header of loop `i`. -/
def smallestAround (loops : List Loop) (i : Nat) (header : BlockId) : Option Nat :=
  let around := loops.zipIdx.filter fun (l, j) => j ≠ i && l.body.contains header
  (around.foldl
    (fun best (l, j) =>
      match best with
      | none => some (l.body.length, j)
      | some (size, _) => if l.body.length < size then some (l.body.length, j) else best)
    (none : Option (Nat × Nat))).map (·.2)

/-- How many loops there are from some loop upwards, counting at most `fuel`. -/
def chainLength (loops : List Loop) : Nat → Option Nat → Nat
  | 0, _ => 0
  | _ + 1, none => 0
  | fuel + 1, some i => chainLength loops fuel ((loops[i]?).bind (·.parent)) + 1

/-- Give every loop its parent and its depth. -/
def nest (loops : List Loop) : List Loop :=
  let withParents := loops.zipIdx.map fun (l, i) =>
    { l with parent := smallestAround loops i l.header }
  withParents.map fun l => { l with depth := chainLength withParents loops.length l.parent + 1 }

end Loop

/-- The loops of a graph. -/
def Graph.loops (g : Graph) (o : Order) (t : DomTree) : List Loop :=
  Loop.nest ((Loop.backEdges g o t).foldl (fun ls (h, b) => Loop.record g h b ls) [])

namespace Loop

def backEdgeCount (loops : List Loop) : Nat := total (loops.map (·.sources.length))

/-- Whether a block heads a loop. -/
def isHeader (loops : List Loop) (b : BlockId) : Bool := loops.any (·.header == b)

/-- The depth of the innermost loop around a block, zero outside of all loops. -/
def depthOf (loops : List Loop) (b : BlockId) : Nat :=
  ((loops.filter (·.body.contains b)).map (·.depth)).foldl max 0

end Loop
end MethodGraph
