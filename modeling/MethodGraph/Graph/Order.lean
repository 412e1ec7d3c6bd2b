import MethodGraph.Graph.Reach
/-!
  Reverse postorder.

  A depth-first walk from the entry, taking successors in order, finishes a block after everything
  it newly discovered from it.  Blocks put in front of each other as they finish are in reverse
  postorder: the entry comes first, and an edge that leads backwards closes a cycle.  A walk is as
  deep as there are blocks at most, which bounds the recursion.
-/

namespace MethodGraph

/-- The order in which a depth-first walk leaves the blocks of a graph. -/
structure Order where
  /-- The reachable blocks, the one finished last in front. -/
  rpo : List BlockId
  /-- The reachable blocks as a set. -/
  seen : BitSet
  /-- The position of each reachable block in the order of finishing. -/
  numbers : SideTable Nat
  deriving Repr

namespace Graph

/-- Walk on from a block that has just been marked. -/
def visit (g : Graph) : Nat → BlockId → BitSet × List BlockId → BitSet × List BlockId
  | 0, _, st => st
  | fuel + 1, b, st =>
    let (seen, done) := (g.succsOf b).foldl
      (fun (seen, done) s =>
        let (new, seen) := seen.add s
        if new then visit g fuel s (seen, done) else (seen, done))
      st
    (seen, b :: done)

/-- The order of the blocks reachable from the entry. -/
def order (g : Graph) : Order :=
  let n := g.blocks.size
  let (seen, rpo) := g.visit n entry ((BitSet.withCapacity n).insert entry, [])
  let numbers := rpo.reverse.zipIdx.foldl (fun t (b, i) => t.set b i) (SideTable.filled n)
  { rpo, seen, numbers }

end Graph

namespace Order

/-- The position of a block in the order of finishing, if it is reachable. -/
def number? (o : Order) (b : BlockId) : Option Nat :=
  if o.seen.contains b then o.numbers.get? b else none

/-- The position of a block in the order of finishing, zero if it is unreachable. -/
def number (o : Order) (b : BlockId) : Nat := (o.number? b).getD 0

def length (o : Order) : Nat := o.rpo.length

end Order
end MethodGraph
