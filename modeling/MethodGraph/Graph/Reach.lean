import MethodGraph.BitSet
import MethodGraph.Graph.Basic
/-!
  Reachability.

  `Reaches g b` says that control can get from the entry to `b` along normal and exceptional edges.
  `reachable` computes the set of these blocks: it takes a block from a stack, and puts those of its
  successors on the stack that were not seen before.  Every block gets on the stack at most once,
  so as many rounds as there are blocks are enough.  `reachesLast` asks the same within a part of
  the graph.
-/

namespace MethodGraph.Graph

/-- There is a path from the entry. -/
inductive Reaches (g : Graph) : BlockId → Prop where
  | entry : Reaches g entry
  | step {a b : BlockId} : Reaches g a → b ∈ g.succsOf a → Reaches g b

/-- There is a path from the first block to the second. -/
inductive Path (g : Graph) : BlockId → BlockId → Prop where
  | refl (a : BlockId) : Path g a a
  | step {a b c : BlockId} : Path g a b → c ∈ g.succsOf b → Path g a c

/-- Mark the blocks of a list that are new and put them on the stack. -/
def discover : List BlockId → List BlockId × BitSet → List BlockId × BitSet
  | [], st => st
  | b :: rest, (stack, seen) =>
    let (new, seen) := seen.add b
    discover rest (if new then b :: stack else stack, seen)

/-- Follow the edges that `next` gives until the stack is empty, in at most `fuel` rounds. -/
def explore (next : BlockId → List BlockId) : Nat → List BlockId × BitSet → BitSet
  | 0, (_, seen) => seen
  | _ + 1, ([], seen) => seen
  | fuel + 1, (b :: stack, seen) => explore next fuel (discover (next b) (stack, seen))

/-- The blocks reachable from the entry. -/
def reachable (g : Graph) : BitSet :=
  explore g.succsOf g.blocks.size ([entry], (BitSet.withCapacity g.blocks.size).insert entry)

/-- Whether control can get into a part of the graph at a block: it is the entry of the part, or it
    has a predecessor outside. -/
def isEntered (g : Graph) (inside : BitSet) (start b : BlockId) : Bool :=
  b = start || (g.predsOf b).any (!inside.contains ·)

/-- Whether control that gets into a part of the graph can reach its last block without leaving
    it. -/
def reachesLast (g : Graph) (start : BlockId) (members : List BlockId) : Bool :=
  match members.getLast? with
  | none => false
  | some last =>
    let inside := members.foldl BitSet.insert .empty
    let starts := members.filter (g.isEntered inside start)
    let seen := explore (fun b => (g.succsOf b).filter inside.contains) g.blocks.size
      (discover starts ([], .empty))
    seen.contains last

end MethodGraph.Graph
