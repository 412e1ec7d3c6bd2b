import MethodGraph.Graph.Order
/-!
  Dominators.

  A block `a` dominates a block `b` when every path from the entry to `b` passes through `a`.  The
  tree of immediate dominators is found by sweeps over the blocks in reverse postorder: a block's
  dominator is the meet, in the tree so far, of those predecessors that have one already.  A meet
  walks the two sides up until they agree, always the side that was finished earlier.  Sweeping
  stops when a sweep changes nothing; a block's dominator only ever moves up, so the square of the
  number of blocks bounds the sweeps.
-/

namespace MethodGraph

/-- The immediate dominators of the reachable blocks; the entry stands for its own. -/
structure DomTree where
  idom : SideTable (Option BlockId)
  deriving Repr

namespace DomTree

/-- The immediate dominator recorded for a block. -/
def get? (t : DomTree) (b : BlockId) : Option BlockId := t.idom.getD b

/-- Walk two blocks up the tree until they meet, in at most `fuel` steps. -/
def meet (t : DomTree) (o : Order) : Nat → BlockId → BlockId → BlockId
  | 0, a, _ => a
  | fuel + 1, a, b =>
    if a = b then a
    else if o.number a < o.number b then t.meet o fuel ((t.get? a).getD a) b
    else t.meet o fuel a ((t.get? b).getD b)

/-- The meet of the predecessors that have a dominator already. -/
def meetAll (t : DomTree) (o : Order) (fuel : Nat) : List BlockId → Option BlockId → Option BlockId
  | [], acc => acc
  | p :: rest, acc =>
    match t.get? p with
    | none => t.meetAll o fuel rest acc
    | some _ => t.meetAll o fuel rest <| some <|
      match acc with
      | none => p
      | some c => t.meet o fuel p c

/-- Bring the dominator of one block up to date; the second component tells of a change. -/
def refine (g : Graph) (o : Order) (st : DomTree × Bool) (b : BlockId) : DomTree × Bool :=
  if b = Graph.entry then st
  else
    match st.1.meetAll o (2 * g.blocks.size) (g.predsOf b) none with
    | none => st
    | some d => if st.1.get? b = some d then st else (⟨st.1.idom.set b (some d)⟩, true)

/-- One sweep over all blocks. -/
def sweep (g : Graph) (o : Order) (t : DomTree) : DomTree × Bool :=
  o.rpo.foldl (refine g o) (t, false)

/-- Sweep until nothing changes, at most `fuel` times. -/
def settle (g : Graph) (o : Order) : Nat → DomTree → DomTree
  | 0, t => t
  | fuel + 1, t =>
    let (t, changed) := sweep g o t
    if changed then settle g o fuel t else t

/-- The immediate dominator of a block; the entry and unreachable blocks have none. -/
def parent? (t : DomTree) (b : BlockId) : Option BlockId :=
  if b = Graph.entry then none else t.get? b

/-- Whether `a` is met on the way up from a block, within `fuel` steps. -/
def isAbove (t : DomTree) (a : BlockId) : Nat → BlockId → Bool
  | 0, _ => false
  | fuel + 1, b =>
    match t.parent? b with
    | none => false
    | some d => d = a || t.isAbove a fuel d

def dominates (t : DomTree) (a b : BlockId) : Bool :=
  if a = b then (t.get? a).isSome else t.isAbove a t.idom.items.size b

def strictlyDominates (t : DomTree) (a b : BlockId) : Bool := a ≠ b && t.dominates a b

end DomTree

/-- The dominator tree of a graph. -/
def Graph.domTree (g : Graph) (o : Order) : DomTree :=
  let n := g.blocks.size
  DomTree.settle g o (n * n + 1) ⟨(SideTable.filled n).set entry (some entry)⟩

end MethodGraph
