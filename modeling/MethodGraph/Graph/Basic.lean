import MethodGraph.Arena
import MethodGraph.Operation
/-!
  The graph of a method: basic blocks, values and symbols.

  A block is a list of operations with explicit edges.  Edges are added by whoever builds the graph
  and are never read off the operations.  A normal edge is recorded at both ends, an exceptional
  one likewise, and adding an edge a second time changes nothing.  `next` is the block that control
  falls into; setting the layout threads it through the blocks in order.

  The first two blocks are the entry and the exit of the method.
-/

namespace MethodGraph

/-- A basic block. -/
structure Block where
  operations : List Operation := []
  succs : List BlockId := []
  preds : List BlockId := []
  /-- Where control goes when an operation of the block throws. -/
  handlers : List BlockId := []
  isCold : Bool := false
  isHandler : Bool := false
  /-- The block that control falls into. -/
  next : Option BlockId := none
  deriving DecidableEq, Repr, Inhabited

/-- Append an element that a list does not have yet. -/
def addNew (xs : List Nat) (x : Nat) : List Nat := if xs.contains x then xs else xs ++ [x]

theorem mem_addNew {xs : List Nat} {x y : Nat} : y ∈ addNew xs x ↔ y ∈ xs ∨ y = x := by
  unfold addNew
  split
  · simp_all
  · simp

namespace Block

def isEmpty (b : Block) : Bool := b.operations.isEmpty

def lastOp? (b : Block) : Option Operation := b.operations.getLast?

/-- The last operation, if it ends the block. -/
def terminator? (b : Block) : Option Operation := b.lastOp?.filter (·.isTerminator)

/-- Control can continue behind the last operation. -/
def fallsThrough (b : Block) : Bool :=
  match b.lastOp? with
  | some op => !op.isUnconditional
  | none => true

/-- Where control can go: normal successors, then handlers. -/
def allSuccs (b : Block) : List BlockId := b.succs ++ b.handlers

def push (b : Block) (op : Operation) : Block := { b with operations := b.operations ++ [op] }

def addSucc (b : Block) (c : BlockId) : Block := { b with succs := addNew b.succs c }

def addPred (b : Block) (c : BlockId) : Block := { b with preds := addNew b.preds c }

def addHandler (b : Block) (c : BlockId) : Block := { b with handlers := addNew b.handlers c }

end Block

/-- Where the initial value of a symbol comes from. -/
inductive SymbolKind where
  /-- The argument at a position. -/
  | parameter (index : Nat)
  /-- The zero of its type. -/
  | localVar
  deriving DecidableEq, Repr, Inhabited

/-- A named place that holds a scalar during a run. -/
structure Symbol where
  name : String
  ty : Ty
  kind : SymbolKind
  deriving DecidableEq, Repr, Inhabited

def Symbol.isParameter (s : Symbol) : Bool :=
  match s.kind with
  | .parameter _ => true
  | .localVar => false

/-- The blocks, values and symbols of one method. -/
structure Graph where
  name : String
  returnType : Ty := .void
  blocks : Arena Block
  /-- The type of each value. -/
  values : Arena Ty := .empty
  symbols : Arena Symbol := .empty
  /-- The blocks in the order in which control falls through them; empty until it is fixed. -/
  layout : List BlockId := []
  deriving Repr, Inhabited

namespace Graph

/-- The block where a method begins. -/
abbrev entry : BlockId := 0

/-- The block where a method ends. -/
abbrev exit : BlockId := 1

/-- A graph with nothing but its entry and its exit. -/
def new (name : String) : Graph := { name, blocks := .ofList [{}, {}] }

/-! ## Blocks -/

def block? (g : Graph) (b : BlockId) : Option Block := g.blocks.get? b

/-- The block called `b`, whose absence is a fault. -/
def block (g : Graph) (b : BlockId) : Except Fault Block := g.blocks.fetch b

def newBlock (g : Graph) : BlockId × Graph :=
  let (b, blocks) := g.blocks.alloc {}
  (b, { g with blocks })

def modifyBlock (g : Graph) (b : BlockId) (f : Block → Block) : Graph :=
  { g with blocks := g.blocks.modify b f }

/-- Change the block called `b`, whose absence is a fault. -/
def updateBlock (g : Graph) (b : BlockId) (f : Block → Block) : Except Fault Graph :=
  if b < g.blocks.size then .ok (g.modifyBlock b f) else .error .indexOutOfBounds

/-- Append an operation to a block. -/
def push (g : Graph) (b : BlockId) (op : Operation) : Except Fault Graph :=
  g.updateBlock b (·.push op)

/-- Add a normal edge. -/
def addEdge (g : Graph) (source target : BlockId) : Except Fault Graph := do
  let g ← g.updateBlock source (·.addSucc target)
  g.updateBlock target (·.addPred source)

/-- Add an exceptional edge. -/
def addHandlerEdge (g : Graph) (source handler : BlockId) : Except Fault Graph := do
  let g ← g.updateBlock source (·.addHandler handler)
  g.updateBlock handler (·.addPred source)

def hasEdge (g : Graph) (source target : BlockId) : Except Fault Bool := do
  return (← g.block source).succs.contains target

/-- The normal and exceptional successors of a block; a block that is not there has none. -/
def succsOf (g : Graph) (b : BlockId) : List BlockId :=
  match g.block? b with
  | some blk => blk.allSuccs
  | none => []

/-- The predecessors of a block; a block that is not there has none. -/
def predsOf (g : Graph) (b : BlockId) : List BlockId :=
  match g.block? b with
  | some blk => blk.preds
  | none => []

/-! ## Values -/

def newValue (g : Graph) (ty : Ty) : ValueId × Graph :=
  let (v, values) := g.values.alloc ty
  (v, { g with values })

/-- The type of a value, whose absence is a fault. -/
def typeOf (g : Graph) (v : ValueId) : Except Fault Ty := g.values.fetch v

/-! ## Symbols -/

/-- The symbol called `name`. -/
def lookup (g : Graph) (name : String) : Option SymbolId :=
  g.symbols.items.findIdx? (·.name == name)

/-- The symbol called `name`, defined if there is none yet; a symbol that is there keeps its type
    and its kind. -/
def define (g : Graph) (name : String) (ty : Ty) (kind : SymbolKind) : SymbolId × Graph :=
  match g.lookup name with
  | some s => (s, g)
  | none =>
    let (s, symbols) := g.symbols.alloc { name, ty, kind }
    (s, { g with symbols })

/-- The symbols that take arguments, in the order of their definition. -/
def parameters (g : Graph) : List SymbolId :=
  (g.symbols.entries.filter (·.2.isParameter)).map (·.1)

/-! ## Layout -/

/-- Let control fall from each block of a list into the one after it. -/
def thread (g : Graph) : List BlockId → Except Fault Graph
  | [] => .ok g
  | b :: rest => do
    let g ← g.updateBlock b fun blk => { blk with next := rest.head? }
    g.thread rest

/-- Fix the order of the blocks. -/
def setLayout (g : Graph) (layout : List BlockId) : Except Fault Graph := do
  let g ← g.thread layout
  return { g with layout }

end Graph
end MethodGraph
