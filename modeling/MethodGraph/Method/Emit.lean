import MethodGraph.Method.Basic
/-!
  Emitting into builders.

  Everything that is built comes down to a few steps: a new block, value, builder or symbol, an
  operation appended to a block, an edge, an entry appended to a sequence.  A transfer ends its
  block, and the next operation opens a new one, into which control falls unless the transfer was
  unconditional.  A builder appended to a sequence ends the open block too, so that what is emitted
  afterwards goes into a block behind the exit of the appended builder.

  `Emit` is a computation on a method that can only end in a fault; `Build` can fail as well, and
  then leaves the method as far as it was built.
-/

namespace MethodGraph

/-- A computation that adds to a method. -/
abbrev Emit := StateT Method (Except Fault)

/-- A computation that adds to a method and can fail. -/
abbrev Build := ExceptT BuildError Emit

namespace Emit

/-! ## The parts of a method -/

/-- Change the graph. -/
def onGraph (f : Graph → Except Fault Graph) : Emit Unit := do
  let m ← get
  let graph ← f m.graph
  set { m with graph }

def newBlock : Emit BlockId :=
  modifyGet fun m =>
    let (b, graph) := m.graph.newBlock
    (b, { m with graph })

def newValue (ty : Ty) : Emit ValueId :=
  modifyGet fun m =>
    let (v, graph) := m.graph.newValue ty
    (v, { m with graph })

def typeOf (v : ValueId) : Emit Ty := do
  (← get).graph.typeOf v

def addEdge (source target : BlockId) : Emit Unit := onGraph (·.addEdge source target)

def builder (b : BuilderId) : Emit Builder := do
  (← get).builders.fetch b

def updateBuilder (b : BuilderId) (f : Builder → Builder) : Emit Unit := do
  let m ← get
  if b < m.builders.size then set { m with builders := m.builders.modify b f }
  else throw .indexOutOfBounds

/-- A builder with blocks of its own, and with the given record, that is not part of any
    sequence. -/
def newBuilder (bytecode : Option BytecodeRecord) : Emit BuilderId := do
  let entry ← newBlock
  let exit ← newBlock
  modifyGet fun m =>
    let (b, builders) := m.builders.alloc { Builder.new entry exit with bytecode }
    (b, { m with builders })

/-- A builder that is not part of any sequence. -/
def orphan : Emit BuilderId := newBuilder none

/-- The builder that control is sent to: the given one, or else a new one. -/
def prepare : Option BuilderId → Emit BuilderId
  | some b => pure b
  | none => orphan

/-! ## Sequences -/

/-- Append an entry to a sequence and set its new end; control falls from the old end into
    `target`. -/
def extend (b : BuilderId) (entry : Entry) (tail : Tail) (target : BlockId) : Emit Unit := do
  let d ← builder b
  if d.connected then throw (.builderConnected b)
  updateBuilder b fun d => { d with sequence := d.sequence ++ [entry], tail }
  match d.tail.block? with
  | some source => addEdge source target
  | none => pure ()

/-- Append a block, which then takes operations. -/
def appendBlock (b : BuilderId) (block : BlockId) : Emit Unit :=
  extend b (.block block) (.current block) block

/-- The block that takes operations; a new one if there is none. -/
def openBlock (b : BuilderId) : Emit BlockId := do
  match (← builder b).tail with
  | .current block => return block
  | _ =>
    let block ← newBlock
    appendBlock b block
    return block

/-- Close the block that takes operations. -/
def closeBlock (b : BuilderId) (falls : Bool) : Emit Unit :=
  updateBuilder b fun d => { d with tail := d.tail.close falls }

/-- Append a builder.  Control falls into its entry and comes back from its exit. -/
def append (b child : BuilderId) : Emit Unit := do
  if child = b then throw (.builderInItself b)
  if child = Method.root then throw (.bodyAppended b)
  let d ← builder child
  if d.placed then throw (.builderPlaced child)
  updateBuilder child fun d => { d with placed := true }
  extend b (.builder child) (.owed d.exit) d.entry
  if d.isHandler then onGraph (·.updateBlock d.entry fun blk => { blk with isHandler := true })

/-- Mark a builder as reached by exceptional edges, and as rarely entered. -/
def markHandler (b : BuilderId) : Emit Unit := do
  updateBuilder b fun d => { d with isHandler := true }
  let d ← builder b
  onGraph (·.updateBlock d.entry fun blk => { blk with isHandler := true, isCold := true })

/-- Mark a builder as rarely entered. -/
def markCold (b : BuilderId) : Emit Unit := do
  let d ← builder b
  onGraph (·.updateBlock d.entry fun blk => { blk with isCold := true })

/-! ## Operations -/

/-- Append an operation that does not end its block. -/
def emit (b : BuilderId) (op : Operation) : Emit Unit := do
  let block ← openBlock b
  onGraph (·.push block op)

/-- Append an operation that computes a value of the given type. -/
def emitValue (b : BuilderId) (opcode : Opcode) (operands : List ValueId) (ty : Ty) :
    Emit ValueId := do
  let v ← newValue ty
  emit b { opcode, operands, result := some v }
  return v

/-- Append an operation that ends its block, with an edge to each of its targets. -/
def transfer (b : BuilderId) (opcode : Opcode) (operands : List ValueId)
    (targets : List BlockId) : Emit Unit := do
  let block ← openBlock b
  onGraph (·.push block { opcode, operands, targets })
  targets.forM (addEdge block)
  closeBlock b (!opcode.isUnconditional)

end Emit
end MethodGraph
