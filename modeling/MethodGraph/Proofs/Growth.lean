import Mathlib.Logic.Relation
import MethodGraph.Proofs.Inversion
/-!
  How a method grows.

  Whatever is built is built in a few kinds of steps, and `Step` lists them with all that can be
  relied on when one is taken.  In the middle of a construct a method is a `Draft`: it has blocks
  that are part of no sequence yet, and blocks that can throw and wait for their handler.  Control
  falls out of a sequence only along an edge, so an entry is appended when the edge into it is
  there (`place`, `nest`), and a transfer is appended when its edges are there (`close`); that the
  emitting code does these in another order makes no difference to the result.

  `Builds` is any number of steps.  A computation is `Lawful` if all it does is such steps and it
  leaves nothing open.  Facts about methods are proved for single steps and hold after everything
  that is built.

  A `License` says which steps are taken that some laws exclude: a builder's record may change, and
  so may the state that the bytecode starts with; a builder may start from a state anew; the end
  of a sequence may be forgotten; and more may be done than to emit operations that suit the graph
  (`Operation.Suits`): a value that one computes has the type that the operation computes at.
-/

namespace MethodGraph

open Method List Arena Nat Block

variable {blk : Block} {x y z : BlockId} {s t : Draft} {l : License}

/-! ## Operations that suit their graph -/

/-- The values and the symbols of a graph are in another one with the same types. -/
structure Graph.Keeps (g g' : Graph) : Prop where
  values : ∀ v ty, g.values.get? v = some ty → g'.values.get? v = some ty
  symbols : ∀ s y, g.symbols.get? s = some y → g'.symbols.get? s = some y

theorem Graph.Keeps.refl (g : Graph) : g.Keeps g := ⟨fun _ _ h => h, fun _ _ h => h⟩

theorem Graph.Keeps.trans {g1 g2 g3 : Graph} (h : g1.Keeps g2) (h' : g2.Keeps g3) : g1.Keeps g3 :=
  ⟨fun v ty hv => h'.values v ty (h.values v ty hv),
    fun s y hs => h'.symbols s y (h.symbols s y hs)⟩

/-- The type of the result is the one that the operation computes at, and a value is overwritten
    with one of its own type.  Arithmetic is done at the type of its first operand or on addresses.
    An operation that brings its result to the type of the value, or that gets it from outside,
    suits in any case; so does a store to a symbol, whatever the types are. -/
def Operation.Suits (g : Graph) (op : Operation) : Prop :=
  match op.opcode, op.result with
  | .constFloat _, some v => ∃ ty, g.values.get? v = some ty ∧ ty.isFloating = true
  | .load s, some v => ∃ y, g.symbols.get? s = some y ∧ g.values.get? v = some y.ty
  | .arith _, some v =>
    ∃ w ty, op.operands[0]? = some w ∧ g.values.get? w = some ty ∧
      (g.values.get? v = some ty ∨ g.values.get? v = some .address)
  | .atomicAdd, some v =>
    ∃ w ty, op.operands[1]? = some w ∧ g.values.get? w = some ty ∧ g.values.get? v = some ty
  | .indexAt _, some v | .offsetAt _, some v | .localAlloc _, some v =>
    g.values.get? v = some .address
  | .storeOver, _ => ∃ v w ty, op.operands[0]? = some v ∧ op.operands[1]? = some w ∧
    g.values.get? v = some ty ∧ g.values.get? w = some ty
  | _, _ => True

theorem Operation.Suits.mono {g g' : Graph} {op : Operation} (h : op.Suits g) (hg : g.Keeps g') :
    op.Suits g' := by
  obtain ⟨opcode, operands, result, targets⟩ := op
  cases opcode with
  | constFloat x =>
    cases result with
    | none => trivial
    | some v =>
      obtain ⟨ty, hv, hty⟩ := h
      exact ⟨ty, hg.values v ty hv, hty⟩
  | load s =>
    cases result with
    | none => trivial
    | some v =>
      obtain ⟨y, hs, hv⟩ := h
      exact ⟨y, hg.symbols s y hs, hg.values v _ hv⟩
  | arith a =>
    cases result with
    | none => trivial
    | some v =>
      obtain ⟨w, ty, ho, hw, hv⟩ := h
      exact ⟨w, ty, ho, hg.values w ty hw, hv.imp (hg.values v ty) (hg.values v _)⟩
  | atomicAdd =>
    cases result with
    | none => trivial
    | some v =>
      obtain ⟨w, ty, ho, hw, hv⟩ := h
      exact ⟨w, ty, ho, hg.values w ty hw, hg.values v ty hv⟩
  | indexAt | offsetAt | localAlloc =>
    cases result with
    | none => trivial
    | some v => exact hg.values v _ h
  | storeOver =>
    obtain ⟨v, w, ty, h0, h1, hv, hw⟩ := h
    exact ⟨v, w, ty, h0, h1, hg.values v ty hv, hg.values w ty hw⟩
  | _ => trivial

/-- The operation neither ends its block nor can it leave it. -/
structure Operation.IsStraight (op : Operation) : Prop where
  stays : op.isTerminator = false
  safe : op.opcode.canThrow = false
  targets : op.targets = []

/-! ## Steps -/

/-- A method in the middle of a construct. -/
structure Draft where
  method : Method
  /-- Blocks that are part of no sequence yet. -/
  loose : List BlockId
  /-- Blocks that can throw and have no handler yet. -/
  risky : List BlockId

/-- The steps that are taken besides those that every construct takes. -/
structure License where
  /-- The record of a bytecode builder may change, and the state that the bytecode starts with. -/
  records : Bool
  /-- A bytecode builder that has an initial state may get another. -/
  restarts : Bool
  /-- The end of a sequence may be forgotten, so that nothing falls out of it any more. -/
  forgets : Bool
  /-- Operations need not suit the graph, and what is neither in the graph nor in a builder may
      change. -/
  strays : Bool

/-- Whether a builder may have one record after another. -/
def License.Allows (l : License) (old new : Option BytecodeRecord) : Prop :=
  new = old ∨ l.records = true ∧ ∃ r r', old = some r ∧ new = some r' ∧ r'.index = r.index ∧
    (l.restarts = true ∨ r.initial = none ∨ r'.initial = r.initial)

theorem License.allows_refl (l : License) (r : Option BytecodeRecord) : l.Allows r r := .inl rfl

/-- The blocks differ in their marks only. -/
structure Block.SameCode (blk blk' : Block) : Prop where
  operations : blk'.operations = blk.operations
  succs : blk'.succs = blk.succs
  preds : blk'.preds = blk.preds
  handlers : blk'.handlers = blk.handlers

/-- The builders differ in their marks and records only. -/
structure Builder.SamePlan (d d' : Builder) : Prop where
  entry : d'.entry = d.entry
  exit : d'.exit = d.exit
  sequence : d'.sequence = d.sequence
  tail : d'.tail = d.tail
  placed : d'.placed = d.placed
  connected : d'.connected = d.connected
  count : d'.count = d.count
  blocks : d'.blocks = d.blocks
  derived : d'.derived = d.derived

/-- Append an entry to the sequence and set its new end. -/
def Builder.extend (d : Builder) (entry : Entry) (tail : Tail) : Builder :=
  { d with sequence := d.sequence ++ [entry], tail }

namespace Method

/-- The methods have the same blocks and builders, and what has a type or a name keeps it. -/
structure Quiet (m m' : Method) : Prop where
  builders : m'.builders = m.builders
  blocks : m'.graph.blocks = m.graph.blocks
  layout : m'.graph.layout = m.graph.layout
  connected : m'.connected = m.connected
  config : m'.config = m.config
  values : ∀ v ty, m.graph.values.get? v = some ty → m'.graph.values.get? v = some ty
  symbols : ∀ s y, m.graph.symbols.get? s = some y → m'.graph.symbols.get? s = some y

theorem Quiet.refl (m : Method) : m.Quiet m :=
  ⟨rfl, rfl, rfl, rfl, rfl, fun _ _ h => h, fun _ _ h => h⟩

/-- Add a block. -/
def addBlock (m : Method) : Method := { m with graph := m.graph.newBlock.2 }

/-- Add a builder with blocks of its own. -/
def addBuilder (m : Method) (record : Option BytecodeRecord) : Method :=
  { m with
    graph := m.graph.newBlock.2.newBlock.2
    builders := (m.builders.alloc
      { Builder.new m.graph.blocks.size (m.graph.blocks.size + 1) with bytecode := record }).2 }

/-- There is a normal edge. -/
def HasEdge (m : Method) (source target : BlockId) : Prop :=
  ∃ blk, m.block? source = some blk ∧ target ∈ blk.succs

end Method

/-- A block that control may be sent to: it will be part of a sequence, it is the entry of a
    builder, or it is the exit of the method. -/
def Draft.IsTarget (s : Draft) (x : BlockId) : Prop :=
  x ∈ s.loose ∨ (∃ b d, s.method.builder? b = some d ∧ d.entry = x) ∨ x = Graph.exit

/-- The steps of building. -/
inductive Step (l : License) : Draft → Draft → Prop where
  /-- Nothing happens to blocks and builders. -/
  | quiet {m m' : Method} {loose risky : List BlockId} (h : m.Quiet m')
    (hs : l.records = true ∨ m'.vmState = m.vmState)
    (hrest : l.strays = true ∨ m' = { m with graph := m'.graph }) :
    Step l ⟨m, loose, risky⟩ ⟨m', loose, risky⟩
  /-- A block is marked. -/
  | flag {m : Method} {loose risky : List BlockId} (x : BlockId) (f : Block → Block)
    (hf : ∀ blk, Block.SameCode blk (f blk)) :
    Step l ⟨m, loose, risky⟩ ⟨m.withBlock x f, loose, risky⟩
  /-- A builder is marked or gets another record. -/
  | tag {m : Method} {loose risky : List BlockId} (b : BuilderId) (f : Builder → Builder)
    (hf : ∀ d, m.builder? b = some d → d.SamePlan (f d) ∧ l.Allows d.bytecode (f d).bytecode) :
    Step l ⟨m, loose, risky⟩ ⟨m.withBuilder b f, loose, risky⟩
  /-- A new block, which is part of no sequence. -/
  | newBlock {m : Method} {loose risky : List BlockId} :
    Step l ⟨m, loose, risky⟩ ⟨m.addBlock, m.graph.blocks.size :: loose, risky⟩
  /-- A new builder, which no state has arrived at. -/
  | newBuilder {m : Method} {loose risky : List BlockId} (record : Option BytecodeRecord)
    (hr : ∀ r, record = some r → r.initial = none ∧ r.state = none) :
    Step l ⟨m, loose, risky⟩ ⟨m.addBuilder record, loose, risky⟩
  /-- A normal edge. -/
  | edge {m : Method} {loose risky : List BlockId} (x y : BlockId)
    (hx : x < m.graph.blocks.size) (hy : y < m.graph.blocks.size)
    (ht : Draft.IsTarget ⟨m, loose, risky⟩ y) :
    Step l ⟨m, loose, risky⟩ ⟨m.withEdge x y, loose, risky⟩
  /-- A block becomes the end of a sequence. -/
  | place {m : Method} {loose risky : List BlockId} {b : BuilderId} {d : Builder} (x : BlockId)
    (hb : m.builder? b = some d) (hx : x ∈ loose)
    (he : ∀ y, d.tail.block? = some y → m.HasEdge y x) :
    Step l ⟨m, loose, risky⟩
      ⟨m.withBuilder b (·.extend (.block x) (.current x)), loose.erase x, risky⟩
  /-- A builder becomes part of a sequence. -/
  | nest {m : Method} {loose risky : List BlockId} {b c : BuilderId} {d e : Builder}
    (hb : m.builder? b = some d) (hc : m.builder? c = some e) (hne : c ≠ b)
    (hroot : c ≠ Method.root) (hfree : e.placed = false)
    (he : ∀ y, d.tail.block? = some y → m.HasEdge y e.entry) :
    Step l ⟨m, loose, risky⟩
      ⟨(m.withBuilder c ({ · with placed := true })).withBuilder b
        (·.extend (.builder c) (.owed e.exit)), loose, risky⟩
  /-- An operation that does not end its block. -/
  | push {m : Method} {loose risky : List BlockId} {b : BuilderId} {d : Builder} {x : BlockId}
    (op : Operation) (hb : m.builder? b = some d) (hx : d.tail = .current x)
    (hop : op.isTerminator = false) (htargets : op.targets = [])
    (hsuits : l.strays = true ∨ op.Suits m.graph) :
    Step l ⟨m, loose, risky⟩
      ⟨m.withBlock x (·.push op), loose, if op.opcode.canThrow then x :: risky else risky⟩
  /-- An operation that ends its block. -/
  | close {m : Method} {loose risky : List BlockId} {b : BuilderId} {d : Builder} {x : BlockId}
    (op : Operation) (hb : m.builder? b = some d) (hx : d.tail = .current x)
    (hop : op.isTerminator = true) (he : ∀ t ∈ op.targets, m.HasEdge x t)
    (hsuits : l.strays = true ∨ op.Suits m.graph) :
    Step l ⟨m, loose, risky⟩
      ⟨(m.withBlock x (·.push op)).withBuilder b
        (fun d => { d with tail := d.tail.close (!op.isUnconditional) }), loose, risky⟩
  /-- An exceptional edge. -/
  | handle {m : Method} {loose risky risky' : List BlockId} (x y : BlockId)
    (hx : x < m.graph.blocks.size) (hy : y < m.graph.blocks.size)
    (ht : Draft.IsTarget ⟨m, loose, risky⟩ y) (hr : ∀ z ∈ risky, z = x ∨ z ∈ risky') :
    Step l ⟨m, loose, risky⟩ ⟨m.withHandler x y, loose, risky'⟩
  /-- The open block takes no more operations, and control falls from it. -/
  | split {m : Method} {loose risky : List BlockId} {b : BuilderId} {d : Builder} {x : BlockId}
    (hb : m.builder? b = some d) (hx : d.tail = .current x) :
    Step l ⟨m, loose, risky⟩ ⟨m.withBuilder b ({ · with tail := .owed x }), loose, risky⟩
  /-- Control falls no more out of a sequence without an open block. -/
  | forget {m : Method} {loose risky : List BlockId} {b : BuilderId} {d : Builder}
    (hl : l.forgets = true) (hb : m.builder? b = some d) (hx : ∀ x, d.tail ≠ .current x) :
    Step l ⟨m, loose, risky⟩ ⟨m.withBuilder b ({ · with tail := .closed }), loose, risky⟩

/-- Any number of steps of building. -/
abbrev Builds (l : License) : Draft → Draft → Prop := Relation.ReflTransGen (Step l)

theorem Step.builds (h : Step l s t) : Builds l s t := .single h

/-- What a step keeps is kept by everything that is built. -/
theorem Builds.keeps {P : Draft → Prop} (hP : ∀ s t, Step l s t → P s → P t)
    (h : Builds l s t) (hs : P s) : P t := by
  induction h with
  | refl => exact hs
  | tail _ hst ih => exact hP _ _ hst ih

/-! ## What stays -/

namespace Method

variable {m : Method}

theorem builder?_addBuilder (r : Option BytecodeRecord) (b : BuilderId) :
    (m.addBuilder r).builder? b =
      if b = m.builders.size then
        some { Builder.new m.graph.blocks.size (m.graph.blocks.size + 1) with bytecode := r }
      else m.builder? b := get?_alloc ..

theorem block?_addBlock (x : BlockId) :
    m.addBlock.block? x = if x = m.graph.blocks.size then some {} else m.block? x :=
  get?_alloc ..

@[simp] theorem size_addBlock : m.addBlock.graph.blocks.size = m.graph.blocks.size + 1 :=
  size_alloc ..

@[simp] theorem size_addBuilder (r : Option BytecodeRecord) :
    (m.addBuilder r).graph.blocks.size = m.graph.blocks.size + 2 := by
  show (m.addBlock.graph.newBlock.2).blocks.size = _
  show (m.addBlock.graph.blocks.alloc {}).2.size = _
  rw [size_alloc, size_addBlock]

theorem block?_addBuilder (r : Option BytecodeRecord) (x : BlockId) :
    (m.addBuilder r).block? x =
      if x = m.graph.blocks.size ∨ x = m.graph.blocks.size + 1 then some {} else m.block? x := by
  show m.addBlock.addBlock.block? x = _
  rw [block?_addBlock, block?_addBlock, size_addBlock]
  by_cases h1 : x = m.graph.blocks.size <;> by_cases h2 : x = m.graph.blocks.size + 1 <;>
    simp [h1, h2]

theorem block?_withEdge (x y z : BlockId) :
    (m.withEdge x y).block? z = (m.block? z).map fun blk =>
      let blk := if x = z then blk.addSucc y else blk
      if y = z then blk.addPred x else blk := by
  unfold withEdge
  rw [block?_withBlock, block?_withBlock]
  by_cases hx : x = z <;> by_cases hy : y = z <;> simp [hx, hy] <;> rfl

theorem block?_withHandler (x y z : BlockId) :
    (m.withHandler x y).block? z = (m.block? z).map fun blk =>
      let blk := if x = z then blk.addHandler y else blk
      if y = z then blk.addPred x else blk := by
  unfold withHandler
  rw [block?_withBlock, block?_withBlock]
  by_cases hx : x = z <;> by_cases hy : y = z <;> simp [hx, hy] <;> rfl

/-- A block after an edge was added somewhere. -/
theorem of_block?_withEdge
    (h : (m.withEdge x y).block? z = some blk) : ∃ old, m.block? z = some old ∧
      blk.operations = old.operations ∧ blk.handlers = old.handlers ∧
      (∀ w, w ∈ blk.succs ↔ w ∈ old.succs ∨ x = z ∧ w = y) ∧
      ∀ w, w ∈ blk.preds ↔ w ∈ old.preds ∨ y = z ∧ w = x := by
  rw [block?_withEdge] at h
  obtain ⟨old, hold, rfl⟩ := Option.map_eq_some_iff.1 h
  refine ⟨old, hold, ?_⟩
  by_cases hx : x = z <;> by_cases hy : y = z <;>
    simp [hx, hy, addSucc, addPred, mem_addNew]

/-- A block after an exceptional edge was added somewhere. -/
theorem of_block?_withHandler
    (h : (m.withHandler x y).block? z = some blk) : ∃ old, m.block? z = some old ∧
      blk.operations = old.operations ∧ blk.succs = old.succs ∧
      (∀ w, w ∈ blk.handlers ↔ w ∈ old.handlers ∨ x = z ∧ w = y) ∧
      ∀ w, w ∈ blk.preds ↔ w ∈ old.preds ∨ y = z ∧ w = x := by
  rw [block?_withHandler] at h
  obtain ⟨old, hold, rfl⟩ := Option.map_eq_some_iff.1 h
  refine ⟨old, hold, ?_⟩
  by_cases hx : x = z <;> by_cases hy : y = z <;>
    simp [hx, hy, addHandler, addPred, mem_addNew]

theorem HasEdge.withEdge (h : m.HasEdge x y) (a c : BlockId) : (m.withEdge a c).HasEdge x y := by
  grind [block?_withEdge, addSucc, addPred, mem_addNew, HasEdge]

theorem hasEdge_withEdge (hx : x < m.graph.blocks.size) : (m.withEdge x y).HasEdge x y := by
  grind [exists_block?, block?_withEdge, addSucc, addPred, mem_addNew, HasEdge]

end Method

/-- A builder only gets more. -/
structure Builder.Below (l : License) (d e : Builder) : Prop where
  entry : e.entry = d.entry
  exit : e.exit = d.exit
  sequence : d.sequence <+: e.sequence
  placed : d.placed = true → e.placed = true
  record : l.Allows d.bytecode e.bytecode

/-- A block only gets more. -/
structure Block.Below (blk blk' : Block) : Prop where
  operations : blk.operations <+: blk'.operations
  succs : ∀ y ∈ blk.succs, y ∈ blk'.succs
  handlers : ∀ y ∈ blk.handlers, y ∈ blk'.handlers
  preds : ∀ y ∈ blk.preds, y ∈ blk'.preds

/-- A draft only gets more: builders and blocks stay with what they have, and so do the types of
    values and the symbols. -/
structure Draft.Below (l : License) (s t : Draft) : Prop where
  builders : ∀ b d, s.method.builder? b = some d →
    ∃ e, t.method.builder? b = some e ∧ d.Below l e
  blocks : ∀ x blk, s.method.block? x = some blk → ∃ blk', t.method.block? x = some blk' ∧
    blk.Below blk'
  config : t.method.config = s.method.config
  values : ∀ v ty, s.method.graph.values.get? v = some ty →
    t.method.graph.values.get? v = some ty
  symbols : ∀ y sy, s.method.graph.symbols.get? y = some sy →
    t.method.graph.symbols.get? y = some sy

theorem License.Allows.trans {r1 r2 r3 : Option BytecodeRecord}
    (h1 : l.Allows r1 r2) (h2 : l.Allows r2 r3) : l.Allows r1 r3 := by grind [License.Allows]

theorem Builder.Below.refl (l : License) (d : Builder) : d.Below l d :=
  ⟨rfl, rfl, prefix_refl _, id, l.allows_refl _⟩

theorem Builder.Below.trans {d e f : Builder} (h1 : d.Below l e) (h2 : e.Below l f) : d.Below l f :=
  ⟨h2.entry.trans h1.entry, h2.exit.trans h1.exit, h1.sequence.trans h2.sequence,
    fun h => h2.placed (h1.placed h), h1.record.trans h2.record⟩

theorem Block.Below.refl (blk : Block) : blk.Below blk :=
  ⟨prefix_refl _, fun _ h => h, fun _ h => h, fun _ h => h⟩

theorem Block.Below.trans {b1 b2 b3 : Block} (h1 : b1.Below b2) (h2 : b2.Below b3) :
    b1.Below b3 :=
  ⟨h1.operations.trans h2.operations, fun y h => h2.succs y (h1.succs y h),
    fun y h => h2.handlers y (h1.handlers y h), fun y h => h2.preds y (h1.preds y h)⟩

theorem Block.below_addSucc (blk : Block) (y : BlockId) : blk.Below (blk.addSucc y) :=
  ⟨prefix_refl _, fun _ h => mem_addNew.2 (.inl h), fun _ h => h, fun _ h => h⟩

theorem Block.below_addPred (blk : Block) (y : BlockId) : blk.Below (blk.addPred y) :=
  ⟨prefix_refl _, fun _ h => h, fun _ h => h, fun _ h => mem_addNew.2 (.inl h)⟩

theorem Block.below_addHandler (blk : Block) (y : BlockId) : blk.Below (blk.addHandler y) :=
  ⟨prefix_refl _, fun _ h => h, fun _ h => mem_addNew.2 (.inl h), fun _ h => h⟩

theorem Block.below_push (blk : Block) (op : Operation) : blk.Below (blk.push op) :=
  ⟨prefix_append .., fun _ h => h, fun _ h => h, fun _ h => h⟩

namespace Draft.Below

variable {l : License} {m m' : Method} {loose risky loose' risky' : List BlockId}

theorem refl (l : License) (s : Draft) : s.Below l s :=
  ⟨fun _ d h => ⟨d, h, .refl l d⟩, fun _ blk h => ⟨blk, h, .refl blk⟩, rfl, fun _ _ h => h,
    fun _ _ h => h⟩

theorem trans {u : Draft} (h1 : s.Below l t) (h2 : t.Below l u) : s.Below l u where
  builders b d hd := by
    obtain ⟨e, he, hde⟩ := h1.builders b d hd
    obtain ⟨f, hf, hef⟩ := h2.builders b e he
    exact ⟨f, hf, hde.trans hef⟩
  blocks x blk hx := by
    obtain ⟨blk1, h, hb⟩ := h1.blocks x blk hx
    obtain ⟨blk2, h', hb'⟩ := h2.blocks x blk1 h
    exact ⟨blk2, h', hb.trans hb'⟩
  config := h2.config.trans h1.config
  values v ty h := h2.values v ty (h1.values v ty h)
  symbols y sy h := h2.symbols y sy (h1.symbols y sy h)

/-- Changing one builder. -/
theorem withBuilder (b : BuilderId) {f : Builder → Builder}
    (hf : ∀ d, m.builder? b = some d → d.Below l (f d)) :
    Below l ⟨m, loose, risky⟩ ⟨m.withBuilder b f, loose', risky'⟩ where
  builders c d hd := by
    by_cases h : b = c
    · subst h
      exact ⟨f d, by rw [builder?_withBuilder, if_pos rfl, hd]; rfl, hf d hd⟩
    · exact ⟨d, by rw [builder?_withBuilder, if_neg h]; exact hd, .refl l d⟩
  blocks _ blk h := ⟨blk, h, .refl blk⟩
  config := rfl
  values _ _ h := h
  symbols _ _ h := h

/-- Changing one block. -/
theorem withBlock (x : BlockId) {f : Block → Block} (hf : ∀ blk, Block.Below blk (f blk)) :
    Below l ⟨m, loose, risky⟩ ⟨m.withBlock x f, loose', risky'⟩ where
  builders _ d h := ⟨d, h, .refl l d⟩
  blocks y blk hy := by
    by_cases h : x = y
    · exact ⟨f blk, by rw [block?_withBlock, if_pos h, hy]; rfl, hf blk⟩
    · exact ⟨blk, by rw [block?_withBlock, if_neg h]; exact hy, .refl blk⟩
  config := rfl
  values _ _ h := h
  symbols _ _ h := h

theorem quiet (h : m.Quiet m') : Below l ⟨m, loose, risky⟩ ⟨m', loose', risky'⟩ where
  builders b d hd := ⟨d, (congrArg (get? · b) h.builders).trans hd, .refl l d⟩
  blocks x blk hx := ⟨blk, (congrArg (get? · x) h.blocks).trans hx, .refl blk⟩
  config := h.config
  values := h.values
  symbols := h.symbols

theorem addBlock : Below l ⟨m, loose, risky⟩ ⟨m.addBlock, loose', risky'⟩ where
  builders _ d h := ⟨d, h, .refl l d⟩
  blocks x blk hx := by
    refine ⟨blk, ?_, .refl blk⟩
    rw [block?_addBlock, if_neg (Nat.ne_of_lt (lt_of_block? hx))]
    exact hx
  config := rfl
  values _ _ h := h
  symbols _ _ h := h

theorem addBuilder (r : Option BytecodeRecord) :
    Below l ⟨m, loose, risky⟩ ⟨m.addBuilder r, loose', risky'⟩ where
  builders b d hd := by
    refine ⟨d, ?_, .refl l d⟩
    rw [builder?_addBuilder, if_neg (Nat.ne_of_lt (lt_of_builder? hd))]
    exact hd
  blocks x blk hx := by
    refine ⟨blk, ?_, .refl blk⟩
    have hlt : x < m.graph.blocks.size := lt_of_block? hx
    have hold : ¬ (x = m.graph.blocks.size ∨ x = m.graph.blocks.size + 1) := by grind
    rw [block?_addBuilder, if_neg hold]
    exact hx
  config := rfl
  values _ _ h := h
  symbols _ _ h := h

theorem withEdge (x y : BlockId) :
    Below l ⟨m, loose, risky⟩ ⟨m.withEdge x y, loose', risky'⟩ :=
  have h : Below l ⟨m, loose, risky⟩ ⟨m.withBlock x (·.addSucc y), loose, risky⟩ :=
    withBlock x fun blk => blk.below_addSucc y
  h.trans (withBlock y fun blk => blk.below_addPred x)

theorem withHandler (x y : BlockId) :
    Below l ⟨m, loose, risky⟩ ⟨m.withHandler x y, loose', risky'⟩ :=
  have h : Below l ⟨m, loose, risky⟩ ⟨m.withBlock x (·.addHandler y), loose, risky⟩ :=
    withBlock x fun blk => blk.below_addHandler y
  h.trans (withBlock y fun blk => blk.below_addPred x)

end Draft.Below

theorem Builder.below_extend (l : License) (d : Builder) (entry : Entry) (tail : Tail) :
    d.Below l (d.extend entry tail) :=
  ⟨rfl, rfl, prefix_append .., id, l.allows_refl _⟩

theorem Builder.below_tail (l : License) (d : Builder) (tail : Tail) :
    d.Below l { d with tail } := ⟨rfl, rfl, List.prefix_refl _, id, l.allows_refl _⟩

theorem Step.below (h : Step l s t) : s.Below l t := by
  cases h with
  | quiet h => exact .quiet h
  | flag x f hf =>
    refine .withBlock x fun blk => ?_
    have h := hf blk
    refine ⟨h.operations ▸ prefix_refl _, fun y hy => ?_, fun y hy => ?_, fun y hy => ?_⟩
    · rwa [h.succs]
    · rwa [h.handlers]
    · rwa [h.preds]
  | tag b f hf =>
    refine .withBuilder b fun d hd => ?_
    obtain ⟨h, hr⟩ := hf d hd
    exact ⟨h.entry, h.exit, h.sequence ▸ prefix_refl _, fun hp => h.placed.trans hp, hr⟩
  | newBlock => exact .addBlock
  | newBuilder r => exact .addBuilder r
  | edge x y => exact .withEdge x y
  | place x hb hx he => exact .withBuilder _ fun d _ => d.below_extend l _ _
  | @nest m loose risky b c d e hb hc hne hroot hfree he =>
    have h1 : Draft.Below l ⟨m, loose, risky⟩
        ⟨m.withBuilder c ({ · with placed := true }), loose, risky⟩ :=
      .withBuilder c fun d _ => ⟨rfl, rfl, prefix_refl _, fun _ => rfl, l.allows_refl _⟩
    exact h1.trans (.withBuilder b fun d _ => d.below_extend l _ _)
  | push op => exact .withBlock _ fun blk => blk.below_push op
  | @close m loose risky b d x op hb hx hop he =>
    have h1 : Draft.Below l ⟨m, loose, risky⟩ ⟨m.withBlock x (·.push op), loose, risky⟩ :=
      .withBlock x fun blk => blk.below_push op
    exact h1.trans (.withBuilder b fun d _ => d.below_tail l _)
  | handle x y => exact .withHandler x y
  | split => exact .withBuilder _ fun d _ => d.below_tail l _
  | forget => exact .withBuilder _ fun d _ => d.below_tail l _

theorem Builds.below (h : Builds l s t) : s.Below l t := by
  induction h with
  | refl => exact .refl l _
  | tail _ hst ih => exact ih.trans hst.below

end MethodGraph
