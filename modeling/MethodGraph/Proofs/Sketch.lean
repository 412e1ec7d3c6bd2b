import Mathlib.Logic.Function.Basic
import Mathlib.Tactic.Simps.Basic
import MethodGraph.Proofs.Layout
/-!
  What a builder has been given so far, read as one text.

  A method under construction is a set of texts, one for each builder: the operations in the order
  in which they were emitted, a label where a block begins, and the name of a builder where one was
  appended (`Method.stream`).  Every primitive of emitting adds to the end of one text and leaves
  all others alone, whatever it does to blocks and edges.

  A `Sketch` is the texts with the little else that emitting code depends on, and `Emit.Makes` says
  that a computation succeeds on every method that has a given sketch, and what the sketch is then.
  The crux is that only the last block of a sequence takes operations and belongs to no other
  sequence, so that pushing an operation into it is adding to the end of one text
  (`Method.stream_push`).
-/

namespace MethodGraph

open Method List Function Arena

variable {x : BlockId} {d : Builder} {opcode : Opcode}

variable {l : License} {m m' : Method} {loose risky : List BlockId} {b c : BuilderId}
  {f : Block → Block}

/-! ## Texts -/

/-- A piece of the text of a builder. -/
inductive Token where
  /-- A block begins. -/
  | label (x : BlockId)
  | op (op : Operation)
  /-- A builder was appended. -/
  | child (c : BuilderId)
  deriving DecidableEq

/-- The text of an operation, perhaps with the label of a block that was opened for it. -/
def Operation.Emits (op : Operation) (ts : List Token) : Prop :=
  ts = [.op op] ∨ ∃ x, ts = [.label x, .op op]

namespace Method

/-- The text of an entry of a sequence. -/
def tokens (m : Method) : Entry → List Token
  | .block x => .label x :: (m.ops x).map .op
  | .builder c => [.child c]

/-- The text of a builder. -/
def stream (m : Method) (b : BuilderId) : List Token :=
  ((m.builder? b).map fun d => d.sequence.flatMap m.tokens).getD []

theorem tokens_block (x : BlockId) : m.tokens (.block x) = .label x :: (m.ops x).map .op := rfl

theorem stream_of_builder? (h : m.builder? b = some d) :
    m.stream b = d.sequence.flatMap m.tokens := by
  unfold stream
  rw [h]
  rfl

theorem flatMap_tokens_congr {es : List Entry} (h : ∀ x, .block x ∈ es → m'.ops x = m.ops x) :
    es.flatMap m'.tokens = es.flatMap m.tokens := by
  induction es with
  | nil => rfl
  | cons e es ih =>
    have he : m'.tokens e = m.tokens e := by
      cases e with
      | block x =>
        rw [tokens_block, tokens_block, h x mem_cons_self]
      | builder c => rfl
    rw [flatMap_cons, flatMap_cons, he, ih fun x hx => h x (mem_cons_of_mem _ hx)]

/-- A text depends on the sequence of its builder and on the operations of the blocks in it. -/
theorem stream_congr
    (hseq : (m'.builder? b).map (·.sequence) = (m.builder? b).map (·.sequence))
    (hops : ∀ d x, m.builder? b = some d → .block x ∈ d.sequence → m'.ops x = m.ops x) :
    m'.stream b = m.stream b := by
  cases hd : m.builder? b with
  | none => grind [Option.map_eq_none_iff, stream]
  | some d => grind [Option.map_eq_some_iff, stream_of_builder?, flatMap_tokens_congr]

/-! ## What the primitives do to texts -/

theorem ops_withBlock (x y : BlockId) (hf : ∀ blk, (f blk).operations = blk.operations) :
    (m.withBlock x f).ops y = m.ops y := by
  unfold ops
  rw [block?_withBlock]
  split
  · cases m.block? y with
    | none => rfl
    | some blk => exact hf blk
  · rfl

theorem stream_withBlock (x : BlockId) (hf : ∀ blk, (f blk).operations = blk.operations) :
    (m.withBlock x f).stream b = m.stream b :=
  stream_congr rfl fun _ y _ _ => ops_withBlock x y hf

theorem ops_withEdge (x y z : BlockId) : (m.withEdge x y).ops z = m.ops z := by
  have hsucc : (m.withBlock x (·.addSucc y)).ops z = m.ops z := ops_withBlock x z fun _ => rfl
  have hpred : (m.withEdge x y).ops z = (m.withBlock x (·.addSucc y)).ops z :=
    ops_withBlock y z fun _ => rfl
  exact hpred.trans hsucc

theorem ops_withEdges (x : BlockId) (ts : List BlockId) (z : BlockId) :
    (m.withEdges x ts).ops z = m.ops z := by
  induction ts generalizing m with
  | nil => rfl
  | cons t ts ih => exact ih.trans (ops_withEdge x t z)

theorem ops_withHandler (x y z : BlockId) : (m.withHandler x y).ops z = m.ops z := by
  have hhandler : (m.withBlock x (·.addHandler y)).ops z = m.ops z :=
    ops_withBlock x z fun _ => rfl
  have hpred : (m.withHandler x y).ops z = (m.withBlock x (·.addHandler y)).ops z :=
    ops_withBlock y z fun _ => rfl
  exact hpred.trans hhandler

theorem ops_linkFrom (source : Option BlockId) (target x : BlockId) :
    (m.linkFrom source target).ops x = m.ops x := by
  cases source with
  | none => rfl
  | some y => exact ops_withEdge y target x

theorem stream_withEdge (x y : BlockId) : (m.withEdge x y).stream b = m.stream b :=
  stream_congr rfl fun _ z _ _ => ops_withEdge x y z

theorem ops_addBlock (x : BlockId) : m.addBlock.ops x = m.ops x := by
  unfold ops
  rw [block?_addBlock]
  split
  · next h =>
    have hnone : m.block? x = none := get?_eq_none.2 h.symm.le
    rw [hnone]
    rfl
  · rfl

/-- A block that is not there has no operations. -/
theorem ops_size (m : Method) : m.ops m.graph.blocks.size = [] := by
  unfold ops
  rw [show m.block? m.graph.blocks.size = none from get?_eq_none.2 le_rfl]
  rfl

theorem ops_addBuilder (r : Option BytecodeRecord) (x : BlockId) :
    (m.addBuilder r).ops x = m.ops x := by
  show m.addBlock.addBlock.ops x = m.ops x
  rw [ops_addBlock, ops_addBlock]

theorem stream_addBlock : m.addBlock.stream b = m.stream b :=
  stream_congr rfl fun _ x _ _ => ops_addBlock x

/-- A change that keeps the sequences keeps the texts. -/
theorem stream_withBuilder (c : BuilderId) {f : Builder → Builder}
    (hf : ∀ d, (f d).sequence = d.sequence) : (m.withBuilder c f).stream b = m.stream b := by
  refine stream_congr ?_ fun _ _ _ _ => rfl
  rw [builder?_withBuilder]
  split
  · cases m.builder? b with
    | none => rfl
    | some d => exact congrArg some (hf d)
  · rfl

/-- An entry at the end of a sequence is text at the end of its builder's text. -/
theorem stream_extend (hd : m.builder? b = some d) (e : Entry) (t : Tail)
    (c : BuilderId) : (m.withBuilder b (·.extend e t)).stream c =
      if c = b then m.stream b ++ m.tokens e else m.stream c := by
  split
  · next hcb =>
    subst hcb
    have hd' : (m.withBuilder c (·.extend e t)).builder? c = some (d.extend e t) := by
      rw [builder?_withBuilder, if_pos rfl, hd]
      rfl
    rw [stream_of_builder? hd', stream_of_builder? hd]
    show (d.sequence ++ [e]).flatMap _ = _
    rw [flatMap_append, flatMap_singleton]
    rfl
  · next hne =>
    refine stream_congr ?_ fun _ _ _ _ => rfl
    rw [builder?_withBuilder, if_neg (Ne.symm hne)]

theorem stream_addBuilder (r : Option BytecodeRecord) (c : BuilderId) :
    (m.addBuilder r).stream c =
      if c = m.builders.size then [.label m.graph.blocks.size] else m.stream c := by
  split
  · next hc =>
    have hnew := builder?_addBuilder (m := m) r c
    rw [if_pos hc] at hnew
    rw [stream_of_builder? hnew]
    show (m.addBuilder r).tokens (.block m.graph.blocks.size) ++ [] = _
    rw [tokens_block, ops_addBuilder, m.ops_size]
    rfl
  · next hc =>
    refine stream_congr ?_ fun _ x _ _ => ops_addBuilder r x
    rw [builder?_addBuilder, if_neg hc]

end Method

/-! ## The block that takes operations -/

variable (h : Draft.IsForest ⟨m, loose, risky⟩) (hd : m.builder? b = some d)
  (hx : d.sequence.getLast? = some (.block x))

include h hd hx in
/-- The last entry of a sequence is no other entry, if it is a block. -/
theorem Draft.IsForest.last :
    ∃ es, d.sequence = es ++ [.block x] ∧ .block x ∉ es ∧
      ∀ c e, m.builder? c = some e → .block x ∈ e.sequence → c = b := by
  obtain ⟨es, hes⟩ := getLast?_eq_some_iff.1 hx
  have hplan := plan?_of_builder? hd
  have howned : ∀ {c : BuilderId} {e : Builder}, m.builder? c = some e → .block x ∈ e.sequence →
      x ∈ e.plan.owned := fun _ hmem => mem_cons_of_mem _ (Builder.mem_blocksHere.2 hmem)
  have hmem : .block x ∈ d.sequence := hes ▸ mem_append_right _ mem_cons_self
  refine ⟨es, hes, fun hin => ?_, fun c e hc hxe => ?_⟩
  · have hnodup : d.blocksHere.Nodup := (nodup_cons.1 (h.nodup hplan)).2
    unfold Builder.blocksHere at hnodup
    rw [hes, filterMap_append] at hnodup
    have hapart := (nodup_append.1 hnodup).2.2
    exact hapart x (mem_filterMap.2 ⟨_, hin, rfl⟩) x mem_cons_self rfl
  · exact h.owner (plan?_of_builder? hc) hplan (howned hc hxe) (howned hd hmem)

/-! ## Longer texts -/

/-- Text was added to the text of one builder, and to no other. -/
def Method.Gains (m : Method) (b : BuilderId) (ts : List Token) (m' : Method) : Prop :=
  ∀ c, m'.stream c = if c = b then m.stream b ++ ts else m.stream c

namespace Method

variable {n : Method} {op : Operation} {ts us : List Token}

theorem Gains.refl (m : Method) (b : BuilderId) : m.Gains b [] m := by grind [Gains]

theorem Gains.trans (h : m.Gains b ts m') (h' : m'.Gains b us n) : m.Gains b (ts ++ us) n := by
  grind [Gains]

/-- An entry at the end of a sequence, with an edge to it. -/
theorem gains_linked (hd : m.builder? b = some d) (e : Entry) (t : Tail)
    (source : Option BlockId) (target : BlockId) : m.Gains b (m.tokens e)
      ((m.linkFrom source target).withBuilder b (·.extend e t)) := by
  intro c
  have hops : ∀ z, (m.linkFrom source target).ops z = m.ops z := ops_linkFrom source target
  have hkeep : ∀ c, (m.linkFrom source target).stream c = m.stream c := fun c =>
    stream_congr (by rw [builder?_linkFrom]) fun _ z _ _ => hops z
  have htokens : (m.linkFrom source target).tokens e = m.tokens e := by
    cases e with
    | block x => rw [tokens_block, tokens_block, hops]
    | builder c => rfl
  rw [stream_extend ((builder?_linkFrom ..).trans hd), hkeep, hkeep, htokens]

/-- A new block at the end of a sequence. -/
theorem gains_opened (hd : m.builder? b = some d) :
    m.Gains b [.label m.graph.blocks.size] (m.opened b d) := by
  intro c
  have hempty : m.addBlock.tokens (.block m.graph.blocks.size) = [.label m.graph.blocks.size] := by
    rw [tokens_block, ops_addBlock, m.ops_size]
    rfl
  have hgains := gains_linked (m := m.addBlock) hd (.block m.graph.blocks.size)
    (.current m.graph.blocks.size) d.tail.block? m.graph.blocks.size c
  rwa [hempty, stream_addBlock, stream_addBlock] at hgains

/-- A builder at the end of a sequence. -/
theorem gains_holding {e : Builder} (hd : m.builder? b = some d) (hne : c ≠ b) :
    m.Gains b [.child c] (m.holding b c d e) := by
  intro k
  have hkeep : ∀ k, (m.withBuilder c ({ · with placed := true })).stream k = m.stream k := fun k =>
    stream_withBuilder c (f := ({ · with placed := true })) fun _ => rfl
  have hd' : (m.withBuilder c ({ · with placed := true })).builder? b = some d := by
    rw [builder?_withBuilder, if_neg hne, hd]
  have hgains := gains_linked hd' (.builder c) (.owed e.exit) d.tail.block? e.entry k
  rwa [hkeep, hkeep] at hgains

include h hd hx in
/-- An operation in the last block of a sequence. -/
theorem gains_push (op : Operation) : m.Gains b [.op op] (m.withBlock x (·.push op)) := by
  obtain ⟨es, hes, hlast, honly⟩ := h.last hd hx
  have hmem : .block x ∈ d.sequence := mem_of_getLast? hx
  obtain ⟨blk, hblk⟩ := exists_block? (h.bound (plan?_of_builder? hd)
    (mem_cons_of_mem _ (Builder.mem_blocksHere.2 hmem)))
  have hother : ∀ y, y ≠ x → (m.withBlock x (·.push op)).ops y = m.ops y := by
    intro y hy
    unfold ops
    rw [block?_withBlock, if_neg (Ne.symm hy)]
  have hthis : (m.withBlock x (·.push op)).ops x = m.ops x ++ [op] := by
    grind [block?_withBlock, Method.ops, Block.push]
  intro c
  split
  · next hcb =>
    subst hcb
    rw [stream_of_builder? (m := m.withBlock x (·.push op)) hd, stream_of_builder? hd, hes,
      flatMap_append, flatMap_append, flatMap_singleton, flatMap_singleton]
    rw [flatMap_tokens_congr (m := m) fun y hy => hother y ?_]
    · rw [tokens_block, tokens_block, hthis, map_append, append_assoc]
      rfl
    · rintro rfl
      exact hlast hy
  · grind [stream_congr, Method.withBlock, Method.builder?]

include h hd hx in
/-- An operation that ends the last block of a sequence. -/
theorem gains_closed (op : Operation) (targets : List BlockId) (falls : Bool)
    : m.Gains b [.op op] (((m.withBlock x (·.push op)).withEdges x
      targets).withBuilder b fun d => { d with tail := d.tail.close falls }) := by
  intro c
  rw [stream_withBuilder b (f := fun d => { d with tail := d.tail.close falls }) fun _ => rfl,
    ← gains_push h hd hx op c]
  exact stream_congr (by rw [builder?_withEdges]) fun _ z _ _ => ops_withEdges ..

end Method

/-- The label that stands in front of an operation, if no block is open for it. -/
def Builder.Opens (d : Builder) (x : BlockId) (label : List Token) : Prop :=
  d.tail = .current x ∧ label = [] ∨ (∀ y, d.tail ≠ .current y) ∧ label = [.label x]

theorem Builder.Opens.emits {label : List Token} (h : d.Opens x label) (op : Operation) :
    op.Emits (label ++ [.op op]) := by
  obtain ⟨-, rfl⟩ | ⟨-, rfl⟩ := h
  · exact .inl rfl
  · exact .inr ⟨x, rfl⟩

namespace Emit

variable {operands : List ValueId} {targets : List BlockId} {u : Unit}

end Emit

/-! ## Methods that are ready for more -/

/-- What a method is before it is connected, with its blocks wired up. -/
structure Draft.Ready (s : Draft) : Prop where
  sound : s.Sound
  wired : s.Wired

theorem Builds.ready {s t : Draft} (hl : l.forgets = false) (h : Builds l s t) (hs : s.Ready) :
    t.Ready := ⟨h.sound hs.sound, h.wired hl hs.sound.forest hs.sound.bare hs.wired⟩

/-! ## Sketches -/

/-- What emitting code depends on. -/
@[ext]
structure Sketch where
  /-- The number of builders. -/
  count : Nat
  stream : BuilderId → List Token
  entry : BuilderId → BlockId
  exit : BuilderId → BlockId
  /-- The builder is part of a sequence. -/
  placed : BuilderId → Bool
  /-- Blocks that are part of no sequence yet. -/
  loose : List BlockId
  values : Arena Ty
  symbols : Arena Symbol
  returnType : Ty

namespace Sketch

/-- Add to the end of a text. -/
@[simps]
def put (sk : Sketch) (b : BuilderId) (ts : List Token) : Sketch :=
  { sk with stream := Function.update sk.stream b (sk.stream b ++ ts) }

/-- Make a builder part of a sequence. -/
@[simps]
def nest (sk : Sketch) (b c : BuilderId) : Sketch :=
  { sk with
    stream := Function.update sk.stream b (sk.stream b ++ [.child c])
    placed := Function.update sk.placed c true }

/-- Add a builder. -/
@[simps]
def grow (sk : Sketch) (x y : BlockId) : Sketch :=
  { sk with
    count := sk.count + 1
    stream := Function.update sk.stream sk.count [.label x]
    entry := Function.update sk.entry sk.count x
    exit := Function.update sk.exit sk.count y
    placed := Function.update sk.placed sk.count false }

/-- Add a value. -/
@[simps]
def value (sk : Sketch) (ty : Ty) : Sketch := { sk with values := (sk.values.alloc ty).2 }

/-- Set the blocks that are part of no sequence. -/
@[simps]
def withLoose (sk : Sketch) (xs : List BlockId) : Sketch := { sk with loose := xs }

theorem put_put (sk : Sketch) (b : BuilderId) (ts us : List Token) :
    (sk.put b ts).put b us = sk.put b (ts ++ us) := by
  unfold put
  simp only [update_self, update_idem, append_assoc]

theorem get?_value_self (sk : Sketch) (ty : Ty) :
    (sk.value ty).values.get? sk.values.size = some ty :=
  (get?_alloc ..).trans (if_pos rfl)

/-- Control may be sent here. -/
def IsTarget (sk : Sketch) (x : BlockId) : Prop :=
  x ∈ sk.loose ∨ ∃ c < sk.count, sk.entry c = x

/-- The text of an operation was added to that of a builder. -/
def Writes (sk : Sketch) (b : BuilderId) (op : Operation) (sk' : Sketch) : Prop :=
  ∃ ts, op.Emits ts ∧ sk' = sk.put b ts

/-- A new value was made, and the text of the operation that computes it was added to that of a
    builder. -/
def Computes (sk : Sketch) (b : BuilderId) (ty : Ty) (opcode : Opcode) (operands : List ValueId)
    (v : ValueId) (sk' : Sketch) : Prop :=
  v = sk.values.size ∧ (sk.value ty).Writes b ⟨opcode, operands, some v, []⟩ sk'

/-- The builder is part of no sequence and may become a part of the other's. -/
structure Free (sk : Sketch) (b c : BuilderId) : Prop where
  lt : b < sk.count
  lt' : c < sk.count
  ne : c ≠ b
  root : c ≠ Method.root
  placed : sk.placed c = false

namespace Free

variable {sk sk' : Sketch}

theorem congr (h : sk.Free b c) (hcount : sk.count ≤ sk'.count)
    (hplaced : sk'.placed c = sk.placed c) : sk'.Free b c :=
  { h with
    lt := h.lt.trans_le hcount
    lt' := h.lt'.trans_le hcount
    placed := hplaced.trans h.placed }

/-- A new builder is free. -/
theorem made (sk : Sketch) (hb : b < sk.count) (x y : BlockId) : (sk.grow x y).Free b sk.count where
  lt := Nat.lt_succ_of_lt hb
  lt' := Nat.lt_succ_self _
  ne := hb.ne'
  root := (Nat.zero_lt_of_lt hb).ne'
  placed := update_self ..

theorem grow (h : sk.Free b c) (x y : BlockId) : (sk.grow x y).Free b c :=
  h.congr (Nat.le_succ _) (update_of_ne h.lt'.ne ..)

end Free

end Sketch

/-- The method has the sketch. -/
structure Method.Views (m : Method) (sk : Sketch) : Prop where
  count : m.builders.size = sk.count
  stream : ∀ b, m.stream b = sk.stream b
  builders : ∀ b d, m.builder? b = some d →
    d.entry = sk.entry b ∧ d.exit = sk.exit b ∧ d.placed = sk.placed b
  values : m.graph.values = sk.values
  symbols : m.graph.symbols = sk.symbols
  returnType : m.graph.returnType = sk.returnType

/-- The method has the sketch, and is ready for more. -/
structure Method.Shows (m : Method) (sk : Sketch) : Prop extends m.Views sk where
  ready : Draft.Ready ⟨m, sk.loose, []⟩

namespace Method.Views

variable {sk : Sketch} {d : Builder}

theorem withLoose (h : m.Views sk) (xs : List BlockId) : m.Views (sk.withLoose xs) :=
  ⟨h.count, h.stream, h.builders, h.values, h.symbols, h.returnType⟩

theorem addBlock (h : m.Views sk) : m.addBlock.Views sk :=
  ⟨h.count, fun b => stream_addBlock.trans (h.stream b), h.builders, h.values, h.symbols,
    h.returnType⟩

theorem withBlock (h : m.Views sk) (x : BlockId) (hf : ∀ blk, (f blk).operations = blk.operations) :
    (m.withBlock x f).Views sk :=
  ⟨h.count, fun b => (stream_withBlock x hf).trans (h.stream b), h.builders, h.values, h.symbols,
    h.returnType⟩

theorem withEdge (h : m.Views sk) (x y : BlockId) : (m.withEdge x y).Views sk :=
  ⟨h.count, fun b => (stream_withEdge x y).trans (h.stream b), h.builders, h.values, h.symbols,
    h.returnType⟩

theorem withEdges (h : m.Views sk) (x : BlockId) (ts : List BlockId) :
    (m.withEdges x ts).Views sk := by
  induction ts generalizing m with
  | nil => exact h
  | cons t ts ih => exact ih (h.withEdge x t)

theorem linkFrom (h : m.Views sk) (source : Option BlockId) (target : BlockId) :
    (m.linkFrom source target).Views sk := by
  cases source with
  | none => exact h
  | some x => exact h.withEdge x target

/-- A builder's tail is changed. -/
theorem withTail (h : m.Views sk) (b : BuilderId) (t : Builder → Tail) :
    (m.withBuilder b fun d => { d with tail := t d }).Views sk := by
  refine ⟨(size_withBuilder ..).trans h.count,
    fun c => ?_, fun c e he => ?_, h.values, h.symbols, h.returnType⟩
  · grind [stream_withBuilder, h.stream]
  rcases of_builder?_withBuilder he with ⟨rfl, d, hd, rfl⟩ | ⟨-, he⟩
  · exact h.builders b d hd
  · exact h.builders c e he

/-- A builder is marked as part of a sequence. -/
theorem place (h : m.Views sk) (c : BuilderId) :
    (m.withBuilder c ({ · with placed := true })).Views
      { sk with placed := update sk.placed c true } := by
  refine ⟨(size_withBuilder ..).trans h.count,
    fun b => ?_, fun b e he => ?_, h.values, h.symbols, h.returnType⟩
  · grind [stream_withBuilder, h.stream]
  show e.entry = sk.entry b ∧ e.exit = sk.exit b ∧ e.placed = update sk.placed c true b
  rw [update_apply]
  rcases of_builder?_withBuilder he with ⟨rfl, d, hd, rfl⟩ | ⟨hne, he⟩
  · grind [h.builders]
  · rw [if_neg (Ne.symm hne)]
    exact h.builders b e he

theorem extend (h : m.Views sk) (hd : m.builder? b = some d) (e : Entry) (t : Tail) :
    (m.withBuilder b (·.extend e t)).Views (sk.put b (m.tokens e)) := by
  refine ⟨(size_withBuilder ..).trans h.count, fun c => ?_, fun c f hf => ?_, h.values,
    h.symbols, h.returnType⟩
  · rw [stream_extend hd, Sketch.put_stream, update_apply, h.stream, h.stream]
  · rcases of_builder?_withBuilder hf with ⟨rfl, d, hd, rfl⟩ | ⟨-, hf⟩
    · exact h.builders b d hd
    · exact h.builders c f hf

theorem push (h : m.Views sk) (hr : Draft.Ready ⟨m, loose, risky⟩)
    (hd : m.builder? b = some d) (hx : d.tail = .current x) (op : Operation) :
    (m.withBlock x (·.push op)).Views (sk.put b [.op op]) := by
  refine ⟨h.count, fun c => ?_, h.builders, h.values, h.symbols, h.returnType⟩
  rw [gains_push hr.sound.forest hd (hr.sound.bare.fronted hd hx) op c, Sketch.put_stream, update_apply,
    h.stream, h.stream]

end Method.Views

namespace Method.Shows

variable {sk : Sketch} {d : Builder}

theorem exists_builder (h : m.Shows sk) (hb : b < sk.count) : ∃ d, m.builder? b = some d :=
  exists_builder? (h.count ▸ hb)

/-- Targets of the sketch are targets of the method, and there are such blocks. -/
theorem isTarget (h : m.Shows sk) (hx : sk.IsTarget x) :
    Draft.IsTarget ⟨m, sk.loose, []⟩ x ∧ x < m.graph.blocks.size := by
  rcases hx with hx | ⟨c, hc, rfl⟩
  · exact ⟨.inl hx, h.ready.sound.forest.looseBound x hx⟩
  · obtain ⟨e, he⟩ := h.exists_builder hc
    obtain ⟨hentry, -, -⟩ := h.builders c e he
    rw [← hentry]
    have hplan := plan?_of_builder? he
    obtain ⟨rest, hseq⟩ := h.ready.sound.forest.opens hplan
    have hmem : Entry.block e.entry ∈ e.plan.sequence := by
      rw [hseq]
      exact mem_cons_self
    exact ⟨.inr (.inl ⟨c, e, he, rfl⟩), h.ready.sound.forest.bound hplan
      (mem_cons_of_mem _ (Builder.mem_blocksHere.2 hmem))⟩

end Method.Shows

namespace Emit

variable {α β : Type} {sk sk' : Sketch} {x : Emit α} {Q : α → Sketch → Prop}

/-- On every method with the sketch the computation succeeds, and what it gives and the sketch of
    the method then satisfy `Q`. -/
def Makes (x : Emit α) (sk : Sketch) (Q : α → Sketch → Prop) : Prop :=
  ∀ m, m.Shows sk → ∃ a m' sk', x.run m = .ok (a, m') ∧ m'.Shows sk' ∧ Q a sk'

/-- On every method with the sketch the computation gives `a` and leaves the method as it is. -/
def Reads (x : Emit α) (sk : Sketch) (a : α) : Prop := ∀ m, m.Shows sk → x.run m = .ok (a, m)

namespace Makes

theorem pure {a : α} (h : Q a sk) : Makes (Pure.pure a) sk Q :=
  fun m hm => ⟨a, m, sk, rfl, hm, h⟩

variable {R : β → Sketch → Prop}

theorem bind {f : α → Emit β} (hx : Makes x sk Q) (hf : ∀ a sk', Q a sk' → Makes (f a) sk' R)
    : Makes (x >>= f) sk R := by
  grind [bind_eq_ok, Makes]

theorem imp {R : α → Sketch → Prop} (hx : Makes x sk Q) (h : ∀ a sk', Q a sk' → R a sk') :
    Makes x sk R := by grind [Makes]

/-- A step that only reads. -/
theorem read {a : α} {f : α → Emit β} (hx : Reads x sk a) (hf : Makes (f a) sk R)
    : Makes (x >>= f) sk R := by grind [bind_eq_ok, Makes, Reads]

end Makes

/-! ## Reading -/

theorem typeOf_reads {v : ValueId} {ty : Ty} (h : sk.values.get? v = some ty) :
    Reads (typeOf v) sk ty := fun _ hm => typeOf_eq_ok.2 ⟨hm.values ▸ h, rfl⟩

theorem entryOf_reads (hb : b < sk.count) : Reads (entryOf b) sk (sk.entry b) := by
  intro m hm
  obtain ⟨d, hd⟩ := hm.exists_builder hb
  exact entryOf_eq_ok.2 ⟨⟨d, hd, (hm.builders b d hd).1⟩, rfl⟩

theorem isPlaced_reads (hb : b < sk.count) {p : Bool} (hp : sk.placed b = p) :
    Reads (isPlaced b) sk p := by
  intro m hm
  obtain ⟨d, hd⟩ := hm.exists_builder hb
  exact isPlaced_eq_ok.2 ⟨⟨d, hd, (hm.builders b d hd).2.2.trans hp⟩, rfl⟩

theorem symbol_reads {s : SymbolId} {y : Symbol} (h : sk.symbols.get? s = some y) :
    Reads (symbol s) sk y := by
  intro m hm
  refine bind_eq_ok.2 ⟨m, m, get_eq_ok.2 ⟨rfl, rfl⟩, lift_eq_ok.2 ⟨?_, rfl⟩⟩
  rw [hm.symbols]
  exact fetch_eq_ok.2 h

/-! ## New values, blocks and builders -/

theorem newValue_makes (ty : Ty) :
    Makes (newValue ty) sk fun v sk' => v = sk.values.size ∧ sk' = sk.value ty := by
  intro m hm
  have hrun : (newValue ty).run m = .ok (m.graph.values.size,
      { m with graph := (m.graph.newValue ty).2 }) := rfl
  have hbuilds := lawful_newValue (l := .plain) ty _ _ _ sk.loose [] hrun
  refine ⟨_, _, sk.value ty, hrun, ⟨⟨hm.count, fun b => ?_, hm.builders, ?_, hm.symbols,
    hm.returnType⟩, hbuilds.ready rfl hm.ready⟩, by rw [hm.values], rfl⟩
  · exact (stream_congr rfl fun _ _ _ _ => rfl).trans (hm.stream b)
  · show (m.graph.values.alloc ty).2 = _
    rw [hm.values]
    rfl

theorem newBlock_makes :
    Makes newBlock sk fun x sk' => sk' = sk.withLoose (x :: sk.loose) := by
  intro m hm
  have hrun : newBlock.run m = .ok (m.graph.blocks.size, m.addBlock) :=
    newBlock_eq_ok.2 ⟨rfl, rfl⟩
  have hbuilds : Builds .plain ⟨m, sk.loose, []⟩
      ⟨m.addBlock, m.graph.blocks.size :: sk.loose, []⟩ := Step.newBlock.builds
  exact ⟨_, _, sk.withLoose (m.graph.blocks.size :: sk.loose), hrun,
    ⟨hm.toViews.addBlock.withLoose _, hbuilds.ready rfl hm.ready⟩, rfl⟩

theorem orphan_makes :
    Makes orphan sk fun b sk' => b = sk.count ∧ ∃ x y, sk' = sk.grow x y := by
  intro m hm
  have hrun : orphan.run m = .ok (m.builders.size, m.addBuilder none) :=
    newBuilder_eq_ok.2 ⟨rfl, rfl⟩
  have hbuilds := lawful_orphan (l := .plain) _ _ _ sk.loose [] hrun
  refine ⟨_, _, sk.grow m.graph.blocks.size (m.graph.blocks.size + 1), hrun,
    ⟨⟨?_, fun b => ?_, fun b d hd => ?_, hm.values, hm.symbols, hm.returnType⟩,
      hbuilds.ready rfl hm.ready⟩, hm.count, _, _, rfl⟩
  · show (m.builders.alloc _).2.size = _
    rw [size_alloc, hm.count]
    rfl
  · rw [stream_addBuilder, Sketch.grow_stream, update_apply, hm.count, hm.stream]
  · rw [builder?_addBuilder, hm.count] at hd
    simp only [Sketch.grow_entry, Sketch.grow_exit, Sketch.grow_placed, update_apply]
    split at hd
    · next hb =>
      cases hd
      simp only [hb, if_true]
      exact ⟨rfl, rfl, rfl⟩
    · next hb =>
      simp only [hb, if_false]
      exact hm.builders b d hd

/-! ## Sequences -/

theorem appendBlock_makes {x : BlockId} (hb : b < sk.count) (hx : x ∈ sk.loose) :
    Makes (appendBlock b x) sk fun _ sk' =>
      sk' = (sk.put b [.label x]).withLoose (sk.loose.erase x) := by
  intro m hm
  have hlt := hm.ready.sound.forest.looseBound x hx
  obtain ⟨d, hd⟩ := hm.exists_builder hb
  obtain ⟨hc, -⟩ := hm.ready.sound.idle.builders b d hd
  have hrun : (appendBlock b x).run m = .ok ((), _) :=
    extend_run (.block x) (.current x) hd hc (fun y hy => hm.ready.sound.idle.tails b d y hd hy) hlt
  have hbuilds : Builds .plain ⟨m, sk.loose, []⟩ ⟨_, sk.loose.erase x, []⟩ :=
    appendBlock_builds hx hrun
  have hempty : m.ops x = [] := hm.ready.sound.bare.fresh hx
  have hlink := hm.toViews.linkFrom d.tail.block? x
  have hd' : (m.linkFrom d.tail.block? x).builder? b = some d := by
    cases d.tail.block? <;> exact hd
  have hviews := hlink.extend hd' (.block x) (.current x)
  rw [tokens_block, ops_linkFrom, hempty] at hviews
  exact ⟨(), _, _, hrun, ⟨hviews.withLoose (sk.loose.erase x), hbuilds.ready rfl hm.ready⟩, rfl⟩

theorem append_makes (h : sk.Free b c) :
    Makes (append b c) sk fun _ sk' => sk' = sk.nest b c := by
  intro m hm
  obtain ⟨d, hd⟩ := hm.exists_builder h.lt
  obtain ⟨e, he⟩ := hm.exists_builder h.lt'
  obtain ⟨hentry, hexit, hplaced⟩ := hm.builders c e he
  have htarget : e.entry < m.graph.blocks.size :=
    hentry ▸ (hm.isTarget (.inr ⟨c, h.lt', rfl⟩)).2
  let m1 := m.withBuilder c ({ · with placed := true })
  have hd1 : m1.builder? b = some d := by
    rw [builder?_withBuilder, if_neg h.ne]
    exact hd
  have hext : (extend b (.builder c) (.owed e.exit) e.entry).run m1 = .ok ((), _) :=
    extend_run (m := m1) _ _ hd1 (hm.ready.sound.idle.builders b d hd).1
      (fun x hx => hm.ready.sound.idle.tails b d x hd hx) htarget
  let m2 := (m1.linkFrom d.tail.block? e.entry).withBuilder b
    (·.extend (.builder c) (.owed e.exit))
  have hd2 : (m1.linkFrom d.tail.block? e.entry).builder? b = some d := by
    cases d.tail.block? <;> exact hd1
  have hviews : m2.Views (sk.nest b c) :=
    ((hm.toViews.place c).linkFrom d.tail.block? e.entry).extend hd2 (.builder c) (.owed e.exit)
  obtain ⟨m', hrun, hviews'⟩ : ∃ m', (append b c).run m = .ok ((), m') ∧
      m'.Views (sk.nest b c) := by
    have hstart : ∀ m', (if e.isHandler then
        onGraph (·.updateBlock e.entry fun blk => { blk with isHandler := true })
        else pure () : Emit Unit).run m2 = .ok ((), m') → (append b c).run m = .ok ((), m') := by
      intro m' hlast
      unfold append
      refine guard_eq_ok.2 ⟨h.ne, ?_⟩
      refine guard_eq_ok.2 ⟨h.root, ?_⟩
      refine bind_eq_ok.2 ⟨e, m, builder_eq_ok.2 ⟨he, rfl⟩, guard_eq_ok.2 ⟨?_, ?_⟩⟩
      · rw [hplaced, h.placed]
        exact Bool.false_ne_true
      · grind [bind_eq_ok, lt_of_builder?, updateBuilder, Method.withBuilder]
    by_cases hh : e.isHandler = true
    · refine ⟨m2.withBlock e.entry fun blk => { blk with isHandler := true }, hstart _ ?_,
        hviews.withBlock e.entry fun _ => rfl⟩
      rw [if_pos hh]
      refine onBlock_eq_ok.2 ⟨?_, rfl⟩
      show e.entry < (m1.linkFrom d.tail.block? e.entry).graph.blocks.size
      cases d.tail.block? with
      | none => exact htarget
      | some x => exact (size_withEdge (m := m1) x e.entry).symm ▸ htarget
    · refine ⟨m2, hstart m2 ?_, hviews⟩
      rw [if_neg hh]
      rfl
  have hbuilds : Builds .plain ⟨m, sk.loose, []⟩ ⟨m', sk.loose, []⟩ := append_builds hrun
  exact ⟨(), m', _, hrun, ⟨hviews', hbuilds.ready rfl hm.ready⟩, rfl⟩

/-- Opening a block adds a label at most. -/
theorem openBlock_shows (hm : m.Shows sk) (hb : b < sk.count) :
    ∃ x m' ts, (openBlock b).run m = .ok (x, m') ∧ m'.Shows (sk.put b ts) ∧
      (ts = [] ∨ ts = [.label x]) ∧ ∃ d, m'.builder? b = some d ∧ d.tail = .current x := by
  obtain ⟨d, hd⟩ := hm.exists_builder hb
  by_cases hcur : ∃ x, d.tail = .current x
  · obtain ⟨x, hx⟩ := hcur
    have hsame : sk.put b [] = sk := by
      unfold Sketch.put
      rw [append_nil, update_eq_self]
    exact ⟨x, m, [], openBlock_run_current hd hx, hsame.symm ▸ hm, .inl rfl, d, hd, hx⟩
  · let x := m.graph.blocks.size
    have hrun : (openBlock b).run m = .ok (x, m.opened b d) :=
      openBlock_opened hd (hm.ready.sound.idle.builders b d hd).1
        (fun x hx => hm.ready.sound.idle.tails b d x hd hx) fun x hx => hcur ⟨x, hx⟩
    obtain ⟨hbuilds, htail⟩ := openBlock_builds .plain sk.loose [] hrun
    have hd' : (m.addBlock.linkFrom d.tail.block? x).builder? b = some d := by
      cases d.tail.block? <;> exact hd
    have hviews : (m.opened b d).Views (sk.put b [.label x]) := by
      have h := (hm.toViews.addBlock.linkFrom d.tail.block? x).extend hd' (.block x) (.current x)
      rw [tokens_block, ops_linkFrom, ops_addBlock, m.ops_size] at h
      exact h
    exact ⟨x, _, _, hrun, ⟨hviews, hbuilds.ready rfl hm.ready⟩, .inr rfl, htail⟩

/-! ## Operations -/

theorem emit_makes (hb : b < sk.count) {op : Operation} (hop : op.isTerminator = false)
    (hthrow : op.opcode.canThrow = false) (ht : op.targets = []) :
    Makes (emit b op) sk fun _ => sk.Writes b op := by
  intro m hm
  obtain ⟨x, m1, ts, hopen, hm1, hts, d, hd, hx⟩ := openBlock_shows hm hb
  have hlt := hm1.ready.sound.idle.tails b d x hd (by rw [hx]; rfl)
  have hrun : (emit b op).run m = .ok ((), m1.withBlock x (·.push op)) :=
    bind_eq_ok.2 ⟨x, m1, hopen, push_eq_ok.2 ⟨hlt, rfl⟩⟩
  have hbuilds : Builds .plain ⟨m, sk.loose, []⟩ ⟨m1.withBlock x (·.push op), sk.loose, []⟩ :=
    emit_builds ⟨hop, hthrow, ht⟩ (.inl rfl) hrun
  have hviews := hm1.toViews.push hm1.ready hd hx op
  rw [Sketch.put_put] at hviews
  refine ⟨(), _, _, hrun, ⟨hviews, hbuilds.ready rfl hm.ready⟩, _, ?_, rfl⟩
  rcases hts with rfl | rfl
  · exact .inl rfl
  · exact .inr ⟨x, rfl⟩

theorem emitValue_makes (hb : b < sk.count) (operands : List ValueId) (ty : Ty)
    (hop : opcode.isTerminator = false) (hthrow : opcode.canThrow = false) :
    Makes (emitValue b opcode operands ty) sk (sk.Computes b ty opcode operands) := by
  refine (newValue_makes ty).bind ?_
  rintro v _ ⟨hv, rfl⟩
  let op : Operation := { opcode, operands, result := some v }
  have hop' : op.isTerminator = false := hop
  have hb' : b < (sk.value ty).count := hb
  exact (emit_makes hb' hop' hthrow rfl).bind fun _ _ h => .pure ⟨hv, h⟩

theorem addEdges_run {x : BlockId} {ts : List BlockId} (hx : x < m.graph.blocks.size)
    (hts : ∀ t ∈ ts, t < m.graph.blocks.size) :
    (ts.forM (addEdge x)).run m = .ok ((), m.withEdges x ts) := by
  induction ts generalizing m with
  | nil => rfl
  | cons t ts ih =>
    refine bind_eq_ok.2 ⟨(), _, addEdge_eq_ok.2 ⟨hx, hts t mem_cons_self, rfl⟩, ih ?_ ?_⟩
    · rw [size_withEdge]
      exact hx
    · intro s hs
      rw [size_withEdge]
      exact hts s (mem_cons_of_mem _ hs)

theorem transfer_makes (hb : b < sk.count) {opcode : Opcode} (operands : List ValueId)
    {targets : List BlockId} (hop : opcode.isTerminator = true)
    (ht : ∀ t ∈ targets, sk.IsTarget t) :
    Makes (transfer b opcode operands targets) sk fun _ =>
      sk.Writes b ⟨opcode, operands, none, targets⟩ := by
  intro m hm
  obtain ⟨x, m1, ts, hopen, hm1, hts, d, hd, hx⟩ := openBlock_shows hm hb
  have hlt := hm1.ready.sound.idle.tails b d x hd (by rw [hx]; rfl)
  let op : Operation := { opcode, operands, targets }
  let m2 := m1.withBlock x (·.push op)
  have hlt2 : x < m2.graph.blocks.size := by
    rw [size_withBlock]
    exact hlt
  have htargets : ∀ t ∈ targets, t < m2.graph.blocks.size := by
    intro t h
    rw [size_withBlock]
    exact (hm1.isTarget (ht t h)).2
  have hrun : (transfer b opcode operands targets).run m = .ok ((), (m2.withEdges x targets
      ).withBuilder b fun d => { d with tail := d.tail.close (!opcode.isUnconditional) }) := by
    refine bind_eq_ok.2 ⟨x, m1, hopen, bind_eq_ok.2 ⟨(), m2, push_eq_ok.2 ⟨hlt, rfl⟩, ?_⟩⟩
    refine bind_eq_ok.2 ⟨(), _, addEdges_run hlt2 htargets, ?_⟩
    refine updateBuilder_eq_ok.2 ⟨?_, rfl⟩
    have hd2 : (m2.withEdges x targets).builder? b = some d := by
      rw [builder?_withEdges]
      exact hd
    exact lt_of_builder? hd2
  have hbuilds : Builds .plain ⟨m, sk.loose, []⟩ ⟨_, sk.loose, []⟩ :=
    transfer_builds hop (fun t h => (hm.isTarget (ht t h)).1) hrun
  have hviews := ((hm1.toViews.push hm1.ready hd hx op).withEdges x targets).withTail b
    fun d => d.tail.close (!opcode.isUnconditional)
  rw [Sketch.put_put] at hviews
  refine ⟨(), _, _, hrun, ⟨hviews, hbuilds.ready rfl hm.ready⟩, _, ?_, rfl⟩
  rcases hts with rfl | rfl
  · exact .inl rfl
  · exact .inr ⟨x, rfl⟩

end Emit
end MethodGraph
