import MethodGraph.Proofs.Sketch
/-!
  Texts say everything.

  As long as only operations are emitted and builders appended, the text of a builder
  (`Method.stream`) can be read for where its end is and which edges lead along it and out of it
  (`Reading`).  In a method that is `Plain` the tails of all builders and all edges are what the
  texts say, and nothing else is there.

  Every construct of this kind adds one token to a text at a time, and what it does to tails and
  edges is what reading that token does: main statement `Method.Plain.extend`, and from it
  `Emit.emit_adds`, `Emit.transfer_adds` and `Emit.append_adds`.
-/

namespace MethodGraph

open Method List

variable {m m' n : Method} {b c : BuilderId} {y : BlockId} {source : Option BlockId} {u : Unit}

/-! ## Reading a text -/

/-- The entry and the exit of each builder. -/
abbrev Doors := BuilderId → BlockId × BlockId

/-- What a text says of control: where it goes on, and along which edges it can have come. -/
structure Reading where
  tail : Tail := .closed
  edges : List (BlockId × BlockId) := []

namespace Reading

/-- The end of a text after one more token. -/
def after (doors : Doors) (r : Reading) : Token → Tail
  | .label x => .current x
  | .op op => if op.isTerminator then r.tail.close (!op.isUnconditional) else r.tail
  | .child c => .owed (doors c).2

/-- The edges that come with one more token. -/
def added (doors : Doors) (r : Reading) : Token → List (BlockId × BlockId)
  | .label x => r.tail.block?.toList.map (·, x)
  | .op op => r.tail.block?.toList.flatMap fun x => op.targets.map (x, ·)
  | .child c => r.tail.block?.toList.map (·, (doors c).1)

theorem added_op (doors : Doors) (r : Reading) (op : Operation) : r.added doors (.op op) =
    r.tail.block?.toList.flatMap fun x => op.targets.map (x, ·) := rfl

/-- Read one more token. -/
def read (doors : Doors) (r : Reading) (t : Token) : Reading :=
  ⟨r.after doors t, r.edges ++ r.added doors t⟩

end Reading

namespace Method

/-- The entry and the exit of a builder. -/
def doors (m : Method) : Doors := fun b =>
  ((m.builder? b).map fun d => (d.entry, d.exit)).getD (0, 0)

theorem doors_of_builder? {d : Builder} (h : m.builder? b = some d) :
    m.doors b = (d.entry, d.exit) := by
  unfold doors
  rw [h]
  rfl

/-- What the text of a builder says. -/
def reading (m : Method) (b : BuilderId) : Reading := (m.stream b).foldl (Reading.read m.doors) {}

/-- The methods differ in blocks, values and builders only. -/
def Grows (m m' : Method) : Prop :=
  m' = { m with
    graph := { m.graph with blocks := m'.graph.blocks, values := m'.graph.values }
    builders := m'.builders }

theorem Grows.refl (m : Method) : m.Grows m := rfl

theorem Grows.trans (h : m.Grows m') (h' : m'.Grows n) : m.Grows n := by
  unfold Grows at h h' ⊢
  rw [h', h]

/-- Edges are normal ones and recorded at both ends, and no block falls into another yet. -/
structure Tidy (m : Method) : Prop where
  preds : ∀ {y blk}, m.block? y = some blk → ∀ x, x ∈ blk.preds ↔ m.HasEdge x y
  bare : ∀ {x blk}, m.block? x = some blk → blk.handlers = [] ∧ blk.next = none

/-- Nothing is there but what the texts say, and nothing is connected. -/
structure Plain (m : Method) : Prop where
  ready : Draft.Ready ⟨m, [], []⟩
  tidy : m.Tidy
  tails : ∀ {b d}, m.builder? b = some d → d.tail = (m.reading b).tail
  edges : ∀ x y, m.HasEdge x y ↔ ∃ b, (x, y) ∈ (m.reading b).edges
  fresh : ∀ {b d}, m.builder? b = some d →
    d.isHandler = false ∧ d.blocks = [] ∧ d.derived = none

/-! ## Edges -/

variable {x : BlockId}

theorem hasEdge_withEdge_iff (hx : x < m.graph.blocks.size) (z w : BlockId) :
    (m.withEdge x y).HasEdge z w ↔ m.HasEdge z w ∨ (z = x ∧ w = y) := by
  constructor
  · grind [of_block?_withEdge, HasEdge]
  · rintro (h | ⟨rfl, rfl⟩)
    · exact h.withEdge x y
    · exact hasEdge_withEdge hx

theorem hasEdge_withBlock {f : Block → Block} (hf : ∀ blk, (f blk).succs = blk.succs)
    (z w : BlockId) : (m.withBlock x f).HasEdge z w ↔ m.HasEdge z w := by
  grind [of_block?_withBlock, block?_withBlock, HasEdge]

theorem hasEdge_addBlock (z w : BlockId) : m.addBlock.HasEdge z w ↔ m.HasEdge z w := by
  unfold HasEdge
  rw [block?_addBlock]
  split
  · next hz =>
    have hnone : m.block? z = none := Arena.get?_eq_none.2 hz.symm.le
    rw [hnone]
    constructor
    · rintro ⟨blk, hblk, hw⟩
      cases hblk
      exact absurd hw not_mem_nil
    · rintro ⟨blk, hblk, -⟩
      cases hblk
  · exact Iff.rfl

theorem hasEdge_linkFrom_iff {target : BlockId}
    (hs : ∀ x, source = some x → x < m.graph.blocks.size) (z w : BlockId) :
    (m.linkFrom source target).HasEdge z w ↔
      m.HasEdge z w ∨ (z, w) ∈ source.toList.map (·, target) := by
  cases source with
  | none => simp [linkFrom]
  | some x =>
    rw [linkFrom, hasEdge_withEdge_iff (hs x rfl)]
    simp

theorem hasEdge_withEdges_iff {ts : List BlockId} (hx : x < m.graph.blocks.size) (z w : BlockId)
    : (m.withEdges x ts).HasEdge z w ↔ m.HasEdge z w ∨ (z, w) ∈ ts.map (x, ·) := by
  induction ts generalizing m with
  | nil => simp [withEdges]
  | cons t ts ih => grind [withEdges, size_withEdge, hasEdge_withEdge_iff]

namespace Tidy

theorem withEdge (h : m.Tidy) (hx : x < m.graph.blocks.size) :
    (m.withEdge x y).Tidy where
  preds {z blk} hz w := by grind [of_block?_withEdge, hasEdge_withEdge_iff, h.preds]
  bare {z blk} hz := by
    rw [block?_withEdge] at hz
    obtain ⟨old, hold, rfl⟩ := Option.map_eq_some_iff.1 hz
    obtain ⟨hh, hn⟩ := h.bare hold
    dsimp only
    split <;> split <;> exact ⟨hh, hn⟩

theorem linkFrom (h : m.Tidy) (target : BlockId)
    (hs : ∀ x, source = some x → x < m.graph.blocks.size) : (m.linkFrom source target).Tidy := by
  cases source with
  | none => exact h
  | some x => exact h.withEdge (hs x rfl)

theorem withEdges (h : m.Tidy) (hx : x < m.graph.blocks.size) (ts : List BlockId) :
    (m.withEdges x ts).Tidy := by
  induction ts generalizing m with
  | nil => exact h
  | cons t ts ih => exact ih (h.withEdge hx) (by rw [size_withEdge]; exact hx)

theorem push (h : m.Tidy) (x : BlockId) (op : Operation) : (m.withBlock x (·.push op)).Tidy where
  preds {z blk} hz w := by grind [hasEdge_withBlock, of_block?_withBlock, Block.push, h.preds]
  bare {z blk} hz := by
    rcases of_block?_withBlock hz with ⟨rfl, old, hold, rfl⟩ | ⟨-, hz⟩
    · have hbare := h.bare hold
      exact hbare
    · exact h.bare hz

theorem addBlock (h : m.Tidy) (hnone : ∀ z w, m.HasEdge z w → w < m.graph.blocks.size) :
    m.addBlock.Tidy where
  preds {z blk} hz w := by grind [hasEdge_addBlock, block?_addBlock, h.preds]
  bare {z blk} hz := by grind [block?_addBlock, h.bare]

end Tidy

theorem grows_withEdges (x : BlockId) (ts : List BlockId) : m.Grows (m.withEdges x ts) := by
  induction ts generalizing m with
  | nil => exact .refl m
  | cons t ts ih => exact (show m.Grows (m.withEdge x t) from rfl).trans ih

theorem values_withEdges (x : BlockId) (ts : List BlockId) :
    (m.withEdges x ts).graph.values = m.graph.values := by
  induction ts generalizing m with
  | nil => rfl
  | cons t ts ih => exact ih.trans (values_withEdge ..)

theorem builders_withEdges (x : BlockId) (ts : List BlockId) :
    (m.withEdges x ts).builders = m.builders := by
  induction ts generalizing m with
  | nil => rfl
  | cons t ts ih => exact ih

theorem Plain.edge_lt (h : m.Plain) (hxy : m.HasEdge x y) : y < m.graph.blocks.size := by
  obtain ⟨blk, hblk, hy⟩ := hxy
  obtain ⟨c, hc, -⟩ := h.ready.wired.recorded hblk y (mem_append_left _ hy)
  exact lt_of_block? hc

/-! ## More text -/

/-- Text is added to one builder, and all that follows from it. -/
structure Adds (m m' : Method) (b : BuilderId) (ts : List Token) : Prop where
  plain : m'.Plain
  grows : m.Grows m'
  values : m'.graph.values = m.graph.values
  size : m'.builders.size = m.builders.size
  doors : m'.doors = m.doors
  stream : ∀ c, m'.stream c = if c = b then m.stream b ++ ts else m.stream c

theorem Plain.adds_nil (h : m.Plain) (b : BuilderId) : m.Adds m b [] where
  plain := h
  grows := .refl m
  values := rfl
  size := rfl
  doors := rfl
  stream c := by
    split
    · next hcb => rw [hcb, append_nil]
    · rfl

theorem Adds.trans {ts us : List Token} (h : m.Adds m' b ts) (h' : m'.Adds n b us) :
    m.Adds n b (ts ++ us) where
  plain := h'.plain
  grows := h.grows.trans h'.grows
  values := h'.values.trans h.values
  size := h'.size.trans h.size
  doors := h'.doors.trans h.doors
  stream c := by grind [h'.stream, h.stream]

/-- One more token in a text: tails and edges are what reading the token makes of them. -/
theorem Plain.extend {t : Token} (h : m.Plain) (hready : Draft.Ready ⟨m', [], []⟩)
    (htidy : m'.Tidy) (hdoors : m'.doors = m.doors)
    (hstream : ∀ c, m'.stream c = if c = b then m.stream b ++ [t] else m.stream c)
    (htails : ∀ {c d}, m'.builder? c = some d →
      d.tail = if c = b then (m.reading b).after m.doors t else (m.reading c).tail)
    (hedges : ∀ x y, m'.HasEdge x y ↔
      m.HasEdge x y ∨ (x, y) ∈ (m.reading b).added m.doors t)
    (hfresh : ∀ {b d}, m'.builder? b = some d →
      d.isHandler = false ∧ d.blocks = [] ∧ d.derived = none) : m'.Plain := by
  have hreading : ∀ c, m'.reading c =
      if c = b then (m.reading b).read m.doors t else m.reading c := by grind [reading]
  refine ⟨hready, htidy, fun {c d} hd => ?_, fun x y => ?_, hfresh⟩
  · rw [htails hd, hreading]
    split <;> rfl
  · grind [Reading.read, h.edges]

/-- The doors stay where builders keep their entries and exits. -/
theorem doors_congr (h : ∀ c, (m'.builder? c).map (fun d => (d.entry, d.exit)) =
    (m.builder? c).map fun d => (d.entry, d.exit)) : m'.doors = m.doors := by
  funext c
  unfold doors
  rw [h c]

theorem doors_withBuilder {f : Builder → Builder}
    (hf : ∀ d, (f d).entry = d.entry ∧ (f d).exit = d.exit) :
    (m.withBuilder b f).doors = m.doors := by
  refine doors_congr fun c => ?_
  rw [builder?_withBuilder]
  split
  · cases m.builder? c with
    | none => rfl
    | some d => grind
  · rfl

/-! ## Longer sequences -/

/-- The sequence of a builder with one more entry, into which control falls at `target`. -/
def longer (m : Method) (b : BuilderId) (d : Builder) (e : Entry) (t : Tail) (target : BlockId) :
    Method := (m.linkFrom d.tail.block? target).withBuilder b (·.extend e t)

section Longer

variable {d : Builder} {e : Entry} {t : Tail} {target : BlockId}

theorem builder?_longer (hd : m.builder? b = some d) (c : BuilderId) :
    (m.longer b d e t target).builder? c = if c = b then some (d.extend e t) else m.builder? c := by
  grind [longer, builder?_withBuilder, builder?_linkFrom]

theorem doors_longer : (m.longer b d e t target).doors = m.doors := by
  unfold longer
  rw [doors_withBuilder (f := (·.extend e t)) fun _ => ⟨rfl, rfl⟩]
  exact doors_congr fun c => by rw [builder?_linkFrom]

theorem hasEdge_longer (hs : ∀ x, d.tail.block? = some x → x < m.graph.blocks.size)
    (z w : BlockId) : (m.longer b d e t target).HasEdge z w ↔
      m.HasEdge z w ∨ (z, w) ∈ d.tail.block?.toList.map (·, target) :=
  hasEdge_linkFrom_iff hs z w

theorem Tidy.longer (h : m.Tidy) (hs : ∀ x, d.tail.block? = some x → x < m.graph.blocks.size) :
    (m.longer b d e t target).Tidy := by
  obtain ⟨hpreds, hbare⟩ := h.linkFrom target hs
  exact ⟨hpreds, hbare⟩

theorem grows_longer : m.Grows (m.longer b d e t target) := by
  unfold longer
  cases d.tail.block? <;> rfl

theorem values_longer : (m.longer b d e t target).graph.values = m.graph.values := by
  unfold longer
  cases d.tail.block? <;> rfl

theorem size_longer : (m.longer b d e t target).builders.size = m.builders.size := by
  unfold longer
  rw [size_withBuilder]
  cases d.tail.block? <;> rfl

end Longer

/-- The token of the block that is opened for an operation, if none is open. -/
def opening (m : Method) (b : BuilderId) : List Token :=
  match (m.reading b).tail with
  | .current _ => []
  | _ => [.label m.graph.blocks.size]

namespace Plain

variable {d : Builder} {x : BlockId}

variable (h : m.Plain) (hd : m.builder? b = some d)

include h hd in
/-- A new block at the end of a sequence. -/
theorem opened (hfull : ∀ x, d.tail ≠ .current x) :
    m.Adds (m.opened b d) b [.label m.graph.blocks.size] := by
  obtain ⟨hc, -⟩ := h.ready.sound.idle.builders b d hd
  have hlt : ∀ x, d.tail.block? = some x → x < m.graph.blocks.size :=
    fun x hx => h.ready.sound.idle.tails b d x hd hx
  have hlt' : ∀ x, d.tail.block? = some x → x < m.addBlock.graph.blocks.size := fun x hx => by
    rw [size_addBlock]
    exact Nat.lt_succ_of_lt (hlt x hx)
  have hready : Draft.Ready ⟨m.opened b d, [], []⟩ :=
    (Emit.openBlock_builds .plain [] [] (Emit.openBlock_opened hd hc hlt hfull)).1.ready rfl h.ready
  have hnew : m.opened b d = m.addBlock.longer b d (.block m.graph.blocks.size)
      (.current m.graph.blocks.size) m.graph.blocks.size := rfl
  have hstream := gains_opened hd
  have hdoors : (m.opened b d).doors = m.doors := by
    rw [hnew, doors_longer]
    rfl
  have htail := h.tails hd
  refine ⟨h.extend hready ?_ hdoors hstream ?_ ?_ ?_, ?_, ?_, ?_, hdoors, hstream⟩
  · rw [hnew]
    exact (h.tidy.addBlock fun _ _ => h.edge_lt).longer hlt'
  · intro c f hf
    rw [hnew, builder?_longer (m := m.addBlock) hd] at hf
    split at hf
    · next hcb =>
      cases hf
      rw [if_pos hcb]
      rfl
    · next hcb =>
      rw [if_neg hcb]
      exact h.tails hf
  · intro z w
    rw [hnew, hasEdge_longer hlt', hasEdge_addBlock, htail]
    rfl
  · intro c f hf
    rw [hnew, builder?_longer (m := m.addBlock) hd] at hf
    split at hf
    · cases hf
      have hfresh := h.fresh hd
      exact hfresh
    · exact h.fresh hf
  · rw [hnew]
    exact (show m.Grows m.addBlock from rfl).trans grows_longer
  · rw [hnew, values_longer]
    rfl
  · rw [hnew, size_longer]
    rfl

include h hd in
/-- An operation in the open block that does not end it. -/
theorem pushed (hx : d.tail = .current x) {op : Operation} (hop : op.isTerminator = false)
    (hthrow : op.opcode.canThrow = false) (ht : op.targets = [])
    : m.Adds (m.withBlock x (·.push op)) b [.op op] := by
  have hready : Draft.Ready ⟨m.withBlock x (·.push op), [], []⟩ := by
    have hstep : Step .plain ⟨m, [], []⟩ ⟨m.withBlock x (·.push op), [], _⟩ :=
      .push op hd hx hop ht (.inl rfl)
    rw [hthrow] at hstep
    exact hstep.builds.ready rfl h.ready
  have hstream := gains_push h.ready.sound.forest hd (h.ready.sound.bare.fronted hd hx) op
  refine ⟨h.extend hready (h.tidy.push x op) rfl hstream ?_ ?_ h.fresh, rfl, rfl, rfl, rfl, hstream⟩
  · grind [builder?, withBlock, Reading.after, h.tails]
  · grind [hasEdge_withBlock, Block.push, Reading.added]

include h hd in
/-- An operation that ends the open block, with its edges. -/
theorem closed (hx : d.tail = .current x) {op : Operation} (hop : op.isTerminator = true)
    (hready : Draft.Ready ⟨((m.withBlock x (·.push op)).withEdges x op.targets).withBuilder b
      fun d => { d with tail := d.tail.close (!op.isUnconditional) }, [], []⟩) :
    m.Adds (((m.withBlock x (·.push op)).withEdges x op.targets).withBuilder b
      fun d => { d with tail := d.tail.close (!op.isUnconditional) }) b [.op op] := by
  have hlt : x < (m.withBlock x (·.push op)).graph.blocks.size := by
    rw [size_withBlock]
    exact h.ready.sound.idle.tails b d x hd (by rw [hx]; rfl)
  let f : Builder → Builder := fun d => { d with tail := d.tail.close (!op.isUnconditional) }
  let m1 := (m.withBlock x (·.push op)).withEdges x op.targets
  have hbuilder : ∀ c, m1.builder? c = m.builder? c := fun c => by rw [builder?_withEdges]; rfl
  have hstream : m.Gains b [.op op] (m1.withBuilder b f) :=
    gains_closed h.ready.sound.forest hd (h.ready.sound.bare.fronted hd hx) op _ _
  have hdoors : (m1.withBuilder b f).doors = m.doors :=
    (doors_withBuilder (f := f) fun _ => ⟨rfl, rfl⟩).trans
      (doors_congr fun c => by rw [hbuilder])
  have htail : (m.reading b).tail = .current x := (h.tails hd).symm.trans hx
  have hafter : (m.reading b).after m.doors (.op op) =
      (Tail.current x).close (!op.isUnconditional) := by
    rw [← htail]
    exact if_pos hop
  refine ⟨h.extend hready ?_ hdoors hstream ?_ ?_ ?_, ?_, ?_, ?_, hdoors, hstream⟩
  · obtain ⟨hpreds, hbare⟩ := (h.tidy.push x op).withEdges hlt op.targets
    exact ⟨hpreds, hbare⟩
  · grind [of_builder?_withBuilder, h.tails]
  · intro z w
    have hedges : (m1.withBuilder b f).HasEdge z w ↔ m1.HasEdge z w := Iff.rfl
    rw [hedges, hasEdge_withEdges_iff hlt, hasEdge_withBlock (f := (·.push op)) fun _ => rfl,
      Reading.added_op, htail]
    simp [Tail.block?]
  · intro c e he
    rcases of_builder?_withBuilder he with ⟨rfl, d', hd', rfl⟩ | ⟨-, he⟩
    · have hfresh := h.fresh ((hbuilder b).symm.trans hd')
      exact hfresh
    · exact h.fresh ((hbuilder c).symm.trans he)
  · have hpush : m.Grows (m.withBlock x (·.push op)) := rfl
    exact (hpush.trans (grows_withEdges ..)).trans rfl
  · exact values_withEdges ..
  · rw [size_withBuilder, builders_withEdges]
    rfl

include h hd in
/-- A builder at the end of a sequence. -/
theorem nested {e : Builder} (he : m.builder? c = some e) (hne : c ≠ b)
    (hready : Draft.Ready ⟨(m.withBuilder c ({ · with placed := true })).longer b d
      (.builder c) (.owed e.exit) e.entry, [], []⟩) :
    m.Adds ((m.withBuilder c ({ · with placed := true })).longer b d (.builder c) (.owed e.exit)
      e.entry) b [.child c] := by
  let m1 := m.withBuilder c ({ · with placed := true })
  have hd1 : m1.builder? b = some d := by
    rw [builder?_withBuilder, if_neg hne, hd]
  have hlt : ∀ x, d.tail.block? = some x → x < m1.graph.blocks.size :=
    fun x hx => h.ready.sound.idle.tails b d x hd hx
  have hstream : m.Gains b [.child c] (m1.longer b d (.builder c) (.owed e.exit) e.entry) :=
    gains_holding hd hne
  have hdoors : (m1.longer b d (.builder c) (.owed e.exit) e.entry).doors = m.doors :=
    doors_longer.trans (doors_withBuilder (f := ({ · with placed := true })) fun _ => ⟨rfl, rfl⟩)
  -- a builder of the new method is one of the old, with the same end unless it is this one
  have hold : ∀ {k f}, (m1.longer b d (.builder c) (.owed e.exit) e.entry).builder? k = some f →
      f.tail = (if k = b then .owed e.exit else (m.reading k).tail) ∧
        f.isHandler = false ∧ f.blocks = [] ∧ f.derived = none := by
    intro k f hf
    rw [builder?_longer hd1] at hf
    split at hf
    · grind [Builder.extend, h.fresh]
    · grind [of_builder?_withBuilder, h.tails, h.fresh]
  refine ⟨h.extend hready ?_ hdoors hstream ?_ ?_ fun hf => (hold hf).2, ?_, ?_, ?_, hdoors,
    hstream⟩
  · obtain ⟨hpreds, hbare⟩ := h.tidy
    exact Tidy.longer (m := m1) ⟨hpreds, hbare⟩ hlt
  · grind [Reading.after, doors_of_builder?]
  · intro z w
    have hedges : m1.HasEdge z w ↔ m.HasEdge z w := Iff.rfl
    rw [hasEdge_longer hlt, hedges, h.tails hd, Reading.added, doors_of_builder? he]
  · exact (show m.Grows m1 from rfl).trans grows_longer
  · exact values_longer
  · rw [size_longer, size_withBuilder]

/-- What happens to neither blocks nor builders. -/
theorem quiet (h : m.Plain) (hq : m.Quiet m') (hs : m'.vmState = m.vmState) :
    m'.Plain ∧ m'.stream = m.stream ∧ m'.doors = m.doors ∧ m'.reading = m.reading := by
  have hbuilder : m'.builder? = m.builder? := by
    unfold builder?
    rw [hq.builders]
  have hblock : m'.block? = m.block? := by
    unfold block? Graph.block?
    rw [hq.blocks]
  have hstream : m'.stream = m.stream := by
    funext c
    refine stream_congr (by rw [hbuilder]) fun _ x _ _ => ?_
    unfold ops
    rw [hblock]
  have hdoors : m'.doors = m.doors := by
    unfold doors
    rw [hbuilder]
  have hreading : m'.reading = m.reading := by
    unfold reading
    rw [hstream, hdoors]
  have hedge : m'.HasEdge = m.HasEdge := by
    unfold HasEdge
    rw [hblock]
  have hready : Draft.Ready ⟨m', [], []⟩ :=
    (Step.quiet (l := .plain) hq (.inr hs) (.inl rfl)).builds.ready rfl h.ready
  refine ⟨⟨hready, ⟨?_, ?_⟩, ?_, ?_, ?_⟩, hstream, hdoors, hreading⟩
  · rw [hblock, hedge]
    exact h.tidy.preds
  · rw [hblock]
    exact h.tidy.bare
  · rw [hbuilder, hreading]
    exact h.tails
  · rw [hedge, hreading]
    exact h.edges
  · rw [hbuilder]
    exact h.fresh

end Plain

end Method

/-! ## Emitting -/

namespace Emit

variable {x : BlockId} {op : Operation}

theorem openBlock_adds (h : m.Plain) (hrun : (openBlock b).run m = .ok (x, m')) :
    m.Adds m' b (m.opening b) ∧ ∃ d, m'.builder? b = some d ∧ d.tail = .current x := by
  refine ⟨?_, (openBlock_builds .plain [] [] hrun).2⟩
  obtain ⟨d, hd, hcase⟩ := openBlock_eq_ok hrun
  unfold opening
  rw [← h.tails hd]
  rcases hcase with ⟨hx, rfl⟩ | ⟨hfull, -, rfl, -⟩
  · rw [hx]
    exact h.adds_nil b
  · grind [h.opened]

/-- An operation that does not end its block is text, perhaps behind a new label. -/
theorem emit_adds (h : m.Plain) (hop : op.isTerminator = false)
    (hthrow : op.opcode.canThrow = false) (ht : op.targets = [])
    (hrun : (emit b op).run m = .ok (u, m')) : m.Adds m' b (m.opening b ++ [.op op]) := by
  obtain ⟨x, m1, h1, hrun⟩ := bind_eq_ok.1 hrun
  obtain ⟨hopen, d, hd, hx⟩ := openBlock_adds h h1
  obtain ⟨-, rfl⟩ := push_eq_ok.1 hrun
  exact hopen.trans (hopen.plain.pushed hd hx hop hthrow ht)

/-- An operation that ends its block is text, perhaps behind a new label. -/
theorem transfer_adds (h : m.Plain) {opcode : Opcode} {operands : List ValueId}
    {targets : List BlockId} (hop : opcode.isTerminator = true)
    (ht : ∀ t ∈ targets, Draft.IsTarget ⟨m, [], []⟩ t)
    (hrun : (transfer b opcode operands targets).run m = .ok (u, m')) :
    m.Adds m' b (m.opening b ++ [.op { opcode, operands, targets }]) := by
  have hready : Draft.Ready ⟨m', [], []⟩ :=
    (transfer_builds (l := .plain) hop ht hrun).ready rfl h.ready
  obtain ⟨x, m1, h1, -, -, rfl⟩ := transfer_eq_ok hrun
  obtain ⟨hopen, d, hd, hx⟩ := openBlock_adds h h1
  have hclosed := @Method.Plain.closed _ _ _ _ hopen.plain hd hx { opcode, operands, targets } hop
  exact hopen.trans (hclosed hready)

/-- A builder that is appended is text. -/
theorem append_adds (h : m.Plain) (hrun : (append b c).run m = .ok (u, m')) :
    m.Adds m' b [.child c] := by
  have hready : Draft.Ready ⟨m', [], []⟩ := (append_builds (l := .plain) hrun).ready rfl h.ready
  obtain ⟨d, e, hd, he, hne, -, -, -, ⟨hh, -⟩ | ⟨-, rfl⟩⟩ := append_eq_ok hrun
  · exact absurd hh (by rw [(h.fresh he).1]; exact Bool.false_ne_true)
  · exact h.nested hd he hne hready

end Emit
end MethodGraph
