import MethodGraph.Proofs.Calls
/-!
  What emitting leaves alone.

  Most of what is asked of a method only emits: it adds blocks, values, symbols, builders and
  operations, and everything of the method that is not its graph or its builders stays as it is.
  What it adds is in order: every new operation suits the graph.

  Main statement: what is lawful without straying only emits (`Emit.Lawful.emits`), and so does
  whatever is put together from such (`Emit.within_bind`).
-/

namespace MethodGraph

variable {α β : Type} {m m' : Method} {l : License} {s t : Draft}

/-! ## Emitting -/

/-- Only the graph and the builders have changed; the values and symbols that were there are there,
    and every operation that was not suits the graph. -/
structure Method.Emitted (m m' : Method) : Prop where
  rest : m' = { m with graph := m'.graph, builders := m'.builders }
  keeps : m.graph.Keeps m'.graph
  operations : ∀ x blk, m'.block? x = some blk → ∀ op ∈ blk.operations,
    op.Suits m'.graph ∨ ∃ old, m.block? x = some old ∧ op ∈ old.operations

namespace Method.Emitted

theorem refl (m : Method) : m.Emitted m :=
  ⟨rfl, .refl _, fun _ blk h _ hop => .inr ⟨blk, h, hop⟩⟩

theorem trans {m1 m2 m3 : Method} (h : m1.Emitted m2) (h' : m2.Emitted m3) : m1.Emitted m3 where
  rest := by
    rw [h'.rest, h.rest]
  keeps := h.keeps.trans h'.keeps
  operations := by
    intro x blk hx op hop
    rcases h'.operations x blk hx op hop with hs | ⟨mid, hmid, hop⟩
    · exact .inl hs
    · rcases h.operations x mid hmid op hop with hs | hold
      · exact .inl (hs.mono h'.keeps)
      · exact .inr hold

/-- A block is changed, in which there may be one more operation then. -/
theorem withBlock {x : BlockId} {f : Block → Block}
    (hf : ∀ blk, ∀ op ∈ (f blk).operations, op.Suits m.graph ∨ op ∈ blk.operations) :
    m.Emitted (m.withBlock x f) where
  rest := rfl
  keeps := ⟨fun _ _ h => h, fun _ _ h => h⟩
  operations := by
    intro y blk hy op hop
    rcases Method.of_block?_withBlock hy with ⟨rfl, old, hold, rfl⟩ | ⟨-, hy⟩
    · exact (hf old op hop).imp id fun h => ⟨old, hold, h⟩
    · exact .inr ⟨blk, hy, hop⟩

theorem withBuilder (b : BuilderId) (f : Builder → Builder) : m.Emitted (m.withBuilder b f) :=
  ⟨rfl, .refl _, fun _ blk h _ hop => .inr ⟨blk, h, hop⟩⟩

theorem addBlock (m : Method) : m.Emitted m.addBlock where
  rest := rfl
  keeps := ⟨fun _ _ h => h, fun _ _ h => h⟩
  operations := by grind [Method.block?_addBlock]

end Method.Emitted

instance : Accrues Method.Emitted := ⟨Method.Emitted.refl, Method.Emitted.trans⟩

/-- Every step of building emits, unless it strays. -/
theorem Step.emitted (hl : l.strays = false) (h : Step l s t) : s.method.Emitted t.method := by
  have hnot : ¬ l.strays = true := by
    rw [hl]
    exact Bool.false_ne_true
  have hpush : ∀ {m : Method} {x : BlockId} {op : Operation}, l.strays = true ∨ op.Suits m.graph →
      m.Emitted (m.withBlock x (·.push op)) := by
    intro m x op hop
    refine .withBlock fun blk o ho => ?_
    rcases List.mem_append.1 ho with ho | ho
    · exact .inr ho
    · rw [List.mem_singleton.1 ho]
      exact .inl (hop.resolve_left hnot)
  have hsame : ∀ {m : Method} {x : BlockId} {f : Block → Block},
      (∀ blk, (f blk).operations = blk.operations) → m.Emitted (m.withBlock x f) :=
    fun hf => .withBlock fun blk _ ho => .inr (hf blk ▸ ho)
  cases h with
  | quiet h _ hrest =>
    refine ⟨?_, ⟨h.values, h.symbols⟩, fun x blk hx op hop => .inr ⟨blk, ?_, hop⟩⟩
    · rw [h.builders]
      exact hrest.resolve_left hnot
    · exact (congrArg (Arena.get? · x) h.blocks).symm.trans hx
  | flag x f hf => exact hsame fun blk => (hf blk).operations
  | tag | place | split | forget => exact .withBuilder ..
  | newBlock => exact .addBlock _
  | @newBuilder m =>
    refine ((Method.Emitted.addBlock m).trans (.addBlock _)).trans ?_
    exact ⟨rfl, .refl _, fun _ blk h _ hop => .inr ⟨blk, h, hop⟩⟩
  | @edge m _ _ x y =>
    have hsource : m.Emitted (m.withBlock x (·.addSucc y)) := hsame fun _ => rfl
    exact hsource.trans (hsame fun _ => rfl)
  | @handle m _ _ _ x y =>
    have hsource : m.Emitted (m.withBlock x (·.addHandler y)) := hsame fun _ => rfl
    exact hsource.trans (hsame fun _ => rfl)
  | nest => exact (Method.Emitted.withBuilder ..).trans (.withBuilder ..)
  | push op _ _ _ _ hop => exact hpush hop
  | close op _ _ _ _ hop => exact (hpush hop).trans (.withBuilder ..)

theorem Builds.emitted (hl : l.strays = false) (h : Builds l s t) : s.method.Emitted t.method := by
  induction h with
  | refl => exact .refl _
  | tail _ hst ih => exact ih.trans (hst.emitted hl)

/-- The license to do whatever emits. -/
def License.emitting : License := ⟨true, true, true, false⟩

namespace Emit

/-- All that a computation does is to emit. -/
abbrev Emits (x : Emit α) : Prop := Within Method.Emitted x

theorem Lawful.emits {x : Emit α} (hx : Lawful .emitting x) : Emits x :=
  fun m a m' h => (hx m a m' [] [] h).emitted rfl

theorem emits_updateBuilder (b : BuilderId) (f : Builder → Builder) :
    Emits (updateBuilder b f) := by
  intro m u m' h
  obtain ⟨-, rfl⟩ := updateBuilder_eq_ok.1 h
  exact .withBuilder b f

theorem emits_updateRecord (b : BuilderId) (f : BytecodeRecord → BytecodeRecord) :
    Emits (updateRecord b f) :=
  within_bind (within_record b) fun _ => emits_updateBuilder b _

instance (b : BuilderId) : Rewrites b Method.Emitted where
  value m ty := (Admits.value b m ty : Grows .emitting [] [] m _).emitted rfl
  symbol m name ty kind := (Admits.symbol b m name ty kind : Grows .emitting [] [] m _).emitted rfl
  emit hop hsuits h := (emit_builds hop (.inr hsuits) h : Grows .emitting [] [] _ _).emitted rfl
  record _ h := emits_updateRecord b _ _ _ _ h

theorem emits_addEdge (x y : BlockId) : Emits (addEdge x y) := by
  intro m u m' h
  obtain ⟨-, -, rfl⟩ := addEdge_eq_ok.1 h
  have hsource : m.Emitted (m.withBlock x (·.addSucc y)) := .withBlock fun _ _ h => .inr h
  exact hsource.trans (.withBlock fun _ _ h => .inr h)

end Emit

end MethodGraph
