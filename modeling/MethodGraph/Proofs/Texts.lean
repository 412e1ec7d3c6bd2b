import MethodGraph.Proofs.Flow
import MethodGraph.Proofs.Handling
/-!
  What is built stays in the texts.

  Whatever is built later, the text of a builder only gets longer (`Builds.stream_prefix`).  So the
  text that a construct has added to a sequence (`Draft.Adds`) is there when the method is
  connected, and the graph runs it (`Method.Told`).
-/

namespace MethodGraph

open Method List

variable {m m₁ m₂ m' n : Method} {b c k : BuilderId} {d e : Builder} {x y : BlockId}
  {loose risky targets : List BlockId} {ts us : List Token} {s t u : Draft} {l : License}
  {opcode : Opcode} {operands : List ValueId}

/-! ## Texts that get longer -/

/-- The text of a builder only gets longer. -/
theorem Builds.stream_prefix (h : Builds l s t) (hs : s.Sound) (b : BuilderId) :
    s.method.stream b <+: t.method.stream b := by
  cases hd : s.method.builder? b with
  | none => simp [stream, hd]
  | some d =>
    obtain ⟨e, he, hde⟩ := h.below.builders b d hd
    obtain ⟨rest, hrest⟩ := hde.sequence
    have hsettled : ∀ {x}, .block x ∈ d.sequence → d.tail ≠ .current x →
        t.method.ops x = s.method.ops x := fun hx hshut =>
      (h.settled (settled_of_mem hs hd hx hshut)).2
    rw [stream_of_builder? hd, stream_of_builder? he, ← hrest, flatMap_append]
    by_cases hcur : ∃ x, d.tail = .current x
    · obtain ⟨x, hx⟩ := hcur
      obtain ⟨es, hes, hnew, -⟩ := hs.forest.last hd (hs.bare.fronted hd hx)
      have hsame : es.flatMap t.method.tokens = es.flatMap s.method.tokens :=
        flatMap_tokens_congr fun y hy => hsettled (by simp [hes, hy]) fun hcur => by
          cases hx.symm.trans hcur
          exact hnew hy
      obtain ⟨blk, hblk⟩ := exists_block? (hs.idle.tails b d x hd (by rw [hx]; rfl))
      obtain ⟨blk', hblk', hbb⟩ := h.below.blocks x blk hblk
      obtain ⟨more, hmore⟩ := hbb.operations
      rw [hes, flatMap_append, flatMap_append, hsame, flatMap_singleton, flatMap_singleton,
        tokens_block, tokens_block, ops_of_block? hblk, ops_of_block? hblk', ← hmore]
      exact ⟨more.map .op ++ rest.flatMap t.method.tokens, by simp⟩
    · rw [flatMap_tokens_congr fun y hy => hsettled hy fun hy => hcur ⟨y, hy⟩]
      exact prefix_append ..

theorem Builds.size_le (h : Builds l s t) : s.method.builders.size ≤ t.method.builders.size := by
  refine Nat.le_of_not_lt fun hlt => ?_
  obtain ⟨d, hd⟩ := exists_builder? hlt
  obtain ⟨_, he, -⟩ := h.below.builders _ d hd
  exact Nat.lt_irrefl _ (lt_of_builder? he)

/-- Text was added to a builder, and to no other that there was. -/
structure Draft.Adds (s : Draft) (b : BuilderId) (ts : List Token) (t : Draft) : Prop where
  builds : Builds .full s t
  stream : s.Sound → ∀ c < s.method.builders.size,
    t.method.stream c = if c = b then s.method.stream c ++ ts else s.method.stream c

namespace Draft.Adds

theorem trans (h : s.Adds b ts t) (h' : t.Adds b us u) : s.Adds b (ts ++ us) u := by
  refine ⟨h.builds.trans h'.builds, fun hs c hc => ?_⟩
  rw [h'.stream (h.builds.sound hs) c (hc.trans_le h.builds.size_le), h.stream hs c hc]
  split <;> simp

/-- Text of a builder that was not there. -/
theorem skip (h : s.Adds b ts t) (h' : t.Adds c us u) (hc : s.method.builders.size ≤ c) :
    s.Adds b ts u := by
  refine ⟨h.builds.trans h'.builds, fun hs k hk => ?_⟩
  rw [h'.stream (h.builds.sound hs) k (hk.trans_le h.builds.size_le), if_neg (hk.trans_le hc).ne,
    h.stream hs k hk]

end Draft.Adds

variable (hbuilds : Builds .full ⟨m, loose, risky⟩ ⟨m', loose, risky⟩)

namespace Emit

variable {v : Unit} {p : BuilderId} {o : Option BuilderId}

end Emit

/-! ## Connected methods -/

theorem Method.Laid.stream (h : n.Laid m') : m'.stream = n.stream := by
  funext b
  refine stream_congr ?_ fun d x hd hx => ?_
  · have hmap := congrArg (Option.map (·.sequence)) (h.frames b)
    rwa [Option.map_map, Option.map_map] at hmap
  · obtain ⟨-, blk, hblk, hops⟩ := h.code hd hx
    exact (ops_of_block? hblk).trans hops

theorem Method.Laid.doors (h : n.Laid m') : m'.doors = n.doors := by
  refine doors_congr fun b => ?_
  have hmap := congrArg (Option.map fun d => (d.entry, d.exit)) (h.frames b)
  rwa [Option.map_map, Option.map_map] at hmap

/-- The graph of a method runs its texts, and they go on from those of an earlier method. -/
structure Method.Told (m m' : Method) (F : Sketch) : Prop where
  conducts : m'.graph.Conducts F (m'.graph.Live F)
  texts : ∀ b, m.stream b <+: F.stream b
  doors : ∀ {b d}, m.builder? b = some d → F.entry b = d.entry ∧ F.exit b = d.exit
  same : m'.stream = F.stream ∧ ∀ b, F.entry b = (m'.doors b).1

/-- Control is at the end of what a sequence has. -/
def Method.Stops (m : Method) (b : BuilderId) (p : BlockId × Nat) : Prop :=
  ∃ d, m.builder? b = some d ∧
    ((∃ x, d.sequence.getLast? = some (.block x) ∧ p = (x, (m.ops x).length)) ∨
      ∃ c e, d.sequence.getLast? = some (.builder c) ∧ m.builder? c = some e ∧ p = (e.exit, 0))

/-- Control comes to the block behind a builder of a sequence. -/
def Method.Behind (m : Method) (b c : BuilderId) (y : BlockId) : Prop :=
  ∃ front t rest, m.stream b = front ++ .child c :: t :: rest ∧
    (t = .label y ∨ ∃ k, t = .child k ∧ y = (m.doors k).1)

namespace Method.Told

variable {F : Sketch}

theorem live (h : m.Told m' F) (hs : Draft.Sound ⟨m, [], []⟩) (hd : m.builder? b = some d)
    (hlaid : d.entry ∈ m'.graph.layout) : m'.graph.Live F b :=
  ⟨d.entry, (h.texts b).subset (hs.label_entry hd), hlaid⟩

theorem spot (h : m.Told m' F) {p : BlockId × Nat} (hp : m.Stops b p) :
    F.spot (m.stream b) = p := by
  obtain ⟨d, hd, ⟨x, hlast, rfl⟩ | ⟨c, e, hlast, he, rfl⟩⟩ := hp
  all_goals
    obtain ⟨es, hes⟩ := getLast?_eq_some_iff.1 hlast
    rw [stream_of_builder? hd, hes, flatMap_append, flatMap_singleton, spot_tokens]
  · rfl
  · rw [← (h.doors he).2]
    rfl

theorem behind (h : m.Told m' F) (hb : m'.graph.Live F b) (hy : m'.Behind b c y) :
    m'.graph.FallsTo (F.exit c, 0) y := by
  obtain ⟨front, t, rest, hstream, ht⟩ := hy
  have heq : F.stream b = (front ++ [.child c]) ++ t :: rest := by
    rw [← h.same.1, hstream]
    simp
  have hspot : F.spot (front ++ [.child c]) = (F.exit c, 0) := Sketch.spot_concat ..
  rw [← hspot]
  obtain rfl | ⟨k, rfl, rfl⟩ := ht
  · exact h.conducts.label hb heq (by simp)
  · rw [← h.same.2]
    exact h.conducts.child hb heq (by simp)

end Method.Told

/-- Where an operation goes that a builder takes. -/
theorem Builder.Opens.spot {label : List Token} (h : d.Opens x label)
    (hs : Draft.Sound ⟨m, loose, risky⟩) (hd : m.builder? b = some d) :
    ∃ pre, (d.tail = .current x ∧ pre = m.ops x ∨ (∀ z, d.tail ≠ .current z) ∧ pre = []) ∧
      .label x ∈ m.stream b ++ label ∧ ∀ F : Sketch, F.spot (m.stream b ++ label) = (x, pre.length) := by
  obtain ⟨hx, rfl⟩ | ⟨hfull, rfl⟩ := h
  · have hlast := hs.bare.fronted hd hx
    obtain ⟨es, hes⟩ := getLast?_eq_some_iff.1 hlast
    refine ⟨m.ops x, .inl ⟨hx, rfl⟩, ?_, fun F => ?_⟩
    · rw [append_nil, label_mem_stream hd]
      exact mem_of_getLast? hlast
    · rw [append_nil, stream_of_builder? hd, hes, flatMap_append, flatMap_singleton, spot_tokens]
      rfl
  · exact ⟨[], .inr ⟨hfull, rfl⟩, by simp, fun F => Sketch.spot_concat ..⟩

end MethodGraph
