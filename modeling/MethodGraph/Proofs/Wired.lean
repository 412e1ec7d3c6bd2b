import Mathlib.Data.List.Chain
import MethodGraph.Proofs.Forest
/-!
  The blocks of a method under construction are wired up.

  A block gets no operation behind a transfer, a transfer has an edge to each of its targets, and a
  block that can throw has a handler.  An edge leads to a block that has or will have a place in a
  sequence, or to the exit of the method.  Control falls along a sequence: from a block, or from
  the exit of a builder, into the block behind it or the entry of the builder behind it there is an
  edge, unless the block ends in a transfer that never falls through (`Method.Leads`).  The end of
  a sequence is what its tail says (`Method.Closes`).

  `Draft.Wired` holds of a method with nothing in it and is kept by every step that forgets no end
  of a sequence.  What a step does is said once for blocks (`Step.changesBlock`) and once for
  builders (`Step.changesBuilder`), and each part of the invariant follows from these.  The crux is
  that a block takes operations only while it has no transfer, so falling through from it is a
  matter of edges at any later time.
-/

namespace MethodGraph

open Method List Builder Arena Nat Block

variable {blk : Block} {x y : BlockId} {d : Builder} {b c : BuilderId} {e e' : Entry} {o : Opcode}

variable {l : License} {m : Method} {s t : Draft}

theorem Opcode.isTerminator_of_isUnconditional (h : o.isUnconditional = true) :
    o.isTerminator = true := by
  cases o <;> first | rfl | cases h

theorem Opcode.isTerminator_of_canThrow (h : o.canThrow = true) : o.isTerminator = false := by
  cases o <;> first | rfl | cases h

namespace Block

variable {blk : Block}

/-- No operation ends the block. -/
def IsOpen (blk : Block) : Prop := ∀ op ∈ blk.operations, op.isTerminator = false

theorem IsOpen.fallsThrough (h : blk.IsOpen) : blk.fallsThrough = true := by
  unfold Block.fallsThrough
  cases hop : blk.lastOp? with
  | none => rfl
  | some op =>
    cases hu : op.isUnconditional with
    | false =>
      show (!op.isUnconditional) = true
      rw [hu]
      rfl
    | true =>
      have hclosed := h op (mem_of_getLast? hop)
      rw [show op.isTerminator = true from Opcode.isTerminator_of_isUnconditional hu] at hclosed
      cases hclosed

theorem isOpen_of_empty (h : blk.operations = []) : blk.IsOpen := by
  intro op hop
  rw [h] at hop
  exact absurd hop not_mem_nil

theorem IsOpen.push (h : blk.IsOpen) {op : Operation} (hop : op.isTerminator = false) :
    (blk.push op).IsOpen := by grind [IsOpen, push]

theorem fallsThrough_push (blk : Block) (op : Operation) :
    (blk.push op).fallsThrough = !op.isUnconditional := by
  unfold fallsThrough lastOp? push
  rw [getLast?_append, getLast?_singleton]
  rfl

theorem fallsThrough_congr {blk' : Block} (h : blk'.operations = blk.operations) :
    blk'.fallsThrough = blk.fallsThrough := by
  unfold fallsThrough lastOp?
  rw [h]

end Block

/-! ## What a step does -/

/-- What a step can do to a block: `blk` is what it becomes. -/
inductive BlockChange (s t : Draft) (x : BlockId) (blk : Block) : Prop where
  | fresh (hx : s.method.block? x = none) (hblk : blk = {})
  | linked {old : Block} (hx : s.method.block? x = some old)
    (hops : blk.operations = old.operations) (hsuccs : ∀ y ∈ old.succs, y ∈ blk.succs)
    (hhandlers : ∀ y ∈ old.handlers, y ∈ blk.handlers)
    (htargets : ∀ y ∈ blk.allSuccs, y ∈ old.allSuccs ∨
      s.IsTarget y ∧ ∃ c, t.method.block? y = some c ∧ x ∈ c.preds)
    (hrisky : x ∈ s.risky → x ∈ t.risky ∨ blk.handlers ≠ [])
  | pushed {old : Block} {b : BuilderId} {d : Builder} {op : Operation}
    (hx : s.method.block? x = some old) (hblk : blk = old.push op)
    (hd : s.method.builder? b = some d) (htail : d.tail = .current x)
    (htargets : ∀ y ∈ op.targets, y ∈ old.succs)
    (hrisky : x ∈ s.risky → x ∈ t.risky) (hthrow : op.opcode.canThrow = true → x ∈ t.risky)
    (hend : op.isTerminator = true → ∃ e, t.method.builder? b = some e ∧
      e.tail = d.tail.close (!op.isUnconditional))

/-- What a step can do to a builder: `e` is what it becomes. -/
inductive BuilderChange (l : License) (s t : Draft) (b : BuilderId) (e : Builder) : Prop where
  | fresh {x : BlockId} (hb : s.method.builder? b = none) (hx : t.method.block? x = some {})
    (hexit : t.method.block? e.exit = some {}) (hseq : e.sequence = [.block x])
    (htail : e.tail = .current x) (hnew : s.method.block? x = none)
  | same {d : Builder} (hb : s.method.builder? b = some d) (hseq : e.sequence = d.sequence)
    (htail : e.tail = d.tail)
  | placed {d : Builder} {x : BlockId} (hb : s.method.builder? b = some d) (hx : x ∈ s.loose)
    (hseq : e.sequence = d.sequence ++ [.block x]) (htail : e.tail = .current x)
    (hedge : ∀ y, d.tail.block? = some y → s.method.HasEdge y x)
  | nested {d f : Builder} {c : BuilderId} (hb : s.method.builder? b = some d)
    (hc : s.method.builder? c = some f) (hseq : e.sequence = d.sequence ++ [.builder c])
    (htail : e.tail = .owed f.exit)
    (hedge : ∀ y, d.tail.block? = some y → s.method.HasEdge y f.entry)
  | closed {d : Builder} {x : BlockId} {op : Operation} (hb : s.method.builder? b = some d)
    (hseq : e.sequence = d.sequence) (hcur : d.tail = .current x)
    (htail : e.tail = if op.isUnconditional then .closed else .owed x)
    (hpush : ∀ blk, t.method.block? x = some blk → ∃ old : Block, blk = old.push op)
  | split {d : Builder} {x : BlockId} (hb : s.method.builder? b = some d)
    (hseq : e.sequence = d.sequence) (hcur : d.tail = .current x) (htail : e.tail = .owed x)
  | forgot {d : Builder} (hl : l.forgets = true) (hb : s.method.builder? b = some d)
    (hseq : e.sequence = d.sequence) (htail : e.tail = .closed)

namespace BlockChange

variable {x : BlockId} {blk : Block}

/-- The code of the block stays as it is. -/
theorem same {old : Block} (hx : s.method.block? x = some old) (h : old.SameCode blk)
    (hrisky : ∀ z ∈ s.risky, z ∈ t.risky) : BlockChange s t x blk := by
  refine .linked hx h.operations (fun y hy => h.succs ▸ hy) (fun y hy => h.handlers ▸ hy)
    (fun y hy => .inl ?_) fun hr => .inl (hrisky x hr)
  unfold allSuccs at hy ⊢
  rwa [h.succs, h.handlers] at hy

/-- Nothing happens to the block. -/
theorem refl (hx : s.method.block? x = some blk) (hrisky : ∀ z ∈ s.risky, z ∈ t.risky) :
    BlockChange s t x blk := same hx ⟨rfl, rfl, rfl, rfl⟩ hrisky

end BlockChange

variable (h : Step l s t)

include h in
theorem Step.changesBlock {z : BlockId} (hz : t.method.block? z = some blk)
    : BlockChange s t z blk := by
  cases h with
  | @quiet m m' loose risky h =>
    exact .refl ((congrArg (get? · z) h.blocks).symm.trans hz) fun _ h => h
  | flag x f hf =>
    rcases of_block?_withBlock hz with ⟨rfl, old, hold, rfl⟩ | ⟨-, hz⟩
    · exact .same hold (hf old) fun _ h => h
    · exact .refl hz fun _ h => h
  | tag | place | nest | split | forget => exact .refl hz fun _ h => h
  | newBlock =>
    rw [block?_addBlock] at hz
    split at hz
    · next hz' =>
      cases hz
      exact .fresh (get?_eq_none.2 (le_of_eq hz'.symm)) rfl
    · exact .refl hz fun _ h => h
  | newBuilder r =>
    rw [block?_addBuilder] at hz
    split at hz
    · next hz' =>
      cases hz
      refine .fresh (get?_eq_none.2 ?_) rfl
      rcases hz' with hz' | hz'
      · exact le_of_eq hz'.symm
      · exact le_of_lt (lt_of_lt_of_eq (lt_succ_self _) hz'.symm)
    · exact .refl hz fun _ h => h
  | @edge m loose risky x y hx hy ht =>
    obtain ⟨old, hold, hops, hhandlers, hsuccs, -⟩ := of_block?_withEdge hz
    refine .linked hold hops (fun w hw => (hsuccs w).2 (.inl hw)) (fun w hw => hhandlers ▸ hw)
      (fun w hw => ?_) fun h => .inl h
    rcases mem_append.1 hw with hw | hw
    · grind [exists_block?, size_withEdge, of_block?_withEdge, Block.allSuccs]
    · exact .inl (mem_append_right _ (hhandlers ▸ hw))
  | @push m loose risky b d x op hb hx hop htargets =>
    rcases of_block?_withBlock hz with ⟨rfl, old, hold, rfl⟩ | ⟨-, hz⟩
    · refine .pushed hold rfl hb hx (fun y hy => ?_) (fun hr => ?_) (fun hthrow => ?_)
        fun hterm => ?_
      · rw [htargets] at hy
        exact absurd hy not_mem_nil
      · dsimp only
        split
        · exact mem_cons_of_mem _ hr
        · exact hr
      · dsimp only
        rw [if_pos hthrow]
        exact mem_cons_self
      · rw [hop] at hterm
        cases hterm
    · refine .refl hz fun w hw => ?_
      dsimp only
      split
      · exact mem_cons_of_mem _ hw
      · exact hw
  | @close m loose risky b d x op hb hx hop he =>
    rcases of_block?_withBlock (m := m) hz with ⟨rfl, old, hold, rfl⟩ | ⟨-, hz⟩
    · refine .pushed hold rfl hb hx (fun y hy => ?_) id (fun hthrow => ?_) fun _ =>
        ⟨{ d with tail := d.tail.close (!op.isUnconditional) }, ?_, rfl⟩
      · grind [Method.HasEdge]
      · rw [Operation.isTerminator, Opcode.isTerminator_of_canThrow hthrow] at hop
        cases hop
      · grind [builder?_withBuilder, Method.builder?, Method.withBlock]
    · exact .refl hz fun _ h => h
  | @handle m loose risky risky' x y hx hy ht hr =>
    obtain ⟨old, hold, hops, hsuccs, hhandlers, -⟩ := of_block?_withHandler hz
    refine .linked hold hops (fun w hw => hsuccs ▸ hw) (fun w hw => (hhandlers w).2 (.inl hw))
      (fun w hw => ?_) fun hrisk => ?_
    · grind [exists_block?, size_withHandler, of_block?_withHandler, Block.allSuccs]
    · rcases hr z hrisk with rfl | hr
      · exact .inr (ne_nil_of_mem ((hhandlers y).2 (.inr ⟨rfl, rfl⟩)))
      · exact .inl hr

include h in
theorem Step.changesBuilder {e : Builder} (hc : t.method.builder? c = some e) :
    BuilderChange l s t c e := by
  cases h with
  | @quiet m m' loose risky h =>
    exact .same ((congrArg (get? · c) h.builders).symm.trans hc) rfl rfl
  | flag | newBlock | edge | push | handle => exact .same hc rfl rfl
  | tag b f hf =>
    rcases of_builder?_withBuilder hc with ⟨rfl, d, hd, rfl⟩ | ⟨-, hc⟩
    · obtain ⟨hsame, -⟩ := hf d hd
      exact .same hd hsame.sequence hsame.tail
    · exact .same hc rfl rfl
  | @newBuilder m loose risky r =>
    rw [builder?_addBuilder] at hc
    split at hc
    · next hnew =>
      cases hc
      refine .fresh (x := m.graph.blocks.size)
        (get?_eq_none.2 (le_of_eq hnew.symm)) ?_ ?_ rfl rfl (get?_eq_none.2 le_rfl)
      · show (m.addBuilder r).block? _ = _
        rw [block?_addBuilder, if_pos (.inl rfl)]
      · show (m.addBuilder r).block? _ = _
        rw [block?_addBuilder, if_pos (.inr rfl)]
    · exact .same hc rfl rfl
  | place x hb hx he =>
    rcases of_builder?_withBuilder hc with ⟨rfl, d, hd, rfl⟩ | ⟨-, hc⟩
    · cases hb.symm.trans hd
      exact .placed hb hx rfl rfl he
    · exact .same hc rfl rfl
  | @nest m loose risky b k d f hb hk hne hroot hfree he =>
    rcases of_builder?_withBuilder hc with ⟨rfl, d', hd', rfl⟩ | ⟨-, hc⟩
    · rcases of_builder?_withBuilder hd' with ⟨rfl, -⟩ | ⟨-, hd'⟩
      · exact absurd rfl hne
      · cases hb.symm.trans hd'
        exact .nested hb hk rfl rfl he
    · rcases of_builder?_withBuilder hc with ⟨rfl, f', hf', rfl⟩ | ⟨-, hc⟩
      · exact .same hf' rfl rfl
      · exact .same hc rfl rfl
  | @close m loose risky b d x op hb hx hop he =>
    rcases of_builder?_withBuilder hc with ⟨rfl, d', hd', rfl⟩ | ⟨-, hc⟩
    · cases hb.symm.trans hd'
      have htail : d.tail.close (!op.isUnconditional) =
          if op.isUnconditional then .closed else .owed x := by
        rw [hx]
        cases op.isUnconditional <;> rfl
      refine .closed hb rfl hx htail fun blk hblk => ?_
      rcases of_block?_withBlock (m := m) hblk with ⟨-, old, -, rfl⟩ | ⟨hne, -⟩
      · exact ⟨old, rfl⟩
      · exact absurd rfl hne
    · exact .same hc rfl rfl
  | @split m loose risky b d x hb hx =>
    rcases of_builder?_withBuilder hc with ⟨rfl, d', hd', rfl⟩ | ⟨-, hc⟩
    · cases hb.symm.trans hd'
      exact .split hb rfl hx rfl
    · exact .same hc rfl rfl
  | forget hl =>
    rcases of_builder?_withBuilder hc with ⟨rfl, d, hd, rfl⟩ | ⟨-, hc⟩
    · exact .forgot hl hd rfl rfl
    · exact .same hc rfl rfl

/-! ## Blocks that take operations -/

/-- The operations of a block. -/
def Method.ops (m : Method) (x : BlockId) : List Operation :=
  ((m.block? x).map (·.operations)).getD []

theorem Method.ops_of_block? (h : m.block? x = some blk) : m.ops x = blk.operations := by
  unfold ops
  rw [h]
  rfl

/-- The block that takes operations is the last entry of its builder's sequence.  Blocks that have
    no place yet have none, and neither have exits. -/
structure Draft.Bare (s : Draft) : Prop where
  fronted : ∀ {b d x}, s.method.builder? b = some d → d.tail = .current x →
    d.sequence.getLast? = some (.block x)
  fresh : ∀ {x}, x ∈ s.loose → s.method.ops x = []
  exits : ∀ {b d}, s.method.builder? b = some d → s.method.ops d.exit = []

include h in
/-- What takes operations after a step did so before, or it is new or got its place. -/
theorem Step.current {e : Builder} (he : t.method.builder? b = some e) (hx : e.tail = .current x) :
    e.sequence.getLast? = some (.block x) ∧ (s.method.block? x = none ∨ x ∈ s.loose) ∨
      ∃ d, s.method.builder? b = some d ∧ e.sequence = d.sequence ∧ d.tail = .current x := by
  cases h.changesBuilder he with
  | fresh _ _ _ hseq htail hnew =>
    cases htail.symm.trans hx
    exact .inl ⟨by rw [hseq]; rfl, .inl hnew⟩
  | same hd hseq htail => exact .inr ⟨_, hd, hseq, htail.symm.trans hx⟩
  | placed _ hloose hseq htail =>
    cases htail.symm.trans hx
    exact .inl ⟨by rw [hseq, getLast?_concat], .inr hloose⟩
  | nested _ _ _ htail | split _ _ _ htail | forgot _ _ _ htail => cases htail.symm.trans hx
  | closed _ _ _ htail =>
    rw [htail] at hx
    split at hx <;> cases hx

include h in
/-- A block that takes no operations keeps those it has. -/
theorem Step.ops (hx : x < s.method.graph.blocks.size)
    (hshut : ∀ {b d}, s.method.builder? b = some d → d.tail ≠ .current x) :
    t.method.ops x = s.method.ops x := by
  obtain ⟨old, hold⟩ := exists_block? hx
  obtain ⟨blk, hblk, -⟩ := h.below.blocks x old hold
  rw [ops_of_block? hblk, ops_of_block? hold]
  cases h.changesBlock hblk with
  | fresh hnone => cases hold.symm.trans hnone
  | linked hx hops =>
    cases hold.symm.trans hx
    exact hops
  | pushed _ _ hd htail => exact absurd htail (hshut hd)

include h in
/-- What is loose and was there before was loose before. -/
theorem Step.loose_of_old (hx : x ∈ t.loose) (hold : s.method.block? x = some blk)
    : x ∈ s.loose := by
  cases h with
  | place => exact mem_of_mem_erase hx
  | newBlock =>
    rcases mem_cons.1 hx with rfl | hx
    · exact absurd (lt_of_block? hold) (lt_irrefl _)
    · exact hx
  | quiet | flag | tag | newBuilder | edge | nest | push | close | handle | split | forget =>
    exact hx

/-- A block of a sequence is the exit of no builder. -/
theorem Forest.exit_ne {P : BuilderId → Option Builder} {n : Nat} {loose : List BlockId}
    (hf : Forest P n loose) {e : Builder} (hd : P b = some d) (hx : .block x ∈ d.sequence)
    (he : P c = some e) : e.exit ≠ x := by
  rintro rfl
  have hhere := mem_blocksHere.2 hx
  obtain rfl := hf.owner hd he (mem_cons_of_mem _ hhere) mem_cons_self
  cases hd.symm.trans he
  exact (nodup_cons.1 (hf.nodup hd)).1 hhere

namespace Draft.Bare

theorem mem (h : s.Bare) (hd : s.method.builder? b = some d) (hx : d.tail = .current x) :
    .block x ∈ d.sequence := mem_of_getLast? (h.fronted hd hx)

theorem new (name : String) (config : Config) : Draft.Bare ⟨Method.new name config, [], []⟩ := by
  refine ⟨fun {b d x} hd hx => ?_, fun hx => absurd hx not_mem_nil, fun {b d} hd => ?_⟩
  · cases b with
    | zero =>
      cases hd
      cases hx
      rfl
    | succ b => cases hd
  · cases b with
    | zero =>
      cases hd
      rfl
    | succ b => cases hd

end Draft.Bare

include h in
theorem Step.bare (hf : s.IsForest) (hs : s.Bare) : t.Bare := by
  refine ⟨fun he hx => ?_, fun {x} hx => ?_, fun {b e} he => ?_⟩
  · obtain ⟨hlast, -⟩ | ⟨d, hd, hseq, hx⟩ := h.current he hx
    · exact hlast
    · exact hseq ▸ hs.fronted hd hx
  · cases hblk : t.method.block? x with
    | none =>
      unfold Method.ops
      rw [hblk]
      rfl
    | some blk =>
      cases hold : s.method.block? x with
      | none =>
        cases h.changesBlock hblk with
        | fresh _ hempty => rw [ops_of_block? hblk, hempty]
        | linked hx | pushed hx => cases hold.symm.trans hx
      | some old =>
        have hloose := h.loose_of_old hx hold
        rw [h.ops (lt_of_block? hold) fun hd htail => ?_, hs.fresh hloose]
        have hmem := hs.mem hd htail
        exact hf.looseFree (plan?_of_builder? hd) (mem_cons_of_mem _ (mem_blocksHere.2 hmem)) hloose
  · cases hd : s.method.builder? b with
    | none =>
      cases h.changesBuilder he with
      | fresh _ _ hexit => exact ops_of_block? hexit
      | same hb | placed hb | nested hb | closed hb | split hb => cases hd.symm.trans hb
      | forgot _ hb => cases hd.symm.trans hb
    | some d =>
      obtain ⟨e', he', hde⟩ := h.below.builders b d hd
      cases he.symm.trans he'
      have hplan := plan?_of_builder? hd
      have hlt : d.exit < s.method.graph.blocks.size := hf.bound hplan mem_cons_self
      rw [hde.exit, h.ops hlt fun hc htail => ?_, hs.exits hd]
      have hmem := hs.mem hc htail
      exact hf.exit_ne (plan?_of_builder? hc) hmem hplan rfl

/-! ## Sequences -/

namespace Method

/-- Control falls from one block into another only along an edge. -/
def Falls (m : Method) (x y : BlockId) : Prop :=
  ∀ blk, m.block? x = some blk → blk.fallsThrough = true → y ∈ blk.succs

/-- The block that an entry of a sequence begins with. -/
def Begins (m : Method) : Entry → BlockId → Prop
  | .block x, y => x = y
  | .builder c, y => ∃ d, m.builder? c = some d ∧ d.entry = y

/-- The block that an entry of a sequence ends with. -/
def Ends (m : Method) : Entry → BlockId → Prop
  | .block x, y => x = y
  | .builder c, y => ∃ d, m.builder? c = some d ∧ d.exit = y

/-- Control falls from the end of one entry into the beginning of another only along an edge. -/
def Leads (m : Method) (e e' : Entry) : Prop := ∀ x y, m.Ends e x → m.Begins e' y → m.Falls x y

/-- A tail says what there is behind the last entry of a sequence. -/
def Closes (m : Method) : Tail → Entry → Prop
  | .current x, e => e = .block x ∧ ∀ blk, m.block? x = some blk → blk.IsOpen
  | .owed x, e => m.Ends e x
  | .closed, e => ∀ x blk, m.Ends e x → m.block? x = some blk → blk.fallsThrough = false

theorem Closes.ends {tail : Tail} (h : m.Closes tail e)
    (hx : tail.block? = some x) : m.Ends e x := by
  cases tail with
  | current y =>
    cases hx
    rw [h.1]
    rfl
  | owed y =>
    cases hx
    exact h
  | closed => cases hx

theorem Ends.unique (hx : m.Ends e x) (hy : m.Ends e y) : x = y := by
  cases e with
  | block z => exact hx.symm.trans hy
  | builder c => grind [Ends]

end Method

/-- An edge may lead here: the block has a place in a sequence or will have one, or it is the exit
    of the method. -/
def Draft.Lands (s : Draft) (x : BlockId) : Prop :=
  x ∈ s.loose ∨ (∃ b d, s.method.builder? b = some d ∧ .block x ∈ d.sequence) ∨ x = Graph.exit

/-- The blocks of a draft are wired up. -/
structure Draft.Wired (s : Draft) : Prop where
  early : ∀ {x blk}, s.method.block? x = some blk →
    ∀ op ∈ blk.operations.dropLast, op.isTerminator = false
  targets : ∀ {x blk}, s.method.block? x = some blk →
    ∀ op ∈ blk.operations, ∀ y ∈ op.targets, y ∈ blk.succs
  throws : ∀ {x blk}, s.method.block? x = some blk →
    ∀ op ∈ blk.operations, op.opcode.canThrow = true → blk.handlers ≠ [] ∨ x ∈ s.risky
  lands : ∀ {x blk}, s.method.block? x = some blk → ∀ y ∈ blk.allSuccs, s.Lands y
  recorded : ∀ {x blk}, s.method.block? x = some blk →
    ∀ y ∈ blk.allSuccs, ∃ c, s.method.block? y = some c ∧ x ∈ c.preds
  exits : ∀ {b d blk}, s.method.builder? b = some d → s.method.block? d.exit = some blk →
    blk.operations = []
  chain : ∀ {b d}, s.method.builder? b = some d → d.sequence.IsChain s.method.Leads
  last : ∀ {b d}, s.method.builder? b = some d →
    ∃ e, d.sequence.getLast? = some e ∧ s.method.Closes d.tail e

theorem Method.eq_empty_of_new {name : String} {config : Config}
    (h : (Method.new name config).block? x = some blk) : blk = {} := by
  match x, h with
  | 0, h => exact (Option.some.inj h).symm
  | 1, h => exact (Option.some.inj h).symm

namespace Draft.Wired

/-- The block that takes operations has a place and no transfer. -/
theorem current (h : s.Wired) (hb : s.method.builder? b = some d) (hx : d.tail = .current x) :
    .block x ∈ d.sequence ∧ ∀ blk, s.method.block? x = some blk → blk.IsOpen := by
  obtain ⟨e, he, hend⟩ := h.last hb
  rw [hx] at hend
  obtain ⟨rfl, hopen⟩ := hend
  exact ⟨mem_of_getLast? he, hopen⟩

theorem new (name : String) (config : Config) :
    Draft.Wired ⟨Method.new name config, [], []⟩ := by
  have hblock : ∀ {x blk}, (Method.new name config).block? x = some blk → blk = {} :=
    eq_empty_of_new
  have hbuilder : ∀ {b d}, (Method.new name config).builder? b = some d →
      d = .new Graph.entry Graph.exit := by
    intro b d hb
    match b, hb with
    | 0, hb => exact (Option.some.inj hb).symm
  refine ⟨fun hx => ?_, fun hx => ?_, fun hx => ?_, fun hx => ?_, fun hx => ?_, fun _ hx => ?_,
    fun hb => ?_, fun hb => ?_⟩
  · rw [hblock hx]
    exact fun _ h => absurd h not_mem_nil
  · rw [hblock hx]
    exact fun _ h => absurd h not_mem_nil
  · rw [hblock hx]
    exact fun _ h => absurd h not_mem_nil
  · rw [hblock hx]
    exact fun _ h => absurd h not_mem_nil
  · rw [hblock hx]
    exact fun _ h => absurd h not_mem_nil
  · rw [hblock hx]
  · rw [hbuilder hb]
    exact .singleton _
  · rw [hbuilder hb]
    refine ⟨.block Graph.entry, rfl, rfl, fun blk hx => ?_⟩
    rw [hblock hx]
    exact isOpen_of_empty rfl

end Draft.Wired

/-! ## A step keeps it -/

theorem Draft.IsTarget.lands (hf : s.IsForest) (h : s.IsTarget x) : s.Lands x := by
  rcases h with h | ⟨b, d, hd, rfl⟩ | h
  · exact .inl h
  · obtain ⟨rest, hseq⟩ := hf.opens (plan?_of_builder? hd)
    have hmem : Entry.block d.entry ∈ d.sequence := by grind [Builder.plan]
    exact .inr (.inl ⟨b, d, hd, hmem⟩)
  · exact .inr (.inr h)

include h in
/-- What was loose stays so or gets a place. -/
theorem Step.loose (hx : x ∈ s.loose) :
    x ∈ t.loose ∨ ∃ b d, t.method.builder? b = some d ∧ .block x ∈ d.sequence := by
  cases h with
  | @place m loose risky b d y hb hy he =>
    by_cases hxy : x = y
    · subst hxy
      refine .inr ⟨b, d.extend (.block x) (.current x), ?_, ?_⟩
      · grind [builder?_withBuilder]
      · exact mem_append_right _ mem_cons_self
    · exact .inl ((mem_erase_of_ne hxy).2 hx)
  | newBlock => exact .inl (mem_cons_of_mem _ hx)
  | quiet | flag | tag | newBuilder | edge | nest | push | close | handle | split | forget =>
    exact .inl hx

include h in
theorem Step.lands (hx : s.Lands x) : t.Lands x := by
  rcases hx with hx | ⟨b, d, hd, hx⟩ | hx
  · exact (h.loose hx).imp id .inl
  · obtain ⟨e, he, hde⟩ := h.below.builders b d hd
    exact .inr (.inl ⟨b, e, he, hde.sequence.subset hx⟩)
  · exact .inr (.inr hx)

include h in
/-- Falling through stays a matter of edges. -/
theorem Step.falls (hs : s.Wired) (hx : ∃ blk, s.method.block? x = some blk)
    (hfall : s.method.Falls x y) : t.method.Falls x y := by
  intro blk hblk hthrough
  obtain ⟨old, hold⟩ := hx
  cases h.changesBlock hblk with
  | fresh hnone => cases hold.symm.trans hnone
  | linked hx hops hsuccs =>
    rw [fallsThrough_congr hops] at hthrough
    exact hsuccs y (hfall _ hx hthrough)
  | @pushed old _ _ _ hx hblk hd htail =>
    have hsucc : y ∈ old.succs := hfall old hx ((hs.current hd htail).2 old hx).fallsThrough
    rw [hblk]
    exact hsucc

variable (h : Step l s t) (he : ∀ c, e = .builder c → ∃ d, s.method.builder? c = some d)

include h he in
theorem Step.begins (hx : t.method.Begins e x) : s.method.Begins e x := by
  cases e with
  | block y => exact hx
  | builder c =>
    obtain ⟨d, hd⟩ := he c rfl
    obtain ⟨d', hd', rfl⟩ := hx
    obtain ⟨e, he, hde⟩ := h.below.builders c d hd
    cases hd'.symm.trans he
    exact ⟨d, hd, hde.entry.symm⟩

include h he in
theorem Step.ends : t.method.Ends e x ↔ s.method.Ends e x := by
  cases e with
  | block y => exact Iff.rfl
  | builder c =>
    obtain ⟨d, hd⟩ := he c rfl
    obtain ⟨e, he, hde⟩ := h.below.builders c d hd
    constructor
    · grind [Method.Ends, hde.exit.symm]
    · rintro ⟨d', hd', rfl⟩
      cases hd.symm.trans hd'
      exact ⟨e, he, hde.exit⟩

/-- The builders in a sequence are there, and so are the blocks that its entries end with. -/
theorem Draft.IsForest.entries (hf : s.IsForest)
    (hb : s.method.builder? b = some d) (he : e ∈ d.sequence) :
    (∀ c, e = .builder c → ∃ f, s.method.builder? c = some f) ∧
      ∀ x, s.method.Ends e x → ∃ blk, s.method.block? x = some blk := by
  have hplan := plan?_of_builder? hb
  have hchild : ∀ c, e = .builder c → ∃ f, s.method.builder? c = some f := by
    rintro c rfl
    obtain ⟨-, f, hf', -⟩ := hf.child hplan (mem_children.2 he)
    obtain ⟨f', hf', -⟩ := builder?_of_plan? hf'
    exact ⟨f', hf'⟩
  refine ⟨hchild, fun x hx => exists_block? ?_⟩
  cases e with
  | block y =>
    cases hx
    exact hf.bound hplan (mem_cons_of_mem _ (mem_blocksHere.2 he))
  | builder c =>
    obtain ⟨f, hf', rfl⟩ := hx
    exact hf.bound (plan?_of_builder? hf') mem_cons_self

include h in
theorem Step.leads (hf : s.IsForest) (hs : s.Wired) (hb : s.method.builder? b = some d)
    (he : e ∈ d.sequence) (he' : ∀ c, e' = .builder c → ∃ f, s.method.builder? c = some f)
    (hlead : s.method.Leads e e') : t.method.Leads e e' := by
  grind [Method.Leads, hf.entries, h.ends, h.falls, h.begins]

/-- Control falls from the end of a sequence only along the edge that its tail asks for. -/
theorem Draft.Wired.leads_last (hs : s.Wired)
    (hb : s.method.builder? b = some d) (he : d.sequence.getLast? = some e)
    (hedge : ∀ x y, d.tail.block? = some x → s.method.Begins e' y → s.method.HasEdge x y) :
    s.method.Leads e e' := by
  obtain ⟨e1, he1, hend⟩ := hs.last hb
  cases he.symm.trans he1
  intro x y hx hy blk hblk hthrough
  cases htail : d.tail.block? with
  | some z =>
    have hz : z = x := (hend.ends htail).unique hx
    subst hz
    obtain ⟨blk', hblk', hsucc⟩ := hedge z y htail hy
    cases hblk.symm.trans hblk'
    exact hsucc
  | none =>
    cases htail' : d.tail with
    | current z | owed z =>
      rw [htail'] at htail
      cases htail
    | closed =>
      rw [htail'] at hend
      rw [hend x blk hx hblk] at hthrough
      cases hthrough

variable (hl : l.forgets = false) (h : Step l s t) (hf : s.IsForest)

include hl h hf in
theorem Step.chain (hs : s.Wired) {e : Builder} (hb : t.method.builder? b = some e)
    : e.sequence.IsChain t.method.Leads := by
  -- what was a chain is one
  have hkeep : ∀ {d}, s.method.builder? b = some d → d.sequence.IsChain t.method.Leads :=
    fun hd => (hs.chain hd).imp_of_mem_imp fun e1 e2 h1 h2 =>
      h.leads hf hs hd h1 (hf.entries hd h2).1
  -- and one more entry may follow
  have hmore : ∀ {d e'}, s.method.builder? b = some d →
      (∀ c, e' = .builder c → ∃ f, s.method.builder? c = some f) →
      (∀ x y, d.tail.block? = some x → s.method.Begins e' y → s.method.HasEdge x y) →
      (d.sequence ++ [e']).IsChain t.method.Leads := by
    intro d e' hd hthere hedge
    refine (hkeep hd).append (.singleton _) fun e1 h1 e2 h2 => ?_
    cases h2
    exact h.leads hf hs hd (mem_of_getLast? h1) hthere (hs.leads_last hd h1 hedge)
  cases h.changesBuilder hb with
  | fresh _ _ _ hseq =>
    rw [hseq]
    exact .singleton _
  | same hd hseq => exact hseq ▸ hkeep hd
  | placed hd _ hseq _ hedge => grind [Method.Begins]
  | nested hd hc hseq _ hedge => grind [Method.Begins]
  | closed hd hseq => exact hseq ▸ hkeep hd
  | split hd hseq => exact hseq ▸ hkeep hd
  | forgot hforgot =>
    rw [hl] at hforgot
    cases hforgot

include h in
/-- The end of a sequence stays what its tail says, while the tail stays. -/
theorem Step.closes (hf : s.IsForest) (hs : s.Wired) {e' : Builder}
    (hb : s.method.builder? b = some d) (hb' : t.method.builder? b = some e')
    (htail : e'.tail = d.tail) (he : e ∈ d.sequence) (hend : s.method.Closes d.tail e)
    : t.method.Closes d.tail e := by
  obtain ⟨hthere, -⟩ := hf.entries hb he
  cases hcase : d.tail with
  | current x =>
    rw [hcase] at hend
    obtain ⟨rfl, hopen⟩ := hend
    refine ⟨rfl, fun blk hblk => ?_⟩
    cases h.changesBlock hblk with
    | fresh _ hblk =>
      rw [hblk]
      exact isOpen_of_empty rfl
    | linked hx hops =>
      unfold Block.IsOpen
      rw [hops]
      exact hopen _ hx
    | @pushed old b1 d1 op hx hblk hd1 htail1 _ _ _ hclose =>
      rw [hblk]
      refine (hopen _ hx).push ?_
      cases hop : op.isTerminator with
      | false => rfl
      | true =>
        -- the block takes operations in one builder only, which the transfer has closed
        have hmem := (hs.current hd1 htail1).1
        have hsame : b1 = b := hf.owner (plan?_of_builder? hd1) (plan?_of_builder? hb)
          (mem_cons_of_mem _ (mem_blocksHere.2 hmem))
          (mem_cons_of_mem _ (mem_blocksHere.2 he))
        subst hsame
        obtain ⟨e1, he1, htail2⟩ := hclose hop
        cases hb'.symm.trans he1
        rw [htail, hcase] at htail2
        rw [hb] at hd1
        cases hd1
        rw [hcase] at htail2
        cases hu : op.isUnconditional with
        | true =>
          rw [hu] at htail2
          cases htail2
        | false =>
          rw [hu] at htail2
          cases htail2
  | owed x =>
    rw [hcase] at hend
    exact (h.ends hthere).2 hend
  | closed =>
    rw [hcase] at hend
    intro x blk hx hblk
    have hx' := (h.ends hthere).1 hx
    cases h.changesBlock hblk with
    | fresh hnone =>
      obtain ⟨old, hold⟩ := (hf.entries hb he).2 x hx'
      cases hold.symm.trans hnone
    | linked hold hops =>
      rw [fallsThrough_congr hops]
      exact hend x _ hx' hold
    | pushed hold hblk hd1 htail1 =>
      -- a block that takes operations falls through
      have hthrough := ((hs.current hd1 htail1).2 _ hold).fallsThrough
      rw [hend x _ hx' hold] at hthrough
      cases hthrough

include hl h hf in
theorem Step.last (hbare : s.Bare) (hs : s.Wired) {e : Builder} (hb : t.method.builder? b = some e)
    :
    ∃ e1, e.sequence.getLast? = some e1 ∧ t.method.Closes e.tail e1 := by
  cases h.changesBuilder hb with
  | fresh _ hx _ hseq htail =>
    rw [hseq, htail]
    refine ⟨_, rfl, rfl, fun blk hblk => ?_⟩
    cases hx.symm.trans hblk
    exact isOpen_of_empty rfl
  | same hd hseq htail => grind [hs.last, h.closes]
  | placed hd hx hseq htail =>
    rw [hseq, htail]
    refine ⟨_, getLast?_concat, rfl, fun blk hblk => ?_⟩
    cases h.changesBlock hblk with
    | fresh _ hblk =>
      rw [hblk]
      exact isOpen_of_empty rfl
    | linked hold hops =>
      exact isOpen_of_empty (hops.trans ((ops_of_block? hold).symm.trans (hbare.fresh hx)))
    | pushed _ _ hd1 htail1 =>
      -- what takes operations has a place, and what is loose has none
      have hmem := hbare.mem hd1 htail1
      exact absurd hx (hf.looseFree (plan?_of_builder? hd1)
        (mem_cons_of_mem _ (mem_blocksHere.2 hmem)))
  | @nested d f c hd hc hseq htail =>
    rw [hseq, htail]
    obtain ⟨f', hf', hff'⟩ := h.below.builders c f hc
    exact ⟨_, getLast?_concat, f', hf', hff'.exit⟩
  | @closed d x op hd hseq hcur htail hpush =>
    obtain ⟨e1, he1, hend⟩ := hs.last hd
    rw [hcur] at hend
    obtain ⟨rfl, -⟩ := hend
    rw [hseq, htail]
    refine ⟨_, he1, ?_⟩
    cases hu : op.isUnconditional with
    | true =>
      rintro y blk rfl hblk
      obtain ⟨old, rfl⟩ := hpush blk hblk
      rw [fallsThrough_push, hu]
      rfl
    | false => exact rfl
  | split hd hseq hcur htail =>
    obtain ⟨e1, he1, hend⟩ := hs.last hd
    rw [hcur] at hend
    obtain ⟨rfl, -⟩ := hend
    rw [hseq, htail]
    exact ⟨_, he1, rfl⟩
  | forgot hforgot =>
    rw [hl] at hforgot
    cases hforgot

include h in
/-- Edges are recorded at both ends. -/
theorem Step.recorded (hs : ∀ {x blk}, s.method.block? x = some blk →
      ∀ y ∈ blk.allSuccs, ∃ c, s.method.block? y = some c ∧ x ∈ c.preds)
    (hblk : t.method.block? x = some blk) :
    ∀ y ∈ blk.allSuccs, ∃ c, t.method.block? y = some c ∧ x ∈ c.preds := by
  intro y hy
  have hold : ∀ {old}, s.method.block? x = some old → y ∈ old.allSuccs →
      ∃ c, t.method.block? y = some c ∧ x ∈ c.preds := by
    intro old hx hy
    obtain ⟨c, hc, hpred⟩ := hs hx y hy
    obtain ⟨c', hc', hcc'⟩ := h.below.blocks y c hc
    exact ⟨c', hc', hcc'.preds x hpred⟩
  cases h.changesBlock hblk with
  | fresh _ hblk =>
    rw [hblk] at hy
    exact absurd hy not_mem_nil
  | linked hx _ _ _ htargets =>
    rcases htargets y hy with hy | ⟨-, hy⟩
    · exact hold hx hy
    · exact hy
  | pushed hx hblk =>
    rw [hblk] at hy
    exact hold hx hy

include hl h hf in
theorem Step.wired (hbare : s.Bare) (hs : s.Wired) : t.Wired where
  early := by
    intro x blk hblk
    cases h.changesBlock hblk with
    | fresh _ hblk =>
      rw [hblk]
      exact fun _ hop => absurd hop not_mem_nil
    | linked hx hops =>
      rw [hops]
      exact hs.early hx
    | pushed hx hblk hd htail =>
      rw [hblk]
      intro op hop
      rw [Block.push, dropLast_concat] at hop
      exact (hs.current hd htail).2 _ hx op hop
  targets := by
    intro x blk hblk
    cases h.changesBlock hblk with
    | fresh _ hblk =>
      rw [hblk]
      exact fun _ hop => absurd hop not_mem_nil
    | linked hx hops hsuccs =>
      rw [hops]
      exact fun op hop y hy => hsuccs y (hs.targets hx op hop y hy)
    | pushed hx hblk _ _ htargets => grind [Block.push, hs.targets]
  throws := by
    intro x blk hblk
    cases h.changesBlock hblk with
    | fresh _ hblk =>
      rw [hblk]
      exact fun _ hop => absurd hop not_mem_nil
    | linked hx hops _ hhandlers _ hrisky =>
      rw [hops]
      intro op hop hthrow
      rcases hs.throws hx op hop hthrow with hne | hr
      · obtain ⟨y, hy⟩ := exists_mem_of_ne_nil _ hne
        exact .inl (ne_nil_of_mem (hhandlers y hy))
      · exact (hrisky hr).symm
    | pushed hx hblk _ _ _ hrisky hthrow' => grind [Block.push, hs.throws]
  lands := by
    intro x blk hblk y hy
    cases h.changesBlock hblk with
    | fresh _ hblk =>
      rw [hblk] at hy
      exact absurd hy not_mem_nil
    | linked hx _ _ _ htargets =>
      rcases htargets y hy with hy | ⟨hy, -⟩
      · exact h.lands (hs.lands hx y hy)
      · exact h.lands (hy.lands hf)
    | pushed hx hblk =>
      rw [hblk] at hy
      exact h.lands (hs.lands hx y hy)
  recorded := h.recorded hs.recorded
  exits hb hblk := (ops_of_block? hblk).symm.trans ((h.bare hf hbare).exits hb)
  chain := h.chain hl hf hs
  last := h.last hl hf hbare hs

theorem Builds.wired (hl : l.forgets = false) (h : Builds l s t) (hf : s.IsForest)
    (hbare : s.Bare) (hs : s.Wired) : t.Wired := by
  have hall : t.IsForest ∧ t.Bare ∧ t.Wired :=
    h.keeps (P := fun s => s.IsForest ∧ s.Bare ∧ s.Wired) (fun _ _ hst hs =>
      ⟨hst.forest hs.1, hst.bare hs.1 hs.2.1, hst.wired hl hs.1 hs.2.1 hs.2.2⟩) ⟨hf, hbare, hs⟩
  exact hall.2.2

end MethodGraph
