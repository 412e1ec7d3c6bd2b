import MethodGraph.Proofs.Exploring
import MethodGraph.Proofs.Layout
/-!
  Connecting keeps the wiring in order.

  Connecting adds edges from the last blocks of builders to their exits, and transfers from the
  exits of builders that nothing contains to the exit of the method.  Where it adds no edge, either
  the last block does not fall through, or control does not get to it (`Outcome`).  The second is
  found at a time when further edges are still to come.  The crux is that these lead to exits of
  builders connected later, which are no blocks of the builder in question, so that control gets no
  further in it than before (`Graph.Entered.mono`).

  `Bridged` collects what connecting keeps.
-/

namespace MethodGraph

open Method List Graph Block

variable {w x y z : BlockId} {d : Builder} {c : BuilderId} {e : Entry} {members xs : List BlockId}

variable {m m' : Method} {P : BuilderId → Option Builder} {n : Nat} {loose : List BlockId}
  {b : BuilderId}

namespace Method

/-! ## Edges -/

theorem mem_succsOf_withEdge : w ∈ (m.withEdge x y).graph.succsOf z ↔
      w ∈ m.graph.succsOf z ∨ x = z ∧ w = y ∧ z < m.graph.blocks.size := by
  refine mem_succsOf_modify (fun blk z => ?_) fun _ => rfl
  simp [allSuccs, addSucc, mem_addNew, or_right_comm]

theorem mem_predsOf_withEdge : w ∈ (m.withEdge x y).graph.predsOf z ↔
      w ∈ m.graph.predsOf z ∨ y = z ∧ w = x ∧ z < m.graph.blocks.size :=
  mem_predsOf_modify (fun _ => rfl) fun _ _ => mem_addNew

@[simp] theorem succsOf_push (x : BlockId) (op : Operation) (z : BlockId) :
    (m.withBlock x (·.push op)).graph.succsOf z = m.graph.succsOf z := by
  refine (succsOf_modifyBlock ..).trans (ite_eq_right_iff.2 fun _ => ?_)
  unfold succsOf
  cases m.graph.block? z <;> rfl

@[simp] theorem predsOf_push (x : BlockId) (op : Operation) (z : BlockId) :
    (m.withBlock x (·.push op)).graph.predsOf z = m.graph.predsOf z := by
  refine (predsOf_modifyBlock ..).trans (ite_eq_right_iff.2 fun _ => ?_)
  unfold predsOf
  cases m.graph.block? z <;> rfl

theorem mem_succsOf_leaving : w ∈ (m.leaving x).graph.succsOf z ↔
      w ∈ m.graph.succsOf z ∨ x = z ∧ w = Graph.exit ∧ z < m.graph.blocks.size := by
  unfold leaving
  rw [mem_succsOf_withEdge, succsOf_push, size_withBlock]

theorem mem_predsOf_leaving : w ∈ (m.leaving x).graph.predsOf z ↔
      w ∈ m.graph.predsOf z ∨ Graph.exit = z ∧ w = x ∧ z < m.graph.blocks.size := by
  unfold leaving
  rw [mem_predsOf_withEdge, predsOf_push, size_withBlock]

/-- Edges are recorded at both ends. -/
def Recorded (m : Method) : Prop := ∀ x y, y ∈ m.graph.succsOf x → x ∈ m.graph.predsOf y

theorem Recorded.withEdge (h : m.Recorded) (hy : y < m.graph.blocks.size) :
    (m.withEdge x y).Recorded := by grind [mem_succsOf_withEdge, mem_predsOf_withEdge, Recorded]

theorem Recorded.leaving (h : m.Recorded)
    (hexit : Graph.exit < m.graph.blocks.size) : (m.leaving x).Recorded := by
  refine Recorded.withEdge (fun z w hw => ?_) (by rwa [size_withBlock])
  rw [predsOf_push]
  exact h z w (by rwa [succsOf_push] at hw)

/-- An edge to a block outside makes no difference within a part of the graph. -/
theorem entered_withEdge {start : BlockId} (hy : y ∉ members) :
    Graph.Entered (m.withEdge x y).graph members start z ↔
      Graph.Entered m.graph members start z := by
  constructor
  · refine .mono (fun a c hc hac => ?_) fun c hc a hac => ?_
    · grind [mem_succsOf_withEdge]
    · grind [mem_predsOf_withEdge]
  · exact .mono (fun _ _ _ h => mem_succsOf_withEdge.2 (.inl h)) fun _ _ _ h =>
      mem_predsOf_withEdge.2 (.inl h)

theorem entered_leaving {start : BlockId} (hexit : Graph.exit ∉ members) :
    Graph.Entered (m.leaving x).graph members start z ↔ Graph.Entered m.graph members start z := by
  unfold leaving
  rw [entered_withEdge hexit]
  constructor
  · refine .mono (fun a c _ hac => ?_) fun c _ a hac => ?_
    · rwa [succsOf_push] at hac
    · rwa [predsOf_push] at hac
  · refine .mono (fun a c _ hac => ?_) fun c _ a hac => ?_
    · rwa [succsOf_push]
    · rwa [predsOf_push]

/-! ## Blocks -/

/-- A block after a block was sent to the exit of the method. -/
theorem of_block?_leaving {blk : Block} (h : (m.leaving x).block? z = some blk) :
    ∃ old, m.block? z = some old ∧ blk.handlers = old.handlers ∧
      (∀ w, w ∈ blk.succs ↔ w ∈ old.succs ∨ x = z ∧ w = Graph.exit) ∧
      (x = z ∧ blk.operations = old.operations ++ [{ opcode := .goto, targets := [Graph.exit] }] ∨
        x ≠ z ∧ blk.operations = old.operations) := by
  obtain ⟨mid, hmid, hops, hhandlers, hsuccs, -⟩ := of_block?_withEdge h
  rcases of_block?_withBlock hmid with ⟨rfl, old, hold, rfl⟩ | ⟨hne, hold⟩
  · exact ⟨old, hold, hhandlers, hsuccs, .inl ⟨rfl, hops⟩⟩
  · exact ⟨mid, hold, hhandlers, hsuccs, .inr ⟨hne, hops⟩⟩

/-- The operations of each block are as verification wants them. -/
structure Proper (m : Method) : Prop where
  early : ∀ {x blk}, m.block? x = some blk →
    ∀ op ∈ blk.operations.dropLast, op.isTerminator = false
  targets : ∀ {x blk}, m.block? x = some blk →
    ∀ op ∈ blk.operations, ∀ y ∈ op.targets, y ∈ blk.succs
  throws : ∀ {x blk}, m.block? x = some blk →
    ∀ op ∈ blk.operations, op.opcode.canThrow = true → blk.handlers ≠ []

theorem Proper.withEdge (h : m.Proper) (x y : BlockId) : (m.withEdge x y).Proper where
  early hz := by
    obtain ⟨old, hold, hops, -⟩ := of_block?_withEdge hz
    rw [hops]
    exact h.early hold
  targets hz op hop t ht := by grind [of_block?_withEdge, h.targets]
  throws hz op hop hthrow := by grind [of_block?_withEdge, h.throws]

theorem Proper.leaving (h : m.Proper)
    (hopen : ∀ blk, m.block? x = some blk → blk.IsOpen) : (m.leaving x).Proper where
  early hz := by grind [of_block?_leaving, Block.IsOpen, h.early]
  targets hz op hop t ht := by grind [of_block?_leaving, h.targets]
  throws hz op hop hthrow := by grind [of_block?_leaving, Opcode.canThrow, h.throws]

theorem block?_congr (h : m'.graph = m.graph) (x : BlockId) : m'.block? x = m.block? x := by
  unfold block?
  rw [h]

theorem Proper.congr (hm : m.Proper) (h : m'.graph = m.graph) : m'.Proper where
  early hx := hm.early ((block?_congr h _).symm.trans hx)
  targets hx := hm.targets ((block?_congr h _).symm.trans hx)
  throws hx := hm.throws ((block?_congr h _).symm.trans hx)

theorem Recorded.congr (hm : m.Recorded) (h : m'.graph = m.graph) : m'.Recorded := by
  unfold Recorded
  rw [h]
  exact hm

/-- Builders are the same up to what connecting finds out about them, and blocks have got edges or
    a transfer that never falls through. -/
structure Joins (m m' : Method) : Prop where
  alike : m.Alike m'
  blocks : ∀ {x blk}, m'.block? x = some blk → ∃ old, m.block? x = some old ∧
    (∀ y ∈ old.succs, y ∈ blk.succs) ∧
    (blk.operations = old.operations ∨ blk.fallsThrough = false)

namespace Joins

theorem refl (m : Method) : m.Joins m :=
  ⟨.refl m, fun {_ blk} h => ⟨blk, h, fun _ h => h, .inl rfl⟩⟩

theorem trans {m1 m2 m3 : Method} (h1 : m1.Joins m2) (h2 : m2.Joins m3) : m1.Joins m3 where
  alike := h1.alike.trans h2.alike
  blocks hx := by grind [fallsThrough_congr, h2.blocks, h1.blocks]

theorem withEdge (m : Method) (x y : BlockId) : m.Joins (m.withEdge x y) where
  alike := ⟨fun _ => rfl, rfl, rfl⟩
  blocks hz := by grind [of_block?_withEdge]

theorem leaving (m : Method) (x : BlockId) : m.Joins (m.leaving x) where
  alike := ⟨fun _ => rfl, rfl, rfl⟩
  blocks {z blk} hz := by
    obtain ⟨old, hold, -, hsuccs, hops⟩ := of_block?_leaving hz
    refine ⟨old, hold, fun w hw => (hsuccs w).2 (.inl hw), ?_⟩
    rcases hops with ⟨-, hops⟩ | ⟨-, hops⟩
    · have hpush : blk.fallsThrough =
          (old.push { opcode := .goto, targets := [exit] }).fallsThrough :=
        fallsThrough_congr hops
      rw [hpush, fallsThrough_push]
      exact .inr rfl
    · exact .inl hops

theorem congr {m'' : Method} (h : m.Joins m') (ha : m.Alike m'') (hg : m''.graph = m'.graph) :
    m.Joins m'' :=
  ⟨ha, fun hx => h.blocks ((block?_congr hg _).symm.trans hx)⟩

theorem falls (h : m.Joins m') (hfall : m.Falls x y) : m'.Falls x y := by
  grind [fallsThrough_congr, Falls, h.blocks]

end Joins

theorem Alike.ends (h : m.Alike m') (hx : m'.Ends e x) : m.Ends e x := by
  cases e with
  | block y => exact hx
  | builder c => grind [Builder.exit_eq_of_frame, Ends, h.symm.builder?]

theorem Alike.begins (h : m.Alike m') (hx : m'.Begins e x) : m.Begins e x := by
  cases e with
  | block y => exact hx
  | builder c => grind [Builder.entry_eq_of_frame, Begins, h.symm.builder?]

theorem Joins.leads (h : m.Joins m') {e' : Entry} (hlead : m.Leads e e') : m'.Leads e e' :=
  fun x y hx hy => h.falls (hlead x y (h.alike.ends hx) (h.alike.begins hy))

end Method

/-! ## What connecting keeps -/

/-- Control gets from the last block of a connected builder to its exit along an edge, or the last
    block does not fall through, or control does not get to it. -/
def Outcome (P : BuilderId → Option Builder) (m : Method) (b : BuilderId) : Prop :=
  ∀ d xs last, P b = some d → Writes P d.sequence xs → xs.getLast? = some last →
    ∃ e, m.builder? b = some e ∧
      (e.derived = some true ∧ m.HasEdge last d.exit ∨
        e.derived = some false ∧
          (e.fallsOut = false ∨ ¬ Graph.Entered m.graph xs d.entry last))

/-- The wiring while builders are connected: `m0` is the method before, the builders in `done` are
    connected, and those in `left` have been sent to the exit of the method. -/
structure Bridged (P : BuilderId → Option Builder) (m0 : Method) (done left : List BuilderId)
    (m : Method) : Prop where
  joined : Joined P m0 done m
  joins : m0.Joins m
  proper : m.Proper
  recorded : m.Recorded
  parts : ∀ b ∈ done, ∀ c, Holds P b c → c ∈ done
  lands : ∀ x y, y ∈ m.graph.succsOf x → Draft.Lands ⟨m0, [], []⟩ y ∨
    ∃ c ∈ done, ∃ e, m.builder? c = some e ∧ e.exit = y ∧ e.derived = some true
  outcome : ∀ b ∈ done, Outcome P m b
  sub : ∀ t ∈ left, t ∈ done
  unused : ∀ t d blk, P t = some d → t ∉ left → m.block? d.exit = some blk → blk.IsOpen
  sent : ∀ t ∈ left, ∀ e blk, m.builder? t = some e → e.derived = some true →
    m.block? e.exit = some blk → blk.fallsThrough = false

variable (hf : Forest P n loose) (hd : P b = some d) (hxs : Writes P d.sequence xs)

include hf hd hxs in
/-- The exit of a builder is written out only as a part of what contains the builder. -/
theorem Forest.holds_of_exit_mem {f : Builder} (hc : P c = some f) (hx : f.exit ∈ xs)
    : Relation.TransGen (Holds P) b c := by
  rcases writes_mem hd hxs hx with hx | ⟨k, e, hk, he, hxe⟩
  · have hsame : b = c := hf.owner hd hc (mem_cons_of_mem _ hx) mem_cons_self
    subst hsame
    cases hd.symm.trans hc
    exact absurd hx (nodup_cons.1 (hf.nodup hd)).1
  · rwa [← hf.owner he hc hxe mem_cons_self]

include hf hd hxs in
/-- The exit of the method is no part of what a builder is written out as. -/
theorem Forest.exit_not_written : Graph.exit ∉ xs := by
  obtain ⟨r, hr, -, hexit⟩ := hf.root
  intro hx
  rw [← hexit] at hx
  obtain ⟨a, -, e, he, hc⟩ := Relation.TransGen.tail'_iff.1 (hf.holds_of_exit_mem hd hxs hr hx)
  exact (hf.child he hc).1 rfl

namespace Bridged

variable {m0 : Method} {done left : List BuilderId} {d : Builder}

theorem start (hw : Draft.Wired ⟨m0, [], []⟩)
    (hplans : ∀ b d, P b = some d → ∃ e, m0.builder? b = some e ∧ e.exit = d.exit) :
    Bridged P m0 [] [] m0 where
  joined := .start P m0
  joins := .refl m0
  proper := ⟨hw.early, hw.targets, fun hx op hop hthrow =>
    (hw.throws hx op hop hthrow).resolve_right not_mem_nil⟩
  recorded x y hy := by
    obtain ⟨blk, hx, hy⟩ := mem_succsOf.1 hy
    exact mem_predsOf.2 (hw.recorded hx y hy)
  parts _ hb := absurd hb not_mem_nil
  lands x y hy := by
    obtain ⟨blk, hx, hy⟩ := mem_succsOf.1 hy
    exact .inl (hw.lands hx y hy)
  outcome _ hb := absurd hb not_mem_nil
  sub _ ht := absurd ht not_mem_nil
  unused t d blk hd _ hblk := by grind [isOpen_of_empty, hw.exits]
  sent _ ht := absurd ht not_mem_nil

/-- Whatever hangs from a connected builder is connected. -/
theorem mem_done (h : Bridged P m0 done left m) (hb : b ∈ done)
    (hbc : Relation.TransGen (Holds P) b c) : c ∈ done := by
  induction hbc with
  | single hbc => exact h.parts b hb _ hbc
  | tail _ hbc ih => exact h.parts _ ih _ hbc

end Bridged

theorem Outcome.mono (h : Outcome P m b) (hsame : m'.builder? b = m.builder? b)
    (hedge : ∀ {x y}, m.HasEdge x y → m'.HasEdge x y)
    (hnot : ∀ {d xs last}, P b = some d → Writes P d.sequence xs →
      ¬ Graph.Entered m.graph xs d.entry last → ¬ Graph.Entered m'.graph xs d.entry last) :
    Outcome P m' b := by grind [Outcome]

include hf hd hxs in
/-- Every sequence is written out as something, since it begins with a block. -/
theorem Forest.exists_last : ∃ last, xs.getLast? = some last := by
  obtain ⟨rest, hseq⟩ := hf.opens hd
  rw [hseq] at hxs
  cases hxs with
  | block _ h => exact ⟨_, getLast?_cons⟩

/-- One more builder is connected: `xs` is what its sequence comes to. -/
structure Joining (P : BuilderId → Option Builder) (b : BuilderId) (d : Builder)
    (xs : List BlockId) (last : BlockId) (m m' : Method) : Prop where
  writes : Writes P d.sequence xs
  ends : xs.getLast? = some last
  lt : last < m.graph.blocks.size
  exit_lt : d.exit < m.graph.blocks.size
  alike : m.Alike m'
  others : ∀ {c}, c ≠ b → m'.builder? c = m.builder? c
  self : ∃ e back, m'.builder? b = some e ∧ e.exit = d.exit ∧ e.derived = some back ∧
    (back = true ↔ e.fallsOut = true ∧ Graph.Entered m.graph xs d.entry last) ∧
    m'.graph = if back = true then (m.withEdge last d.exit).graph else m.graph

theorem Joined.joining {m0 : Method} {done : List BuilderId}
    (hf : Forest P m0.graph.blocks.size loose) (hplans : Plans P m0) (h : Joined P m0 done m)
    (hd : P b = some d) (hparts : ∀ c ∈ d.children, c ∈ done) (hnew : b ∉ done) :
    ∃ xs last m', (Emit.connectBuilder b).run m = .ok ((), m') ∧ Joined P m0 (done ++ [b]) m' ∧
      Joining P b d xs last m m' := by
  obtain ⟨e, xs, he, -, hexit, hentry, hxs, hrun, hjoined⟩ := h.step hf hplans hd hparts hnew
  obtain ⟨last, hlast⟩ := hf.exists_last hd hxs
  have hbound : ∀ x ∈ xs, x < m.graph.blocks.size := by
    intro x hx
    rw [h.size]
    rcases Forest.writes_mem hd hxs hx with hx | ⟨k, f, -, hk, hx⟩
    · exact hf.bound hd (mem_cons_of_mem _ hx)
    · exact hf.bound hk hx
  refine ⟨xs, last, _, hrun, hjoined, hxs, hlast, hbound last (mem_of_getLast? hlast), ?_,
    m.alike_joined b e xs, fun hne => builder?_joined_of_ne e xs (Ne.symm hne),
    _, m.comesBack e xs, builder?_joined_self e xs he, hexit, rfl, ?_, ?_⟩
  · rw [h.size]
    exact hf.bound hd mem_cons_self
  · unfold comesBack
    rw [Bool.and_eq_true, hentry, reachesLast_iff hlast hbound]
    rfl
  · show (m.joinExit e xs).graph = _
    unfold joinExit
    rw [hlast, ← hexit]
    dsimp only
    split <;> rfl

namespace Bridged

variable {m0 : Method} {done left : List BuilderId} {d : Builder}

/-- One more builder is connected: `e` is what it has become. -/
theorem insert (h : Bridged P m0 done left m) {e : Builder} (hjoined : Joined P m0 (done ++ [b]) m')
    (hjoins : m.Joins m') (hproper : m'.Proper) (hrecorded : m'.Recorded)
    (hparts : ∀ c, Holds P b c → c ∈ done) (hothers : ∀ c ∈ done, m'.builder? c = m.builder? c)
    (hb : m'.builder? b = some e)
    (hsuccs : ∀ x y, y ∈ m'.graph.succsOf x →
      y ∈ m.graph.succsOf x ∨ e.exit = y ∧ e.derived = some true)
    (hops : ∀ {x blk}, m'.block? x = some blk →
      ∃ old, m.block? x = some old ∧ blk.operations = old.operations)
    (hkept : ∀ c ∈ done, Outcome P m' c) (hnew : Outcome P m' b) :
    Bridged P m0 (done ++ [b]) left m' where
  joined := hjoined
  joins := h.joins.trans hjoins
  proper := hproper
  recorded := hrecorded
  parts a ha c hac := by grind [h.parts]
  lands x y hy := by grind [h.lands]
  outcome c hc := by grind
  sub t ht := mem_append_left _ (h.sub t ht)
  unused t d blk hd ht hblk := by
    have hunused := @h.unused
    grind [Block.IsOpen]
  sent t ht f blk hf hback hblk := by
    have hsent := @h.sent
    have hsub := @h.sub
    grind [fallsThrough_congr]

/-- Connecting one builder. -/
theorem step (hf : Forest P m0.graph.blocks.size loose) (hplans : Plans P m0)
    (h : Bridged P m0 done left m) (hd : P b = some d) (hparts : ∀ c ∈ d.children, c ∈ done)
    (hnew : b ∉ done) : ∃ m', (Emit.connectBuilder b).run m = .ok ((), m') ∧
      Bridged P m0 (done ++ [b]) left m' := by
  obtain ⟨xs, last, m', hrun, hjoined, hj⟩ := h.joined.joining hf hplans hd hparts hnew
  obtain ⟨e, back, he, hexit, hback, hiff, hg⟩ := hj.self
  refine ⟨m', hrun, ?_⟩
  have hother : ∀ c ∈ done, m'.builder? c = m.builder? c := fun c hc =>
    hj.others fun hcb => hnew (hcb ▸ hc)
  have hholds : ∀ c, Holds P b c → c ∈ done := by
    rintro c ⟨d', hd', hc⟩
    cases hd.symm.trans hd'
    exact hparts c hc
  cases back with
  | false =>
    -- there is no edge
    replace hg : m'.graph = m.graph := hg
    refine h.insert hjoined ((Method.Joins.refl m).congr hj.alike hg)
      (h.proper.congr hg) (h.recorded.congr hg) hholds hother he (fun x y hy => ?_)
      (fun hx => ⟨_, (block?_congr hg _).symm.trans hx, rfl⟩) (fun c hc => ?_) ?_
    · rw [hg] at hy
      exact .inl hy
    · refine (h.outcome c hc).mono (hother c hc) (fun hxy => ?_) fun _ _ hnot => ?_
      · obtain ⟨blk, hblk, hy⟩ := hxy
        exact ⟨blk, (block?_congr hg _).trans hblk, hy⟩
      · rwa [hg]
    · have hunique := @hj.writes.unique
      have hends := @hj.ends
      grind [Outcome]
  | true =>
    -- there is an edge to the exit
    replace hg : m'.graph = (m.withEdge last d.exit).graph := hg
    refine h.insert hjoined ((Method.Joins.withEdge m last d.exit).congr hj.alike hg)
      ((h.proper.withEdge last d.exit).congr hg) ((h.recorded.withEdge hj.exit_lt).congr hg) hholds
      hother he (fun x y hy => ?_) (fun hx => ?_) (fun c hc => ?_) ?_
    · grind [mem_succsOf_withEdge]
    · obtain ⟨old, hold, hops, -⟩ :=
        of_block?_withEdge ((block?_congr hg _).symm.trans hx)
      exact ⟨old, hold, hops⟩
    · refine (h.outcome c hc).mono (hother c hc) (fun hxy => ?_) fun hdc hxsc hnot => ?_
      · obtain ⟨blk, hblk, hy⟩ := hxy.withEdge last d.exit
        exact ⟨blk, (block?_congr hg _).trans hblk, hy⟩
      · grind [entered_withEdge, h.mem_done, hf.holds_of_exit_mem]
    · intro d' xs' last' hd' hxs' hlast'
      cases hd.symm.trans hd'
      cases hj.writes.unique hxs'
      cases hj.ends.symm.trans hlast'
      refine ⟨e, he, .inl ⟨hback, ?_⟩⟩
      obtain ⟨blk, hblk, hy⟩ := hasEdge_withEdge (y := d.exit) hj.lt
      exact ⟨blk, (block?_congr hg _).trans hblk, hy⟩

/-- Sending control from the exit of a builder to the exit of the method. -/
theorem leave (hf : Forest P m0.graph.blocks.size loose) (hplans : Plans P m0)
    (h : Bridged P m0 done left m) {t : BuilderId} {e : Builder} (hd : P t = some d)
    (hdone : t ∈ done) (hleft : t ∉ left) (he : m.builder? t = some e) :
    Bridged P m0 done (left ++ [t]) (m.sentOut e) := by
  have hexit : e.exit = d.exit := by
    obtain ⟨e', he', -, hexit, -⟩ := hplans.alike h.joined.alike t d hd
    cases he.symm.trans he'
    exact hexit
  have hsub : ∀ t' ∈ left ++ [t], t' ∈ done := by grind [h.sub]
  have hjoined := h.joined.leave e
  unfold sentOut at hjoined ⊢
  by_cases hback : e.derived = some true
  · rw [if_pos hback] at hjoined ⊢
    have hexit_lt : exit < m.graph.blocks.size := by
      rw [h.joined.size]
      exact hf.exit_lt
    have hopen : ∀ blk, m.block? e.exit = some blk → blk.IsOpen := by
      intro blk hblk
      exact h.unused t d blk hd hleft (hexit ▸ hblk)
    refine ⟨hjoined, h.joins.trans (.leaving m e.exit), h.proper.leaving hopen,
      h.recorded.leaving hexit_lt, h.parts, fun x y hy => ?_, fun c hc => ?_, hsub,
      fun t' d' blk hd' ht' hblk => ?_, fun t' ht' f blk hf' hback' hblk => ?_⟩
    · rcases mem_succsOf_leaving.1 hy with hy | ⟨-, hy, -⟩
      · exact h.lands x y hy
      · exact .inl (.inr (.inr hy))
    · refine (h.outcome c hc).mono rfl (fun hxy => ?_) fun hdc hxsc hnot =>
        mt (entered_leaving (hf.exit_not_written hdc hxsc)).1 hnot
      obtain ⟨old, hold, hy⟩ := hxy
      obtain ⟨blk, hblk⟩ := exists_block? (m := m.leaving e.exit) (by
        rw [hjoined.size, ← h.joined.size]
        exact lt_of_block? hold)
      obtain ⟨old', hold', -, hsuccs, -⟩ := of_block?_leaving hblk
      cases hold.symm.trans hold'
      exact ⟨blk, hblk, (hsuccs _).2 (.inl hy)⟩
    · -- another builder has another exit
      obtain ⟨old, hold, -, -, ⟨hx, -⟩ | ⟨-, hops⟩⟩ := of_block?_leaving hblk
      · have hsame : t = t' := hf.owner hd hd' mem_cons_self
          (by rw [← hexit, hx]; exact mem_cons_self)
        subst hsame
        exact absurd (mem_append_right _ mem_cons_self) ht'
      · grind [Block.IsOpen, h.unused]
    · obtain ⟨old, hold, -, hops⟩ := (Method.Joins.leaving m e.exit).blocks hblk
      rcases hops with hops | hops
      · rcases mem_append.1 ht' with ht' | ht'
        · rw [fallsThrough_congr hops]
          exact h.sent t' ht' f old hf' hback' hold
        · rw [mem_singleton.1 ht'] at hf'
          cases he.symm.trans hf'
          obtain ⟨old', hold', -, -, ⟨-, hops'⟩ | ⟨hne, -⟩⟩ := of_block?_leaving hblk
          · cases hold.symm.trans hold'
            rw [hops'] at hops
            exact absurd hops (by simp)
          · exact absurd rfl hne
      · exact hops
  · rw [if_neg hback] at hjoined ⊢
    refine ⟨hjoined, h.joins, h.proper, h.recorded, h.parts, h.lands, h.outcome, hsub,
      fun t' d' blk hd' ht' hblk => ?_, fun t' ht' f blk hf' hback' hblk => ?_⟩
    · exact h.unused t' d' blk hd' (fun hmem => ht' (mem_append_left _ hmem)) hblk
    · grind [h.sent]

end Bridged
end MethodGraph
