import MethodGraph.Proofs.Bridged
import MethodGraph.Proofs.Safety
/-!
  What connecting finds out about a builder stays true.

  Whether control reaches the end of a builder is found while builders are still being connected.
  The edges that come later lead to exits of builders connected later, or to the exit of the method.
  None of these is a block of the builder in question, so what was found is so in the graph that
  comes out (`Found`).

  No edge but the one that connecting adds leads to the exit of a builder besides the body.  The
  crux is that edges lead to targets only (`Step.mem_predsOf`), and an exit is never one
  (`Draft.IsForest.target_of_owned`).  So if control does not reach the end of a builder, nothing
  leads to its exit, and a run of a graph that passes verification does not get there.
-/

namespace MethodGraph

open Method List Graph

variable {x : BlockId} {d : Builder} {ε : Type}

variable {l : License} {m m' : Method} {s t : Draft} {P : BuilderId → Option Builder} {n : Nat}
  {loose : List BlockId} {b : BuilderId}

/-! ## Blocks that no edge leads to -/

/-- A step adds edges to targets only. -/
theorem Step.mem_predsOf (h : Step l s t) {z : BlockId} (hx : x ∈ t.method.graph.predsOf z) :
    x ∈ s.method.graph.predsOf z ∨ s.IsTarget z := by
  obtain ⟨blk, hz, hpred⟩ := Graph.mem_predsOf.1 hx
  clear hx
  have hold : ∀ {old}, s.method.block? z = some old → x ∈ old.preds →
      x ∈ s.method.graph.predsOf z ∨ s.IsTarget z :=
    fun hold hpred => .inl (Graph.mem_predsOf.2 ⟨_, hold, hpred⟩)
  cases h with
  | quiet h => exact hold ((congrArg (Arena.get? · z) h.blocks).symm.trans hz) hpred
  | tag | place | nest | split | forget => exact hold hz hpred
  | flag y f hf =>
    rcases Method.of_block?_withBlock hz with ⟨rfl, old, hz', rfl⟩ | ⟨-, hz'⟩
    · exact hold hz' ((hf old).preds ▸ hpred)
    · exact hold hz' hpred
  | push op | close op =>
    rcases Method.of_block?_withBlock hz with ⟨rfl, old, hz', rfl⟩ | ⟨-, hz'⟩
    · exact hold hz' hpred
    · exact hold hz' hpred
  | newBlock =>
    replace hz := (Method.block?_addBlock z).symm.trans hz
    split at hz
    · cases hz
      cases hpred
    · exact hold hz hpred
  | newBuilder r =>
    replace hz := (Method.block?_addBuilder r z).symm.trans hz
    split at hz
    · cases hz
      cases hpred
    · exact hold hz hpred
  | edge y w _ _ ht =>
    obtain ⟨old, hz', -, -, -, hpreds⟩ := Method.of_block?_withEdge hz
    rcases (hpreds x).1 hpred with hpred | ⟨rfl, -⟩
    · exact hold hz' hpred
    · exact .inr ht
  | handle y w _ _ ht =>
    obtain ⟨old, hz', -, -, -, hpreds⟩ := Method.of_block?_withHandler hz
    rcases (hpreds x).1 hpred with hpred | ⟨rfl, -⟩
    · exact hold hz' hpred
    · exact .inr ht

/-- Of the blocks of a builder only its entry is a target, and the exit of the method. -/
theorem Draft.IsForest.target_of_owned (hf : s.IsForest)
    (hd : s.method.builder? b = some d) (hx : x ∈ d.owned) (ht : s.IsTarget x) :
    x = d.entry ∨ b = Method.root ∧ x = Graph.exit := by
  have hplan := plan?_of_builder? hd
  rcases ht with ht | ⟨c, e, he, rfl⟩ | rfl
  · exact absurd ht (hf.looseFree hplan hx)
  · have hplan' := plan?_of_builder? he
    obtain rfl := hf.owner hplan hplan' hx (hf.opening_owned hplan').1
    cases hd.symm.trans he
    exact .inl rfl
  · obtain ⟨r, hr, -, hexit⟩ := hf.root
    exact .inr ⟨hf.owner hplan hr hx (hexit ▸ mem_cons_self), rfl⟩

/-- Edges are recorded at both ends, and none leads to the exit of a builder besides the body. -/
structure Draft.Linked (s : Draft) : Prop where
  recorded : ∀ {x blk}, s.method.block? x = some blk →
    ∀ y ∈ blk.allSuccs, ∃ c, s.method.block? y = some c ∧ x ∈ c.preds
  free : ∀ {b d x}, s.method.builder? b = some d → b ≠ Method.root →
    x ∉ s.method.graph.predsOf d.exit

theorem Draft.IsForest.exit_not_target (hf : s.IsForest)
    (hd : s.method.builder? b = some d) (hroot : b ≠ Method.root) : ¬ s.IsTarget d.exit := by
  intro ht
  rcases hf.target_of_owned hd mem_cons_self ht with heq | ⟨hb, -⟩
  · exact (hf.opening_owned (plan?_of_builder? hd)).2 heq
  · exact hroot hb

theorem Step.linked (h : Step l s t) (hf : s.IsForest) (hs : s.Linked) : t.Linked where
  recorded := h.recorded hs.recorded
  free {b e x} he hroot hx := by
    -- the exit of a builder that was there is no target, and that of a new one is new
    have hold : ∀ {d}, s.method.builder? b = some d → False := by
      intro d hd
      obtain ⟨e', he', hde⟩ := h.below.builders b d hd
      cases he.symm.trans he'
      rw [hde.exit] at hx
      exact (h.mem_predsOf hx).elim (hs.free hd hroot) (hf.exit_not_target hd hroot)
    cases h.changesBuilder he with
    | fresh _ _ hexit => grind [Graph.predsOf, Method.block?]
    | same hd | placed hd | nested hd | closed hd | split hd | forgot _ hd => exact hold hd

theorem Draft.Linked.new (name : String) (config : Config) :
    Draft.Linked ⟨Method.new name config, [], []⟩ := by
  refine ⟨fun hx y hy => ?_, fun _ _ hx => ?_⟩
  · rw [eq_empty_of_new hx] at hy
    cases hy
  · obtain ⟨blk, hblk, hx⟩ := mem_predsOf.1 hx
    rw [eq_empty_of_new hblk] at hx
    cases hx

theorem Builds.linked (h : Builds l s t) (hf : s.IsForest) (hs : s.Linked) : t.Linked :=
  (h.keeps (P := fun s => s.IsForest ∧ s.Linked)
    (fun _ _ hst hs => ⟨hst.forest hs.1, hst.linked hs.1 hs.2⟩) ⟨hf, hs⟩).2

theorem Method.Reachable.linked (h : m.Reachable) : Draft.Linked ⟨m, [], []⟩ := by
  obtain ⟨name, config, calls, h⟩ := h
  have hbuilds : Builds .full ⟨new name config, [], []⟩ ⟨m, [], []⟩ :=
    after_builds h rfl rfl (fun _ _ _ => rfl) fun _ _ _ => rfl
  exact hbuilds.linked (Draft.sound_new name config).forest (.new name config)

/-! ## What connecting finds out -/

/-- What was found about a connected builder is so: control reaches its end if the end is open and
    control gets to the last block, and then this is the only block that leads to its exit. -/
def Found (P : BuilderId → Option Builder) (m : Method) (b : BuilderId) : Prop :=
  ∀ d xs last, P b = some d → Writes P d.sequence xs → xs.getLast? = some last →
    ∃ e back, m.builder? b = some e ∧ e.derived = some back ∧
      (back = true ↔ e.fallsOut = true ∧ Graph.Entered m.graph xs d.entry last) ∧
      (b ≠ Method.root → ∀ x, x ∈ m.graph.predsOf d.exit ↔ back = true ∧ x = last)

theorem Found.mono (h : Found P m b) (hsame : m'.builder? b = m.builder? b)
    (hentered : ∀ {d xs last}, P b = some d → Writes P d.sequence xs →
      (Graph.Entered m'.graph xs d.entry last ↔ Graph.Entered m.graph xs d.entry last))
    (hpreds : ∀ {d}, P b = some d → b ≠ Method.root →
      ∀ x, x ∈ m'.graph.predsOf d.exit ↔ x ∈ m.graph.predsOf d.exit) : Found P m' b := by
  grind [Found]

/-- The findings while builders are connected: `m0` is the method before, and the builders in `done`
    are connected. -/
structure Weighed (P : BuilderId → Option Builder) (m0 : Method) (done : List BuilderId)
    (m : Method) : Prop where
  joined : Joined P m0 done m
  recorded : m.Recorded
  parts : ∀ b ∈ done, ∀ c, Holds P b c → c ∈ done
  free : ∀ {b d x}, P b = some d → b ∉ done → b ≠ Method.root → x ∉ m.graph.predsOf d.exit
  found : ∀ b ∈ done, Found P m b

namespace Weighed

variable {m0 : Method} {done : List BuilderId} {d : Builder}

theorem start {m1 : Method} (hs : Draft.Linked ⟨m1, [], []⟩) (hg : m0.graph = m1.graph) :
    Weighed m1.plan? m0 [] m0 where
  joined := .start _ m0
  recorded x y hy := by
    rw [hg] at hy ⊢
    obtain ⟨blk, hx, hy⟩ := mem_succsOf.1 hy
    exact mem_predsOf.2 (hs.recorded hx y hy)
  parts _ hb := absurd hb not_mem_nil
  free {b d x} hd _ hroot := by
    obtain ⟨e, he, rfl⟩ := builder?_of_plan? hd
    rw [hg]
    exact hs.free (d := e) he hroot
  found _ hb := absurd hb not_mem_nil

/-- Whatever hangs from a connected builder is connected. -/
theorem mem_done (h : Weighed P m0 done m) {c : BuilderId} (hb : b ∈ done)
    (hbc : Relation.TransGen (Holds P) b c) : c ∈ done := by
  induction hbc with
  | single hbc => exact h.parts b hb _ hbc
  | tail _ hbc ih => exact h.parts _ ih _ hbc

/-- Connecting one builder. -/
theorem step (hf : Forest P m0.graph.blocks.size loose) (hplans : Plans P m0)
    (h : Weighed P m0 done m) (hd : P b = some d) (hparts : ∀ c ∈ d.children, c ∈ done)
    (hnew : b ∉ done) (htree : ¬ Circular P b) :
    ∃ m', (Emit.connectBuilder b).run m = .ok ((), m') ∧ Weighed P m0 (done ++ [b]) m' := by
  obtain ⟨xs, last, m', hrun, hjoined, hj⟩ := h.joined.joining hf hplans hd hparts hnew
  obtain ⟨e, back, he, hexit, hback, hiff, hg⟩ := hj.self
  refine ⟨m', hrun, ?_⟩
  have hpreds : ∀ {x z}, x ∈ m'.graph.predsOf z ↔
      x ∈ m.graph.predsOf z ∨ back = true ∧ d.exit = z ∧ x = last := by
    grind [mem_predsOf_withEdge, hj.exit_lt]
  have hentered : ∀ {c f ys start y}, c ∈ done ++ [b] → P c = some f → Writes P f.sequence ys →
      (Graph.Entered m'.graph ys start y ↔ Graph.Entered m.graph ys start y) := by
    grind [entered_withEdge, Circular, hf.holds_of_exit_mem, h.mem_done]
  have hother : ∀ {c f x}, P c = some f → c ≠ b →
      (x ∈ m'.graph.predsOf f.exit ↔ x ∈ m.graph.predsOf f.exit) := by
    intro c f x hf' hne
    rw [hpreds]
    refine or_iff_left fun hx => hne ?_
    exact hf.owner hf' hd (hx.2.1 ▸ mem_cons_self) mem_cons_self
  refine ⟨hjoined, ?_, fun a ha c hac => ?_, fun {c f x} hf' hc hroot => ?_, fun c hc => ?_⟩
  · split at hg
    · exact (h.recorded.withEdge hj.exit_lt).congr hg
    · exact h.recorded.congr hg
  · grind [Holds, h.parts]
  · grind [h.free]
  · by_cases hcb : c = b
    · have hunique := @hj.writes.unique
      have hends := @hj.ends
      have hfree := @h.free
      grind [Found]
    · have hdone : c ∈ done := by
        rw [mem_append, mem_singleton] at hc
        exact hc.resolve_right hcb
      exact (h.found c hdone).mono (hj.others hcb) (fun hf' hys => hentered hc hf' hys)
        fun hf' _ x => hother hf' hcb

/-- Sending control from the exit of a builder to the exit of the method. -/
theorem leave (hf : Forest P m0.graph.blocks.size loose) (h : Weighed P m0 done m) (e : Builder) :
    Weighed P m0 done (m.sentOut e) := by
  have hjoined := h.joined.leave e
  unfold sentOut at hjoined ⊢
  split at hjoined
  · next hback =>
    rw [if_pos hback]
    have hexit_lt : exit < m.graph.blocks.size := by
      rw [h.joined.size]
      exact hf.exit_lt
    have hother : ∀ {c f}, P c = some f → c ≠ root → ∀ x,
        (x ∈ (m.leaving e.exit).graph.predsOf f.exit ↔ x ∈ m.graph.predsOf f.exit) := by
      intro c f hf' hroot x
      rw [mem_predsOf_leaving]
      refine or_iff_left fun hx => hroot ?_
      obtain ⟨r, hr, -, hexit⟩ := hf.root
      exact hf.owner hf' hr mem_cons_self
        (by rw [← hx.1, ← hexit]; exact mem_cons_self)
    refine ⟨hjoined, h.recorded.leaving hexit_lt, h.parts, fun hf' hc hroot => ?_, fun c hc => ?_⟩
    · rw [hother hf' hroot]
      exact h.free hf' hc hroot
    · exact (h.found c hc).mono rfl
        (fun hf' hys => entered_leaving (hf.exit_not_written hf' hys)) hother
  · next hback =>
    rw [if_neg hback]
    exact h

end Weighed

/-! ## The graph that comes out -/

/-- A run of a graph that passes verification enters blocks that can be reached. -/
theorem Evaluator.reaches_of_mem_runLogged {ev : Evaluator} {args : List Scalar}
    (h : ev.graph.verify = .ok ()) (hx : x ∈ (ev.runLogged args).1) : ev.graph.Reaches x := by
  have hg := checked_of_verify h
  unfold runLogged at hx
  dsimp only at hx
  split at hx
  · cases hx
  split at hx
  · cases hx
  cases hlocals : ev.graph.initialLocals args with
  | error f =>
    rw [hlocals] at hx
    cases hx
  | ok locals =>
    rw [hlocals] at hx
    have hstart : (ev.start locals).Guarded
        ⟨(· ∈ ev.graph.reachable), ev.graph.values.size, true⟩ :=
      ⟨fun _ h => absurd h not_mem_nil, Array.size_replicate⟩
    exact reaches_of_mem_reachable
      ((Exec.runLogged_stays ev.hosts hg hg.reachable_closed.1 hstart _ _).1 x hx)

/-- Connecting a method never meets a fault, and what it finds out about builders is so when all are
    connected. -/
theorem Method.Reachable.weighed (h : m.Reachable) : ∃ m1 m2 m3 flats r m', Prepared m m1 m2 ∧
    Build.connect.run.run m = .ok (r, m') ∧
    List.Forall₂ (Flat m1.plan?) (Method.root :: m.detached) flats ∧
    m3.Arranged (flats.flatten ++ [Graph.exit]) m' ∧
    Weighed m1.plan? m2 ((Method.root :: m.detached).flatMap (nested m1.plan? m.builders.size))
      m3 := by
  have hs := h.sound
  obtain ⟨m1, m2, hprep, hkeeps⟩ := Emit.connectBuilders_keeps hs
  have hf := hprep.forest hs
  obtain ⟨flats, m3, hrun, hflats, hw⟩ := hkeeps (fun done _ m' => Weighed m1.plan? m2 done m')
    (fun hI => hI.joined)
    (fun hI hd hparts hnew htree => hI.step hf hprep.plans hd hparts hnew htree)
    (fun hI _ _ _ _ => hI.leave hf _)
    (.start ((hprep.builds .full).linked hs.forest h.linked) hprep.graph)
  obtain ⟨r, m', hconnect, harr⟩ := hprep.connect hs hrun hflats hw.joined.size
  exact ⟨m1, m2, m3, flats, r, m', hprep, hconnect, hflats, harr, hw⟩

/-- A builder whose entry has a place hangs from one of those that are written out. -/
theorem Forest.under_of_placed (hf : Forest P n loose) {ts : List BuilderId}
    {flats : List (List BlockId)} (hflats : List.Forall₂ (Flat P) ts flats)
    (hd : P b = some d) (h : d.entry ∈ flats.flatten ++ [Graph.exit]) : ∃ t ∈ ts, Under P t b := by
  obtain ⟨hentry, hne⟩ := hf.opening_owned hd
  rcases mem_append.1 h with h | h
  · grind [Forest.flats_mem, hf.owner]
  · grind [Builder.owned, hf.root, hf.owner]

/-- What connecting finds out about a builder that it gives a place to is so in the graph that
    comes out: control reaches the end of the builder if the end is open and control gets to its
    last block within it.  Then the last block alone leads to its exit; else nothing does, and no
    run gets there.  The exit of the body is another matter, control is sent there from elsewhere
    as well. -/
theorem Method.Reachable.connect_finds (h : m.Reachable) :
    ∃ r m', Build.connect.run.run m = .ok (r, m') ∧
      ∀ b e, m'.builder? b = some e → e.entry ∈ m'.graph.layout → ∃ xs last back,
        Writes m'.builder? e.sequence xs ∧ xs.getLast? = some last ∧ e.derived = some back ∧
        (back = true ↔ e.fallsOut = true ∧ Graph.Entered m'.graph xs e.entry last) ∧
        (b ≠ Method.root → (∀ x, x ∈ m'.graph.predsOf e.exit ↔ back = true ∧ x = last) ∧
          (m'.graph.verify = .ok () → back = false → ∀ (ev : Evaluator) (args : List Scalar),
            ev.graph = m'.graph → e.exit ∉ (ev.runLogged args).1)) := by
  have hs := h.sound
  obtain ⟨m₁, m₂, m₃, flats, r, m', hprep, hconnect, hflats, harr, hw⟩ := h.weighed
  have hf := hprep.forest hs
  refine ⟨r, m', hconnect, fun b e he hplace => ?_⟩
  have halike : m₁.Alike m₃ := hprep.alike.trans hw.joined.alike
  obtain ⟨d, hd, hframe⟩ := halike.symm.builder? ((harr.builders b).symm.trans he)
  replace hd := Method.plan?_of_builder? hd
  have hseq : d.plan.sequence = e.sequence := Builder.sequence_eq_of_frame (e := d) hframe
  have hexit : d.plan.exit = e.exit := Builder.exit_eq_of_frame (e := d) hframe
  have hentry : d.plan.entry = e.entry := Builder.entry_eq_of_frame (e := d) hframe
  -- it has been connected, since it has a place
  rw [harr.layout, ← hentry] at hplace
  obtain ⟨t, ht, hb⟩ := hf.under_of_placed hflats hd hplace
  have hdone := hprep.mem_nested hs ht hb
  obtain ⟨_, -, _, ys, hd', hxs, -⟩ := hw.joined.blocks b hdone
  cases hd.symm.trans hd'
  obtain ⟨last, hlast⟩ := hf.exists_last hd hxs
  obtain ⟨e', back, he', hback, hiff, honly⟩ := hw.found b hdone d.plan ys last hd hxs hlast
  cases ((harr.builders b).symm.trans he).symm.trans he'
  rw [hexit] at honly
  have hpreds : b ≠ Method.root →
      ∀ x, x ∈ m'.graph.predsOf e.exit ↔ back = true ∧ x = last := by
    intro hroot x
    rw [harr.predsOf]
    exact honly hroot x
  refine ⟨ys, last, back, ?_, hlast, hback, ?_, fun hroot => ⟨hpreds hroot, ?_⟩⟩
  · rw [← hseq]
    refine hxs.congr fun c f hf' => ?_
    obtain ⟨f', hf', hseq, hexit, -⟩ := (Plans.self m₁).alike halike c f hf'
    exact ⟨f', (harr.builders c).trans hf', hseq, hexit⟩
  · rw [← hentry, hiff]
    refine and_congr_right fun _ => ⟨.mono (fun a c _ h => ?_) fun c _ a h => ?_,
      .mono (fun a c _ h => ?_) fun c _ a h => ?_⟩
    · rwa [harr.succsOf]
    · rwa [harr.predsOf]
    · rwa [harr.succsOf] at h
    · rwa [harr.predsOf] at h
  · rintro hv rfl ev args hev hmem
    rw [← hev] at hv
    -- a block that a run enters is the entry of the graph or some block leads to it
    rcases (Evaluator.reaches_of_mem_runLogged hv hmem).eq_entry_or with hx | ⟨a, ha⟩
    · obtain ⟨r, hr, hentry', -⟩ := hf.root
      refine hroot (hf.owner hd hr List.mem_cons_self ?_)
      rw [hexit, hx, ← hentry']
      exact (hf.opening_owned hr).1
    · rw [hev, harr.succsOf] at ha
      have hpred := hw.recorded _ _ ha
      rw [← harr.predsOf] at hpred
      exact Bool.false_ne_true ((hpreds hroot a).1 hpred).1

/-- A case of it: the body holds builder `1`, at whose end control arrives, and then builder `2`,
    which returns. -/
theorem connect_finds_nested :
    ∃ m r m' e₁ e₂ last, (Method.new "f" {}).after [.orphan, .append 0 1, .orphan, .returnVoid 2,
        .append 0 2] = .ok m ∧ Build.connect.run.run m = .ok (r, m') ∧
      m'.builder? 1 = some e₁ ∧ (∀ x, x ∈ m'.graph.predsOf e₁.exit ↔ x = last) ∧
      m'.builder? 2 = some e₂ ∧ (∀ x, x ∉ m'.graph.predsOf e₂.exit) ∧
      ∀ (ev : Evaluator) (args : List Scalar), ev.graph = m'.graph →
        e₂.exit ∉ (ev.runLogged args).1 := by
  have hcheck : passes ((Method.new "f" {}).after [.orphan, .append 0 1, .orphan, .returnVoid 2,
      .append 0 2]) (fun m => passes (Build.connect.run.run m) fun p => decide (
        p.2.graph.verify = .ok () ∧
        (∃ e ∈ p.2.builder? 1, e.entry ∈ p.2.graph.layout ∧ e.derived = some true) ∧
        ∃ e ∈ p.2.builder? 2, e.entry ∈ p.2.graph.layout ∧ e.derived = some false)) = true := by
    decide +kernel
  obtain ⟨m, hm, hcheck⟩ := of_passes hcheck
  obtain ⟨p, hp, hv, ⟨e₁, he₁, hin₁, hback₁⟩, e₂, he₂, hin₂, hback₂⟩ := of_passes_decide hcheck
  obtain ⟨r, m', hrun, hfound⟩ := Method.Reachable.connect_finds ⟨_, _, _, hm⟩
  cases hp.symm.trans hrun
  obtain ⟨_, last, back, -, -, hback, -, hrest⟩ := hfound 1 e₁ he₁ hin₁
  cases hback₁.symm.trans hback
  obtain ⟨_, _, back, -, -, hback, -, hrest'⟩ := hfound 2 e₂ he₂ hin₂
  cases hback₂.symm.trans hback
  refine ⟨m, r, m', e₁, e₂, last, hm, hrun, he₁, fun x => ?_, he₂, fun x hx => ?_,
    (hrest' (by decide)).2 hv rfl⟩
  · rw [(hrest (by decide)).1 x]
    exact and_iff_right rfl
  · exact Bool.false_ne_true (((hrest' (by decide)).1 x).1 hx).1

/-- The body is no exception without reason: here it ends with a transfer to a builder that stands
    behind it, and a run enters its exit from there. -/
theorem connect_enters_exit_of_body :
    ∃ m r m' e, (Method.new "f" {}).after [.orphan, .goto 0 (some 1)] = .ok m ∧
      Build.connect.run.run m = .ok (r, m') ∧ m'.builder? Method.root = some e ∧
      e.entry ∈ m'.graph.layout ∧ e.derived = some false ∧ m'.graph.verify = .ok () ∧
      e.exit ∈ (Evaluator.runLogged { graph := m'.graph } []).1 := by
  have hcheck : passes ((Method.new "f" {}).after [.orphan, .goto 0 (some 1)]) (fun m =>
      passes (Build.connect.run.run m) fun p => decide (∃ e ∈ p.2.builder? Method.root,
        e.entry ∈ p.2.graph.layout ∧ e.derived = some false ∧ p.2.graph.verify = .ok () ∧
        e.exit ∈ (Evaluator.runLogged { graph := p.2.graph } []).1)) = true := by
    decide +kernel
  obtain ⟨m, hm, hcheck⟩ := of_passes hcheck
  obtain ⟨⟨r, m'⟩, hrun, e, he, hrest⟩ := of_passes_decide hcheck
  exact ⟨m, r, m', e, hm, hrun, he, hrest⟩

end MethodGraph
