import MethodGraph.Proofs.Arrivals
/-!
  Blocks that are given a handler.

  The sequence goes on behind the handler, so the block that control is in is closed, and a jump
  to what follows is put in front of the handler.  Control falls into the jump if there was an open
  block (`Method.handler_keeps_fall`).  If there was none, then the end of the sequence is closed
  twice: it is forgotten that control falls out of it, and the block in front of the jump has no
  edge to it (`Method.handler_loses_fall`).
-/

namespace MethodGraph

open Method

variable {m m₁ m₂ m' : Method} {b p : BuilderId} {x y z n : BlockId} {handler : Option BuilderId}
  {d : Builder}

/-! ## Blocks that fall -/

namespace Graph

variable {g : Graph} {live : BitSet} {blk : Block} {ops : List Operation} {e : Flaw}

theorem bind_ne {u : Except Flaw Unit} {f : Unit → Except Flaw Unit} (h : u ≠ .error e)
    (hf : f () ≠ .error e) : (u >>= f) ≠ .error e := by
  cases u with
  | error e' => exact h
  | ok u => exact hf

theorem forM_ne {f : BlockId → Except Flaw Unit} : ∀ {xs : List BlockId},
    (∀ x ∈ xs, f x ≠ .error e) → xs.forM f ≠ .error e
  | [], _ => nofun
  | x :: _, h => bind_ne (h x List.mem_cons_self)
    (forM_ne fun y hy => h y (List.mem_cons_of_mem _ hy))

theorem checkOps_ne : checkOps y blk ops ≠ .error (.fallsWithoutEdge x n) := by
  induction ops with
  | nil => exact nofun
  | cons op ops ih =>
    unfold checkOps
    dsimp only
    (repeat' split) <;> first | exact ih | exact nofun

theorem checkBlock_ne (h : ∀ blk, y = x → g.block? x = some blk → blk.next = some n →
    n ∈ blk.succs) : g.checkBlock live y ≠ .error (.fallsWithoutEdge x n) := by
  unfold checkBlock
  split
  · exact nofun
  next blk hblk =>
  dsimp only
  split
  · exact nofun
  refine bind_ne checkOps_ne ?_
  split
  · grind [checkFall]
  · intro h
    cases h

/-- Verification finds no fault with a block that has an edge to the block it falls into. -/
theorem verify_ne (h : ∀ blk, x ∈ g.layout → g.block? x = some blk → blk.next = some n →
    n ∈ blk.succs) : g.verify ≠ .error (.fallsWithoutEdge x n) := by
  have hall : g.layout.forM (g.checkBlock g.reachable) ≠ .error (.fallsWithoutEdge x n) :=
    forM_ne fun y hy => checkBlock_ne fun blk hyx => h blk (hyx ▸ hy)
  unfold verify
  dsimp only
  split
  · exact nofun
  split
  · exact nofun
  split
  · exact nofun
  split
  · exact nofun
  refine bind_ne hall ?_
  split <;> exact nofun

end Graph

/-! ## The jump in front of a handler -/

namespace Emit

/-- Where no block is open, a new one is put behind the sequence, and control falls into it. -/
theorem openBlock_extends (hd : m.builder? b = some d) (hfull : ∀ x, d.tail ≠ .current x)
    (hlt : ∀ x, d.tail.block? = some x → x < m.graph.blocks.size)
    (h : (openBlock b).run m = .ok (y, m')) :
    m'.builder? b = some (d.extend (.block y) (.current y)) ∧ m'.ops y = [] ∧
      ∀ x, d.tail.block? = some x → m'.HasEdge x y := by
  obtain ⟨d', hd', ⟨hcur, -⟩ | ⟨-, rfl, rfl, -⟩⟩ := openBlock_eq_ok h <;> cases hd.symm.trans hd'
  · exact absurd hcur (hfull y)
  refine ⟨builder?_opened hd, ?_, hasEdge_linkFrom fun z hz => ?_⟩
  · exact (ops_linkFrom ..).trans ((ops_addBlock _).trans m.ops_size)
  · rw [size_addBlock]
    exact Nat.lt_succ_of_lt (hlt z hz)

/-- A transfer goes behind the operations of the open block, or into a new one. -/
theorem transfer_extends {opcode : Opcode} {operands : List ValueId} {targets : List BlockId}
    {u : Unit} (hd : m.builder? b = some d)
    (hlt : ∀ x, d.tail.block? = some x → x < m.graph.blocks.size)
    (h : (transfer b opcode operands targets).run m = .ok (u, m')) :
    ∃ y f pre, m'.builder? b = some f ∧ (∀ x, f.tail ≠ .current x) ∧
      m'.ops y = pre ++ [⟨opcode, operands, none, targets⟩] ∧
      (d.tail = .current y ∧ f.sequence = d.sequence ∧ pre = m.ops y ∨
        (∀ x, d.tail ≠ .current x) ∧ f.sequence = d.sequence ++ [.block y] ∧ pre = [] ∧
          ∀ x, d.tail.block? = some x → m'.HasEdge x y) := by
  obtain ⟨y, m1, h1, hy, -, rfl⟩ := transfer_eq_ok h
  have hops : ∀ {pre}, m1.ops y = pre → ((m1.withBlock y (·.push
      ⟨opcode, operands, none, targets⟩)).withEdges y targets).ops y =
        pre ++ [⟨opcode, operands, none, targets⟩] := by
    rintro _ rfl
    exact (ops_withEdges ..).trans (ops_push hy _)
  have hshut : ∀ {e}, m1.builder? b = some e → (((m1.withBlock y (·.push
      ⟨opcode, operands, none, targets⟩)).withEdges y targets).withBuilder b fun d =>
        { d with tail := d.tail.close (!opcode.isUnconditional) }).builder? b =
      some { e with tail := e.tail.close (!opcode.isUnconditional) } := by
    intro e he
    rw [builder?_withBuilder, if_pos rfl, builder?_withEdges, builder?_withBlock, he]
    rfl
  by_cases hcur : ∃ x, d.tail = .current x
  · obtain ⟨x, hx⟩ := hcur
    obtain ⟨rfl, rfl⟩ := openBlock_current hd hx h1
    exact ⟨x, _, _, hshut hd, d.tail.close_ne_current _, hops rfl, .inl ⟨hx, rfl, rfl⟩⟩
  · have hfull : ∀ x, d.tail ≠ .current x := fun x hx => hcur ⟨x, hx⟩
    obtain ⟨hd1, hnone, hedge⟩ := openBlock_extends hd hfull hlt h1
    refine ⟨y, _, [], hshut hd1, Tail.close_ne_current (.current y) _, hops hnone,
      .inr ⟨hfull, rfl, rfl, fun x hx => ?_⟩⟩
    have hpush : (m1.withBlock y (·.push ⟨opcode, operands, none, targets⟩)).HasEdge x y := by
      rw [hasEdge_withBlock]
      · exact hedge x hx
      · exact fun _ => rfl
    exact hpush.withEdges y targets

/-- An appended builder is the last entry of the sequence. -/
theorem append_extends {c : BuilderId} {u : Unit} (h : (append b c).run m = .ok (u, m')) :
    ∃ d e, m.builder? b = some d ∧ m.builder? c = some e ∧
      m'.builder? b = some (d.extend (.builder c) (.owed e.exit)) := by
  obtain ⟨d, e, hd, he, hne, -, -, -, hm'⟩ := append_eq_ok h
  have hholds : (m.holding b c d e).builder? b = some (d.extend (.builder c) (.owed e.exit)) := by
    grind [holding, builder?_withBuilder, builder?_linkFrom]
  refine ⟨d, e, hd, he, ?_⟩
  rcases hm' with ⟨-, rfl⟩ | ⟨-, rfl⟩ <;> exact hholds

/-- A jump to what follows is put behind the open block of the sequence, with an edge to it. -/
theorem appendHandler_splits (hs : Draft.Sound ⟨m, [], []⟩)
    (h : (appendHandler b x handler).run m = .ok (p, m')) (hd : m.builder? b = some d)
    (hz : d.tail = .current z) : ∃ y after e f, m'.builder? after = some e ∧
      m'.builder? b = some f ∧ d.sequence ++ [.block y] <+: f.sequence ∧
      f.sequence.getLast? = some (.builder after) ∧ m'.Settled [] y ∧
      m'.ops y = [{ opcode := .goto, targets := [e.entry] }] ∧ m'.HasEdge z y := by
  obtain ⟨after, e5, m1, m2, m3, m4, m5, m6, h1, h2, h3, h4, h5, he5, hx, hy, h6, h7⟩ :=
    appendHandler_eq_ok h
  have hd2 : m2.builder? b = some d := builder?_prepare (o := none) h2 (builder?_prepare h1 hd)
  have hto : Builds .full ⟨m, [], []⟩ ⟨m3, [], []⟩ :=
    calc Builds .full _ ⟨m1, [], []⟩ := lawful_prepare handler _ _ _ _ [] h1
      Builds .full _ ⟨m2, [], []⟩ := lawful_orphan _ _ _ _ [] h2
      Builds .full _ ⟨m3, [], []⟩ := closeBlock_builds h3 (.inl rfl)
  have hjump : Builds .full ⟨m3, [], []⟩ ⟨m4, [], []⟩ := lawful_gotoBuilder b after _ _ _ _ [] h4
  have hto4 : Builds .full ⟨m, [], []⟩ ⟨m4, [], []⟩ := hto.trans hjump
  have hfrom : Builds .full ⟨m4, [], []⟩ ⟨m', [], []⟩ :=
    calc Builds .full _ ⟨m5, [], []⟩ := lawful_markHandler p _ _ _ _ [] h5
      Builds .full _ ⟨m5.withHandler x e5.entry, [], []⟩ :=
        (Step.handle x e5.entry hx hy (.inr (.inl ⟨p, e5, he5, rfl⟩)) fun _ hz => .inr hz).builds
      Builds .full _ ⟨m6, [], []⟩ := append_builds h6
      Builds .full _ ⟨m', [], []⟩ := append_builds h7
  obtain ⟨-, rfl⟩ := updateBuilder_eq_ok.1 h3
  have hd3 : (m2.withBuilder b fun d => { d with tail := d.tail.close true }).builder? b =
      some { d with tail := .owed z } := by grind [builder?_withBuilder, Tail.close]
  obtain ⟨e, he, hgoto⟩ := gotoBuilder_eq_ok h4
  obtain ⟨y, f, _, hf, hshut, hops, ⟨hcur, -⟩ | ⟨-, hseq, rfl, hedge⟩⟩ :=
    transfer_extends hd3 (fun w hw => (hto.sound hs).idle.tails b _ w hd3 hw) hgoto
  · cases hcur
  have hmem : .block y ∈ f.sequence := by simp [hseq]
  obtain ⟨hsettled, hops'⟩ := hfrom.settled (settled_of_mem (hto4.sound hs) hf hmem (hshut y))
  have hlater : Builds .full ⟨_, [], []⟩ ⟨m', [], []⟩ := hjump.trans hfrom
  obtain ⟨e', he', hee⟩ := hlater.below.builders after e he
  obtain ⟨f', hf', hff⟩ := hfrom.below.builders b f hf
  refine ⟨y, after, e', f', he', hf', hseq ▸ hff.sequence, ?_, hsettled, ?_, ?_⟩
  · obtain ⟨g, _, -, -, hlast⟩ := append_extends h7
    cases hf'.symm.trans hlast
    exact List.getLast?_concat
  · rw [hops', hops, hee.entry]
    rfl
  · obtain ⟨blk, hblk, hy⟩ := hedge z rfl
    obtain ⟨blk', hblk', hbb⟩ := hfrom.below.blocks z blk hblk
    exact ⟨blk', hblk', hbb.succs y hy⟩

end Emit

/-! ## Connected methods -/

/-- What a call has built is there when the method is connected, whatever is built afterwards. -/
theorem Method.connect_after {name : String} {config : Config} {before later : List Call} {c : Call}
    {r : Except BuildError Unit} (hbefore : (Method.new name config).after before = .ok m)
    (hc : c.apply m = .ok m₁) (hlater : m₁.after later = .ok m₂)
    (hconnect : Build.connect.run.run m₂ = .ok (r, m')) :
    ∃ n, Builds .full ⟨m₁, [], []⟩ ⟨n, [], []⟩ ∧ Draft.Sound ⟨n, [], []⟩ ∧ n.Laid m' := by
  have hm₂ : m₂.Reachable := by
    refine ⟨name, config, before ++ c :: later, ?_⟩
    rw [after_append hbefore, ← hlater, after, hc]
    rfl
  obtain ⟨n, _, _, hconnect', hbuilds, -, hlaid⟩ := hm₂.sound.connect
  cases hconnect.symm.trans hconnect'
  exact ⟨n, (after_builds hlater rfl rfl (fun _ _ _ => rfl) fun _ _ _ => rfl).trans
    (hbuilds .full), (hbuilds .full).sound hm₂.sound, hlaid⟩

/-- Giving a block a handler keeps the way out of the open block: a jump to what follows is put
    behind it, with an edge to it, and verification does not object to how control leaves it. -/
theorem Method.handler_keeps_fall {name : String} {config : Config} {before later : List Call}
    {r : Except BuildError Unit} (hbefore : (Method.new name config).after before = .ok m)
    (hc : (Call.handler b x handler).apply m = .ok m₁) (hlater : m₁.after later = .ok m₂)
    (hconnect : Build.connect.run.run m₂ = .ok (r, m')) (hd : m.builder? b = some d)
    (hz : d.tail = .current z) :
    ∃ y after e f, m₁.builder? after = some e ∧ m₁.builder? b = some f ∧
      d.sequence ++ [.block y] <+: f.sequence ∧ f.sequence.getLast? = some (.builder after) ∧
      m'.graph.HasCode y [{ opcode := .goto, targets := [e.entry] }] ∧ m'.HasEdge z y ∧
      ∀ n, m'.graph.verify ≠ .error (.fallsWithoutEdge z n) := by
  have hm : m.Reachable := ⟨name, config, before, hbefore⟩
  obtain ⟨p, hrun⟩ := Call.of_apply_emit rfl hc
  obtain ⟨y, after, e, f, he, hf, hseq, hlast, hsettled, hops, hedge⟩ :=
    Emit.appendHandler_splits hm.sound hrun hd hz
  obtain ⟨n, hbuilds, -, hlaid⟩ := connect_after hbefore hc hlater hconnect
  obtain ⟨f', hf', hff⟩ := hbuilds.below.builders b f hf
  have hedge' : m'.HasEdge z y := by
    obtain ⟨blk, hblk, hy⟩ := hedge
    obtain ⟨blk', hblk', hbb⟩ := hbuilds.below.blocks z blk hblk
    exact hlaid.edges z y ⟨blk', hblk', hbb.succs y hy⟩
  have hmem : .block y ∈ f.sequence := hseq.subset (by simp)
  refine ⟨y, after, e, f, he, hf, hseq, hlast, ?_, hedge', fun n => Graph.verify_ne ?_⟩
  · rw [← hops]
    exact (hlaid.holds hbuilds).blocks b f y hf hmem hsettled
  · -- the open block is the last of the sequence, so the jump is what control falls into
    intro blk hin hblk hnext
    obtain ⟨front, hfront⟩ := List.getLast?_eq_some_iff.1 (hm.sound.bare.fronted hd hz)
    obtain ⟨rest, hrest⟩ := hseq.trans hff.sequence
    have hsplit : f'.sequence = front ++ .block z :: .block y :: rest := by
      rw [← hrest, hfront]
      simp
    obtain ⟨_, _, blk', rfl, hblk', hnext', -, hy⟩ :=
      hlaid.next hf' (by rw [hsplit]; simp) hin hsplit (by simp)
    obtain ⟨hnil, -⟩ | ⟨_, he', hy⟩ := hy
    · cases hnil
    cases he'
    cases hy
    cases hblk.symm.trans hblk'
    cases hnext.symm.trans hnext'
    obtain ⟨blk', hblk', hsucc⟩ := hedge'
    cases hblk.symm.trans hblk'
    exact hsucc

/-- A case of it: the entry of a new method gets a handler. -/
theorem Method.handler_keeps_fall_entry : ∃ m₁ r m' y,
    (Call.handler Method.root Graph.entry none).apply (Method.new "f" {}) = .ok m₁ ∧
      Build.connect.run.run m₁ = .ok (r, m') ∧ m'.HasEdge Graph.entry y ∧
      ∀ n, m'.graph.verify ≠ .error (.fallsWithoutEdge Graph.entry n) := by
  have hcheck : passes ((Call.handler Method.root Graph.entry none).apply (Method.new "f" {}))
      (fun m => passes (Build.connect.run.run m) fun _ => true) = true := by
    decide +kernel
  obtain ⟨m₁, hc, hrest⟩ := of_passes hcheck
  obtain ⟨⟨r, m'⟩, hconnect, -⟩ := of_passes hrest
  have hnone : ∀ m : Method, m.after [] = .ok m := fun _ => rfl
  obtain ⟨y, -, -, -, -, -, -, -, -, hedge, hverify⟩ :=
    handler_keeps_fall (hnone _) hc (hnone _) hconnect rfl rfl
  exact ⟨m₁, r, m', y, hc, hconnect, hedge, hverify⟩

/-- An open block is needed: here control comes out of builder `1` when the handler is put behind
    it, and the exit of the builder, block `3`, is left without an edge to the jump. -/
theorem Method.handler_loses_fall : ∃ m r m', (Method.new "f" {}).after [.orphan, .append 0 1,
    .handler 0 Graph.entry none] = .ok m ∧ Build.connect.run.run m = .ok (r, m') ∧
      m'.graph.verify = .error (.fallsWithoutEdge 3 8) := by
  have hcheck : passes ((Method.new "f" {}).after [.orphan, .append 0 1,
      .handler 0 Graph.entry none]) (fun m => passes (Build.connect.run.run m) fun p =>
        p.2.graph.verify = .error (.fallsWithoutEdge 3 8)) = true := by
    decide +kernel
  obtain ⟨m, hm, hrest⟩ := of_passes hcheck
  obtain ⟨⟨r, m'⟩, hconnect, hverify⟩ := of_passes_decide hrest
  exact ⟨m, r, m', hm, hconnect, hverify⟩

end MethodGraph
