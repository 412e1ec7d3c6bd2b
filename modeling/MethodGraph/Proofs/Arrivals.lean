import MethodGraph.Proofs.Aside
import MethodGraph.Proofs.Copies
import MethodGraph.Proofs.Safety
import MethodGraph.Proofs.Settled
/-!
  States that arrive at bytecode builders.

  Registering a successor emits code that carries the state along: copies in the builder that is
  left, if the successor is reached for the first time, or else stores in a builder of its own on
  the way to the successor.  Then control is transferred, which closes the block it happens in, so
  that nothing gets in between later.

  Main statement: whenever a run leaves a builder by the transfer of a registration, it arrives at
  the entry of the successor, and there each slot of the state that the successor starts from has
  the scalar that the slot of the state before had in front of the code of the registration
  (`Method.registration_carries`).
-/

namespace MethodGraph

open Method List Option Machine Exec Nat Build

variable {source target : BuilderId} {g : Graph} {loose : List BlockId} {σ : Machine} {u : Unit}
  {s t : VmState}

variable {l : License} {m m₁ m' : Method} {b c e : BuilderId} {x : BlockId} {p : ValueId × ValueId}

/-! ## Transfers -/

/-- A block of a sequence that takes no operations is settled. -/
theorem Method.settled_of_mem {d : Builder} {risky : List BlockId}
    (hs : Draft.Sound ⟨m, loose, risky⟩)
    (hd : m.builder? b = some d) (hx : .block x ∈ d.sequence) (hshut : d.tail ≠ .current x) :
    m.Settled loose x := by
  have howned : x ∈ d.plan.owned := mem_cons_of_mem _ (Builder.mem_blocksHere.2 hx)
  have hplan := plan?_of_builder? hd
  refine ⟨hs.forest.bound hplan howned, hs.forest.looseFree hplan howned, fun c e he hcur => ?_⟩
  have hmem := Builder.mem_blocksHere.2 (hs.bare.mem he hcur)
  obtain rfl := hs.forest.owner hplan (plan?_of_builder? he) howned (mem_cons_of_mem _ hmem)
  cases hd.symm.trans he
  exact hshut hcur

/-- The next operation of a builder does not go into a settled block. -/
theorem Method.Settled.tip_ne (h : m.Settled loose x) : m.tip b ≠ some x := by
  grind [tip, map_eq_some_iff, h.shut, h.lt]

/-- A transfer is the last operation of the block that it goes into. -/
theorem Emit.transfer_closes {opcode : Opcode} {operands : List ValueId} {targets : List BlockId}
    (hs : Draft.Sound ⟨m, [], []⟩) (h : (transfer b opcode operands targets).run m = .ok (u, m')) :
    ∃ x d, m.tip b = some x ∧ m'.ops x = m.ops x ++ [⟨opcode, operands, none, targets⟩] ∧
      (∀ y, y ≠ x → m'.ops y = m.ops y) ∧ m'.builder? b = some d ∧ .block x ∈ d.sequence ∧
      ∀ y, d.tail ≠ .current y := by
  obtain ⟨x, m₁, h1, hlt, -, rfl⟩ := transfer_eq_ok h
  obtain ⟨htip, happ, -, d, hd, hx⟩ := openBlock_appended h1
  have hmem := ((openBlock_builds .plain [] [] h1).1.sound hs).bare.mem hd hx
  have hops : ∀ y, m₁.ops y = m.ops y := by grind [happ.ops, happ.elsewhere]
  refine ⟨x, { d with tail := d.tail.close (!opcode.isUnconditional) }, htip, ?_, fun y hy => ?_,
    ?_, hmem, d.tail.close_ne_current _⟩
  · exact (ops_withEdges ..).trans ((ops_push hlt _).trans (by rw [hops]))
  · exact (ops_withEdges ..).trans ((ops_push_of_ne hy _).trans (hops y))
  · rw [builder?_withBuilder, if_pos rfl, builder?_withEdges,
      builder?_withBlock, hd]
    rfl

/-! ## Runs through a block -/

namespace Graph

variable {g : Graph} {hosts : Bindings String HostFn} {pre ops post : List Operation}
  {op : Operation} {y : BlockId} {σ0 σ σ' : Machine}

/-- A run goes through operations of a block that control goes on behind. -/
theorem HasCode.arrives (h : g.HasCode x (pre ++ ops ++ post))
    (hrun : (Exec.runOps g hosts x ops pre.length).run.run σ = .ok (.ok .next, σ')) :
    g.Arrives hosts ((x, pre.length), σ) ((x, pre.length + ops.length), σ') := by
  induction ops generalizing pre σ with
  | nil =>
    cases hrun
    exact .refl
  | cons op ops ih =>
    obtain ⟨σ1, hstep, hrest⟩ := runOps_cons.1 hrun
    have hhere : g.HasCode x (pre ++ op :: (ops ++ post)) := by simpa using h
    have hbehind : g.HasCode x (pre ++ [op] ++ ops ++ post) := by simpa using h
    have hlen : (pre ++ [op]).length = pre.length + 1 := length_append
    rw [← hlen] at hrest
    have hgoes := ih hbehind hrest
    rw [hlen, add_assoc, add_comm 1] at hgoes
    exact .head (.next hhere.hasOp hstep) hgoes

/-- A run that starts at the beginning of a block gets behind an operation only through it. -/
theorem Arrives.of_succ {i : Nat} (h : g.Arrives hosts ((y, 0), σ0) ((x, i + 1), σ')) :
    ∃ op σ, g.Arrives hosts ((y, 0), σ0) ((x, i), σ) ∧ g.HasOp (x, i) op ∧
      (Exec.step g hosts (x, i) op).run.run σ = .ok (.ok .next, σ') := by
  rcases Relation.ReflTransGen.cases_tail h with heq | ⟨⟨p, σ⟩, harr, hmove⟩
  · cases heq
  · cases hmove with
    | next hop hstep => exact ⟨_, σ, harr, hop, hstep⟩

/-- A run that starts at the beginning of a block gets behind some operations of a block only
    through all of them. -/
theorem HasCode.through (h : g.HasCode x (pre ++ ops ++ post))
    (harr : g.Arrives hosts ((y, 0), σ0) ((x, pre.length + ops.length), σ')) :
    ∃ σ, g.Arrives hosts ((y, 0), σ0) ((x, pre.length), σ) ∧
      (Exec.runOps g hosts x ops pre.length).run.run σ = .ok (.ok .next, σ') := by
  induction ops using reverseRecOn generalizing post σ' with
  | nil => exact ⟨σ', harr, rfl⟩
  | append_singleton ops op ih =>
    rw [length_append, ← add_assoc] at harr
    obtain ⟨op', σ1, harr1, hop, hstep⟩ := harr.of_succ
    have hlast : g.HasCode x (pre ++ ops ++ op :: post) := by simpa using h
    obtain rfl : op' = op := by
      have hat := hlast.hasOp
      rw [length_append] at hat
      obtain ⟨-, blk, hblk, hget⟩ := hop
      obtain ⟨-, blk', hblk', hget'⟩ := hat
      cases hblk.symm.trans hblk'
      exact some.inj (hget.symm.trans hget')
    obtain ⟨σ, harrσ, hrun⟩ := ih hlast harr1
    refine ⟨σ, harrσ, (runOps_append hrun).trans ?_⟩
    exact runOps_cons.2 ⟨σ', hstep, rfl⟩

end Graph

/-! ## Ways of a state -/

namespace Method

variable {moves : List (ValueId × ValueId)} {lost : List ValueId}

/-- Code was added to the end of a builder that gives the second value of each move the scalar that
    the first had before. -/
structure Readies (m : Method) (b : BuilderId) (moves : List (ValueId × ValueId)) (m' : Method) :
    Prop where
  typed : ∀ p ∈ moves, ∃ ty, m.graph.values.get? p.1 = some ty ∧
    m'.graph.values.get? p.2 = some ty
  code : ∃ ops, (∀ x, m'.tip b = some x → m'.ops x = m.ops x ++ ops) ∧
    ∀ (g : Graph) (hosts : Bindings String HostFn) (σ : Machine), g.HasValues m' →
      m'.graph.values.size ≤ σ.values.size → (∀ p ∈ moves, σ.Computed g p.1) →
      ∃ σ', Exec.Takes g hosts ops σ σ' ∧ σ'.values.size = σ.values.size ∧
        ∀ p ∈ moves, σ'.values[p.2]? = σ.values[p.1]?

theorem Carries.readies (h : m.Carries b moves lost m') : m.Readies b moves m' := by
  obtain ⟨ops, happ, hrun⟩ := h.code
  refine ⟨h.typed, ops, fun x hx => happ.ops x (happ.tip ▸ hx), fun g hosts σ hg hroom hcomp => ?_⟩
  obtain ⟨σ', htakes, hsize, hmoved, -⟩ := hrun g hosts σ hg hroom hcomp
  exact ⟨σ', htakes, hsize, hmoved⟩

theorem Readies.followed (h : m.Readies b moves m₁) (h' : m₁.Carries b [] [] m') :
    m.Readies b moves m' := by
  obtain ⟨ops, hops, hrun⟩ := h.code
  obtain ⟨ops', happ', hrun'⟩ := h'.code
  refine ⟨fun p hp => ?_, ops ++ ops', fun x hx => ?_, fun g hosts σ hg hroom hcomp => ?_⟩
  · obtain ⟨ty, hty, hty'⟩ := h.typed p hp
    exact ⟨ty, hty, happ'.values _ _ hty'⟩
  · grind [happ'.tip, happ'.ops]
  · obtain ⟨σ1, htakes, hsize, hmoved⟩ := hrun g hosts σ
      (fun v ty hv => hg v ty (happ'.values v ty hv)) (le_trans happ'.size hroom) hcomp
    obtain ⟨σ2, htakes', hsize', -, hkept⟩ := hrun' g hosts σ1 hg (hsize ▸ hroom)
      fun _ hp => (nomatch hp)
    refine ⟨σ2, htakes.append htakes', hsize'.trans hsize, fun p hp => ?_⟩
    obtain ⟨ty, -, hty⟩ := h.typed p hp
    rw [hkept p.2 (Carries.lt_of_get? hty) not_mem_nil, hmoved p hp]

/-- In every graph that holds the method, a run that gets to the entry of `e` goes on to the entry
    of `b`, and there the second value of each move has the scalar that the first had. -/
def Delivers (m : Method) (e b : BuilderId) (moves : List (ValueId × ValueId)) : Prop :=
  ∀ (g : Graph) (hosts : Bindings String HostFn) (σ : Machine), g.Holds m →
    m.graph.values.size ≤ σ.values.size → (∀ p ∈ moves, σ.Computed g p.1) →
    ∃ d d' σ', m.builder? e = some d ∧ m.builder? b = some d' ∧
      g.Arrives hosts ((d.entry, 0), σ) ((d'.entry, 0), σ') ∧
      ∀ p ∈ moves, σ'.values[p.2]? = σ.values[p.1]?

end Method

variable (hsound : Draft.Sound ⟨m, [], []⟩) (hone : s.carriers ≤ 1)
  (hvalues : ∀ v ∈ s.slots ++ t.slots, v < m.graph.values.size)

namespace Emit

open Method

theorem eq_of_mem_zip {vs : List ValueId} (h : p ∈ vs.zip vs) : p.1 = p.2 := by
  induction vs with
  | nil => cases h
  | cons v vs ih =>
    rcases mem_cons.1 h with rfl | h
    · rfl
    · exact ih h

/-- A new builder takes operations in its entry, where there are none yet. -/
theorem orphanBytecode_opens {index : Int} {name : Option String}
    (h : (orphanBytecode index name).run m = .ok (b, m')) :
    ∃ d, m'.builder? b = some d ∧ d.tail = .current d.entry ∧ m'.ops d.entry = [] ∧
      m'.graph.values = m.graph.values ∧ ∀ x, m'.ops x = m.ops x := by
  obtain ⟨rfl, rfl⟩ := orphanBytecode_eq_ok h
  refine ⟨_, (builder?_addBuilder _ _).trans (if_pos rfl), rfl, ?_, rfl,
    ops_addBuilder _⟩
  exact ops_of_block? ((block?_addBuilder _ _).trans (if_pos (.inl rfl)))

include hsound hone hvalues in
/-- A builder made for a later arrival consists of one block, in which the state is stored and
    which goes to the target.  No operation is added anywhere else. -/
theorem mergeBuilder_code (h : (mergeBuilder s t target).run m = .ok (e, m')) :
    s.slots.length = t.slots.length ∧ ∃ d d' code, m'.builder? e = some d ∧
      m'.builder? target = some d' ∧ .block d.entry ∈ d.sequence ∧ m'.Settled [] d.entry ∧
      m'.ops d.entry = code ++ [⟨.goto, [], none, [d'.entry]⟩] ∧
      (∀ x, x ≠ d.entry → m'.ops x = m.ops x) ∧
      ∀ (g : Graph) (hosts : Bindings String HostFn) (σ : Machine), g.HasValues m' →
        m'.graph.values.size ≤ σ.values.size →
        (∀ p ∈ s.slots.zip t.slots, σ.Computed g p.1) →
        ∃ σ', Exec.Takes g hosts code σ σ' ∧
          ∀ p ∈ s.slots.zip t.slots, σ'.values[p.2]? = σ.values[p.1]? := by
  obtain ⟨_, r, m₁, m2, m3, -, -, h1, h2, h3, h4⟩ := mergeBuilder_eq_ok h
  have hmade : Builds .full ⟨m, [], []⟩ ⟨m₁, [], []⟩ := lawful_orphanBytecode _ _ _ _ _ _ _ h1
  have hstored : Builds .full ⟨m₁, [], []⟩ ⟨m2, [], []⟩ :=
    s.within_mergeInto t (R := Grows .full _ _) _ _ _ h2
  have hwent : Builds .full ⟨m2, [], []⟩ ⟨m3, [], []⟩ := lawful_gotoBuilder _ _ _ _ _ _ _ h3
  have htagged : Builds .full ⟨m3, [], []⟩ ⟨m', [], []⟩ :=
    updateRecord_builds rfl h4 fun _ _ _ _ => ⟨rfl, .inl rfl⟩
  have hsound2 := hstored.sound (hmade.sound hsound)
  -- the state is stored in the entry of the new builder
  obtain ⟨d1, hd1, hcur, hnone, hvalues1, hops1⟩ := orphanBytecode_opens h1
  have htip := tip_of_current hd1 hcur
  rw [← hvalues1] at hvalues
  obtain ⟨hlen, hcarries⟩ := VmState.mergeInto_carries hone hvalues h2
  obtain ⟨code, happ, hrun⟩ := hcarries.code
  -- and then the block is closed
  obtain ⟨d', hd', h3⟩ := gotoBuilder_eq_ok h3
  obtain ⟨x, d, hx, hclosed, helse, hd, hmem, hshut⟩ := transfer_closes hsound2 h3
  obtain rfl : d1.entry = x := some.inj (htip.symm.trans (happ.tip.symm.trans hx))
  have hsettled : m3.Settled [] d1.entry :=
    settled_of_mem (hwent.sound hsound2) hd hmem (hshut _)
  have hlast : Builds .full ⟨m2, [], []⟩ ⟨m', [], []⟩ := hwent.trans htagged
  obtain ⟨d4, hd4, hbelow⟩ := htagged.below.builders _ d hd
  obtain ⟨e', he', hbelow'⟩ := hlast.below.builders _ d' hd'
  have hentry : d4.entry = d1.entry := by
    obtain ⟨d2, hd2, hbelow2⟩ := hstored.below.builders _ d1 hd1
    obtain ⟨d3, hd3, hbelow3⟩ := hlast.below.builders _ d2 hd2
    cases hd4.symm.trans hd3
    exact hbelow3.entry.trans hbelow2.entry
  have hops4 : ∀ x, m'.ops x = m3.ops x := by
    obtain ⟨_, _, -, -, rfl⟩ := updateRecord_eq_ok.1 h4
    exact fun _ => rfl
  have hkept := hlast.below.values
  refine ⟨hlen, d4, e', code, hd4, he', ?_, ?_, ?_, fun x hx => ?_,
    fun g hosts σ hg hroom hcomp => ?_⟩
  · rw [hentry]
    exact hbelow.sequence.subset hmem
  · rw [hentry]
    exact (htagged.settled hsettled).1
  · rw [hentry, hbelow'.entry, hops4, hclosed, happ.ops _ htip, hnone, nil_append]
  · grind [happ.elsewhere]
  · obtain ⟨σ', htakes, -, hmoved, -⟩ := hrun g hosts σ (fun v ty hv => hg v ty (hkept v ty hv))
      (le_trans (Graph.HasValues.size hkept) hroom) hcomp
    exact ⟨σ', htakes, hmoved⟩

include hsound hone hvalues in
/-- A later arrival: the builder that is left stays as it is, and the new one leads to the
    target. -/
theorem mergeBuilder_delivers (h : (mergeBuilder s t target).run m = .ok (e, m')) :
    s.slots.length = t.slots.length ∧ m.Readies b (s.slots.zip s.slots) m' ∧
      m'.Delivers e target (s.slots.zip t.slots) := by
  have hbuilds : Builds .full ⟨m, [], []⟩ ⟨m', [], []⟩ :=
    lawful_mergeBuilder rfl s t target _ _ _ _ _ h
  obtain ⟨hlen, d, d', code, hd, hd', hmem, hsettled, hcode, helse, hrun⟩ :=
    mergeBuilder_code hsound hone hvalues h
  refine ⟨hlen, ⟨fun p hp => ?_, [], fun x hx => ?_, fun g hosts σ _ _ _ => ?_⟩,
    fun g hosts σ hg hroom hcomp => ?_⟩
  · have hlt := hvalues p.1 (mem_append_left _ (of_mem_zip hp).1)
    obtain ⟨ty, hty⟩ := isSome_iff_exists.1 (Arena.get?_isSome.2 hlt)
    exact ⟨ty, hty, hbuilds.below.values _ ty (eq_of_mem_zip hp ▸ hty)⟩
  · rw [append_nil]
    refine helse x ?_
    rintro rfl
    exact hsettled.tip_ne hx
  · exact ⟨σ, .nil, rfl, fun p hp => congrArg (σ.values[·]?) (eq_of_mem_zip hp).symm⟩
  · obtain ⟨σ', htakes, hmoved⟩ := hrun g hosts σ hg.values hroom hcomp
    have hat : g.HasCode d.entry ([] ++ code ++ [⟨.goto, [], none, [d'.entry]⟩]) :=
      hcode ▸ hg.blocks e d _ hd hmem hsettled
    refine ⟨d, d', σ', hd, hd', .tail (hat.arrives (htakes _ _)) ?_, hmoved⟩
    exact .jump (by simpa using hat.hasOp) step_goto

end Emit

/-! ## Records of states -/

/-- The license of what lets no builder start anew. -/
def License.once : License := ⟨true, false, true, true⟩

/-- A state that a builder starts from stays. -/
theorem Builds.initial? (h : Builds .once ⟨m, [], []⟩ ⟨m', [], []⟩)
    (hs : m.initial? b = some s) : m'.initial? b = some s := by
  obtain ⟨d, r, hd, hr, hs⟩ := record?_bind_eq_some.1 hs
  obtain ⟨e, he, hde⟩ := h.below.builders b d hd
  rcases hde.record with hsame | ⟨-, r1, r2, hr1, hr2, -, hkept⟩
  · exact record?_bind_eq_some.2 ⟨e, r, he, hsame.trans hr, hs⟩
  · grind [record?_bind_eq_some, Method.initial?, License.once]

namespace Emit

open Method

theorem updateRecord_appended {f : BytecodeRecord → BytecodeRecord}
    (h : (updateRecord c f).run m = .ok (u, m')) : m.Appended b [] m' := by
  obtain ⟨d, r, -, -, rfl⟩ := updateRecord_eq_ok.1 h
  refine .of_graph_eq rfl fun a => ?_
  rw [builder?_withBuilder]
  split
  · rw [Option.map_map]
    rfl
  · rfl

/-- However a state is carried to a target, it leaves in some values of the builder, and on the way
    to the target these are moved to the slots that the target starts from. -/
theorem carryState_delivers (hsound : Draft.Sound ⟨m, [], []⟩)
    (hstate : m.state? source = some s) (hone : s.carriers ≤ 1)
    (hs : ∀ v ∈ s.slots, v < m.graph.values.size)
    (ht : ∀ t, m.initial? target = some t → ∀ v ∈ t.slots, v < m.graph.values.size)
    (h : (carryState source target).run m = .ok (e, m')) :
    ∃ t us, m'.initial? target = some t ∧ us.length = s.slots.length ∧
      t.slots.length = us.length ∧ m.Readies source (s.slots.zip us) m' ∧
      m'.Delivers e target (us.zip t.slots) := by
  have hbuilds : Builds .once ⟨m, [], []⟩ ⟨m', [], []⟩ :=
    lawful_carryState rfl source target _ _ _ _ _ h
  obtain ⟨s', d, r, hs', hd, hr, ⟨t, hi, h⟩ | ⟨-, rfl, t, m₁, m2, h1, h2, h3⟩⟩ :=
    carryState_eq_ok h <;> cases hstate.symm.trans hs'
  · have hinit : m.initial? target = some t := record?_bind_eq_some.2 ⟨d, r, hd, hr, hi⟩
    obtain ⟨hlen, hreadies, hdelivers⟩ := mergeBuilder_delivers hsound hone
      (fun v hv => (mem_append.1 hv).elim (hs v) (ht t hinit v)) h
    exact ⟨t, s.slots, hbuilds.initial? hinit, rfl, hlen.symm, hreadies, hdelivers⟩
  · obtain ⟨hlen, hcarries⟩ := VmState.dealias_carries hs h1
    have hstarts : m2.initial? target = some t := by
      obtain ⟨d, r, hd, hr, rfl⟩ := updateRecord_eq_ok.1 h2
      refine record?_bind_eq_some.2 ⟨{ d with
        bytecode := some { r with initial := some t, state := some t } }, _, ?_, rfl, rfl⟩
      rw [builder?_withBuilder, if_pos rfl, hd]
      rfl
    have htagged : Builds .once ⟨m2, [], []⟩ ⟨m', [], []⟩ :=
      updateRecord_builds rfl h3 fun _ _ _ _ => ⟨rfl, .inr (.inr rfl)⟩
    have hinit := htagged.initial? hstarts
    refine ⟨t, t.slots, hinit, hlen, rfl, ?_, fun g hosts σ _ _ _ => ?_⟩
    · exact ((hcarries.followed (.of_appended_nil (updateRecord_appended h2))).followed
        (.of_appended_nil (updateRecord_appended h3))).readies
    · obtain ⟨d, -, hd, -⟩ := record?_bind_eq_some.1 hinit
      exact ⟨d, d, σ, hd, hd, .refl, fun p hp => congrArg (σ.values[·]?) (eq_of_mem_zip hp).symm⟩

/-- What is left of a registration behind the code for the state appends nothing. -/
theorem addSuccessor_cases (h : (addSuccessor source target).run m = .ok (e, m')) :
    ∃ m₁, (carryState source target).run m = .ok (e, m₁) ∧ m₁.Carries source [] [] m' ∧
      Builds .once ⟨m₁, [], []⟩ ⟨m', [], []⟩ := by
  obtain ⟨m₁, m2, h1, h2, rfl⟩ := addSuccessor_eq_ok h
  have hnoted : m₁.Appended source [] (m₁.noted source target) ∧
      Builds .once ⟨m₁, [], []⟩ ⟨m₁.noted source target, [], []⟩ := by
    unfold noted
    split
    · exact ⟨.of_graph_eq rfl fun _ => rfl, lawful_markLoop rfl m₁ ⟨⟩ _ [] [] rfl⟩
    · exact ⟨.refl m₁ source, .refl⟩
  have hrecorded : Builds .once ⟨m₁.noted source target, [], []⟩ ⟨m2, [], []⟩ :=
    updateRecord_builds rfl h2 fun _ _ _ _ => ⟨rfl, .inr (.inr rfl)⟩
  have hqueued : m2.Appended source [] (m2.enqueued target) ∧
      Builds .once ⟨m2, [], []⟩ ⟨m2.enqueued target, [], []⟩ := by
    unfold enqueued
    split
    · exact ⟨.refl m2 source, .refl⟩
    · refine ⟨.of_graph_eq rfl fun _ => rfl, Step.builds ?_⟩
      refine .quiet ?_ (.inr rfl) (.inl rfl)
      exact ⟨rfl, rfl, rfl, rfl, rfl, fun _ _ h => h, fun _ _ h => h⟩
  exact ⟨m₁, h1, .of_appended_nil ((hnoted.1.trans (updateRecord_appended h2)).trans hqueued.1),
    (hnoted.2.trans hrecorded).trans hqueued.2⟩

end Emit

/-! ## Registrations -/

namespace Call

/-- A call that only emits. -/
theorem of_apply_emit {α : Type} {c : Call} {x : Emit α}
    (hc : c.run = discard (liftM x : Build α)) (h : c.apply m = .ok m') :
    ∃ a, x.run m = .ok (a, m') := by
  obtain ⟨r, h⟩ := apply_eq_ok.1 h
  rw [hc] at h
  rcases bind_eq_ok.1 h with ⟨a, m₁, h1, h⟩ | ⟨err, m₁, h1, -⟩
  · obtain ⟨a', h1, -⟩ := lift_eq_ok.1 h1
    obtain ⟨-, rfl⟩ := pure_eq_ok.1 h
    exact ⟨a', h1⟩
  · obtain ⟨a', -, heq⟩ := lift_eq_ok.1 h1
    cases heq

end Call

open Emit in
/-- A state was carried, and behind the code for it control is transferred to the builder that this
    gave. -/
def Method.Registers (m : Method) (source target : BuilderId) (m' : Method) : Prop :=
  ∃ e m₁ m2 d opcode operands, (carryState source target).run m = .ok (e, m₁) ∧
    m₁.Carries source [] [] m2 ∧ Builds .once ⟨m₁, [], []⟩ ⟨m2, [], []⟩ ∧
    m2.builder? e = some d ∧ (opcode = .goto ∨ ∃ cmp, opcode = .branch cmp) ∧
    (transfer source opcode operands [d.entry]).run m2 = .ok ((), m')

open Emit in
theorem Call.registers_of_apply {c : Call}
    (hc : c.registers = some (source, target)) (h : c.apply m = .ok m') :
    m.Registers source target m' := by
  obtain ⟨r, h⟩ := apply_eq_ok.1 h
  obtain ⟨e, m₁, m2, d, opcode, operands, h1, h2, hd, hop, h3⟩ := registers_eq_ok hc h
  obtain ⟨n, hcarry, hcarries, hbuilds⟩ := addSuccessor_cases h1
  have hturns : m₁.Carries source [] [] m2 := by
    rcases h2 with rfl | h2 | ⟨ty, z, h2⟩
    · exact .of_appended_nil (.refl _ _)
    · exact .of_appended_nil (updateRecord_appended h2)
    · exact zero_carries h2
  have : Rewrites source (Grows .once [] []) := rewrites_grows rfl source
  exact ⟨e, n, m2, d, opcode, operands, hcarry, hcarries.followed hturns,
    hbuilds.trans (h2.within (R := Grows .once [] [])), hd, hop, h3⟩

/-! ## Arrivals -/

namespace Method

variable {source target : BuilderId} {s t : VmState} {us : List ValueId}

/-- A value that was given a scalar of a value of the same type has one of its type. -/
theorem Readies.computed {moves : List (ValueId × ValueId)} {σ' : Machine}
    (h : m.Readies b moves m') (hp : p ∈ moves) (hg : g.HasValues m) (hg' : g.HasValues m')
    (hcomp : σ.Computed g p.1) (hmoved : σ'.values[p.2]? = σ.values[p.1]?) : σ'.Computed g p.2 := by
  obtain ⟨a, ha, hfits⟩ := hcomp
  obtain ⟨ty, hty, hty'⟩ := h.typed p hp
  refine ⟨a, hmoved.trans ha, fun ty' hget => ?_⟩
  cases (hg' p.2 ty hty').symm.trans hget
  exact hfits ty (hg p.1 ty hty)

/-- A state that leaves in some values gets to where these are delivered. -/
theorem Delivers.arrives {hosts : Bindings String HostFn} {σ1 : Machine}
    (h : m'.Delivers e target (us.zip t.slots)) (hready : m.Readies source (s.slots.zip us) m')
    (hlen : us.length = s.slots.length) (hlen' : t.slots.length = us.length)
    (hg : g.HasValues m) (hg' : g.Holds m') (hroom : m'.graph.values.size ≤ σ1.values.size)
    (hcomp : ∀ v ∈ s.slots, σ.Computed g v)
    (hmoved : ∀ p ∈ s.slots.zip us, σ1.values[p.2]? = σ.values[p.1]?) :
    ∃ d d' σ2, m'.builder? e = some d ∧ m'.builder? target = some d' ∧
      g.Arrives hosts ((d.entry, 0), σ1) ((d'.entry, 0), σ2) ∧
      ∀ (i : Nat) v w, s.slots[i]? = some v → t.slots[i]? = some w →
        σ2.values[w]? = σ.values[v]? := by
  have hpair : ∀ (i : Nat) v u, s.slots[i]? = some v → us[i]? = some u → (v, u) ∈ s.slots.zip us :=
    fun i v u hv hu => List.mem_of_getElem? (List.getElem?_zip_eq_some.2 ⟨hv, hu⟩)
  obtain ⟨d, d', σ2, hd, hd', harr, hgiven⟩ := h g hosts σ1 hg' hroom (by
    intro p hp
    obtain ⟨i, hi⟩ := List.mem_iff_getElem?.1 (List.of_mem_zip hp).1
    obtain ⟨hlt, -⟩ := List.getElem?_eq_some_iff.1 hi
    have hv : s.slots[i]? = some s.slots[i] := List.getElem?_eq_getElem (hlen ▸ hlt)
    exact hready.computed (hpair i _ _ hv hi) hg hg'.values (hcomp _ (List.mem_of_getElem? hv))
      (hmoved _ (hpair i _ _ hv hi)))
  refine ⟨d, d', σ2, hd, hd', harr, fun i v w hv hw => ?_⟩
  obtain ⟨hlt, -⟩ := List.getElem?_eq_some_iff.1 hw
  have hu : us[i]? = some us[i] := List.getElem?_eq_getElem (hlen' ▸ hlt)
  have hmem : (us[i], w) ∈ us.zip t.slots :=
    List.mem_of_getElem? (List.getElem?_zip_eq_some.2 ⟨hu, hw⟩)
  exact (hgiven _ hmem).trans (hmoved _ (hpair i v _ hv hu))

/-- The code of a registration and what it does: it runs through, and if control is then
    transferred, it arrives at the successor with the state. -/
theorem Registers.crosses (h : m.Registers source target m')
    (hsound : Draft.Sound ⟨m, [], []⟩)
    (hstate : m.state? source = some s) (hone : s.carriers ≤ 1)
    (hs : ∀ v ∈ s.slots, v < m.graph.values.size)
    (ht : ∀ t, m.initial? target = some t → ∀ v ∈ t.slots, v < m.graph.values.size) :
    ∃ t d d' x code op, m'.initial? target = some t ∧ t.slots.length = s.slots.length ∧
      m'.builder? source = some d ∧ .block x ∈ d.sequence ∧ m'.Settled [] x ∧
      m'.builder? target = some d' ∧ m'.ops x = m.ops x ++ code ++ [op] ∧
      (op.opcode = .goto ∨ ∃ cmp, op.opcode = .branch cmp) ∧
      ∀ (g : Graph) (hosts : Bindings String HostFn) (σ : Machine), g.Holds m' →
        g.values.size ≤ σ.values.size → (∀ v ∈ s.slots, σ.Computed g v) →
        ∃ σ1, Exec.Takes g hosts code σ σ1 ∧
          ∀ p y σ2, (Exec.step g hosts p op).run.run σ1 = .ok (.ok (.jump y), σ2) →
            ∃ σ3, g.Arrives hosts ((y, 0), σ2) ((d'.entry, 0), σ3) ∧
              ∀ (i : Nat) v w, s.slots[i]? = some v → t.slots[i]? = some w →
                σ3.values[w]? = σ.values[v]? := by
  obtain ⟨e, m₁, m2, de, opcode, operands, hcarry, hcarries, hnoted, hde, hop, htransfer⟩ := h
  obtain ⟨t, us, hinit, hlen, hlen', hreadies, hdelivers⟩ :=
    Emit.carryState_delivers hsound hstate hone hs ht hcarry
  have hcarried : Builds .once ⟨m, [], []⟩ ⟨m₁, [], []⟩ :=
    Emit.lawful_carryState rfl source target _ _ _ _ _ hcarry
  have hclosed : Builds .once ⟨m2, [], []⟩ ⟨m', [], []⟩ :=
    Emit.transfer_builds_entry hde hop htransfer
  have hrest : Builds .once ⟨m₁, [], []⟩ ⟨m', [], []⟩ := hnoted.trans hclosed
  have hsound2 := hnoted.sound (hcarried.sound hsound)
  have hready := hreadies.followed hcarries
  obtain ⟨code, hcode, hrun⟩ := hready.code
  obtain ⟨x, d, htip, hops, -, hd, hmem, hshut⟩ := Emit.transfer_closes hsound2 htransfer
  have hsettled : m'.Settled [] x := settled_of_mem (hclosed.sound hsound2) hd hmem (hshut x)
  obtain ⟨d1, -, hd1, -⟩ := record?_bind_eq_some.1 hinit
  obtain ⟨d', hd', hbelow'⟩ := hrest.below.builders _ d1 hd1
  refine ⟨t, d, d', x, code, ⟨opcode, operands, none, [de.entry]⟩, hrest.initial? hinit,
    hlen'.trans hlen, hd, hmem, hsettled, hd', by rw [hops, hcode x htip], hop,
    fun g hosts σ hg hroom hcomp => ?_⟩
  have hg2 := hg.of_builds hclosed
  have hg1 := hg2.of_builds hnoted
  obtain ⟨σ1, htakes, hsize, hmoved⟩ := hrun g hosts σ hg2.values
    (le_trans hg2.values.size hroom) fun p hp => hcomp p.1 (of_mem_zip hp).1
  refine ⟨σ1, htakes, fun p y σ2 hstep => ?_⟩
  obtain ⟨rfl, rfl⟩ := eq_of_step_transfer hop hstep
  obtain ⟨de1, e1, σ3, hde1, he1, harr, hslots⟩ := hdelivers.arrives hreadies hlen hlen'
    (hg1.of_builds hcarried).values hg1 (le_trans hg1.values.size (hsize ▸ hroom)) hcomp hmoved
  obtain ⟨de2, hde2, hbelow⟩ := hnoted.below.builders _ de1 hde1
  cases hde.symm.trans hde2
  cases hd1.symm.trans he1
  rw [← hbelow.entry, ← hbelow'.entry] at harr
  exact ⟨σ3, harr, hslots⟩

end Method

/-- The run of an evaluator that starts with the given locals gets to a place with a machine. -/
def Evaluator.Visits (ev : Evaluator) (locals : Bindings SymbolId Scalar) (p : BlockId × Nat)
    (σ : Machine) : Prop :=
  ev.graph.Arrives ev.hosts ((Graph.entry, 0), ev.start locals) (p, σ)

namespace Method

variable {source target : BuilderId} {s : VmState}

/-- A state arrives at a registered successor as it left.  Let a caller have built `m0`, then
    register a successor of a builder, then do anything but let a builder start anew, and then
    connect the method; the state of the builder has at most one stack or array, and states are
    made of values that there are.  The registration adds `code` and a transfer `op` to the end of a
    block `x` of the builder.  In every run, `code` runs through if the slots of the state have
    scalars of their types in front of it.  And whenever control leaves through `op`, it goes on to
    the entry of the successor, and there each slot of the state that the successor starts from has
    the scalar that the corresponding slot had in front of `code`. -/
theorem registration_carries {name : String} {config : Config} {before later : List Call}
    {c : Call} {m₀ m₁ m₂ : Method} {r : Except BuildError Unit}
    (hbefore : (Method.new name config).after before = .ok m₀)
    (hregisters : c.registers = some (source, target)) (hc : c.apply m₀ = .ok m₁)
    (hlater : m₁.after later = .ok m₂) (honce : ∀ c ∈ later, c.restarts = false)
    (hconnect : Build.connect.run.run m₂ = .ok (r, m')) (hstate : m₀.state? source = some s)
    (hone : s.carriers ≤ 1) (hs : ∀ v ∈ s.slots, v < m₀.graph.values.size)
    (ht : ∀ t, m₀.initial? target = some t → ∀ v ∈ t.slots, v < m₀.graph.values.size) :
    ∃ t d d' x i code op, m'.initial? target = some t ∧ t.slots.length = s.slots.length ∧
      m₁.builder? source = some d ∧ .block x ∈ d.sequence ∧ m'.builder? target = some d' ∧
      i = (m₀.ops x).length ∧ m₁.ops x = m₀.ops x ++ code ++ [op] ∧
      m'.graph.HasCode x (m₁.ops x) ∧ (op.opcode = .goto ∨ ∃ cmp, op.opcode = .branch cmp) ∧
      ∀ (ev : Evaluator) (locals : Bindings SymbolId Scalar), ev.graph = m'.graph →
        (∀ σ, ev.Visits locals (x, i) σ → (∀ v ∈ s.slots, σ.Computed ev.graph v) →
          ∃ σ₁, ev.graph.Arrives ev.hosts ((x, i), σ) ((x, i + code.length), σ₁)) ∧
        ∀ σ₁ y σ₂, ev.Visits locals (x, i + code.length) σ₁ →
          (Exec.step ev.graph ev.hosts (x, i + code.length) op).run.run σ₁ =
            .ok (.ok (.jump y), σ₂) →
          ∃ σ, ev.Visits locals (x, i) σ ∧
            (Exec.runOps ev.graph ev.hosts x code i).run.run σ = .ok (.ok .next, σ₁) ∧
            ((∀ v ∈ s.slots, σ.Computed ev.graph v) →
              ∃ σ₃, ev.graph.Arrives ev.hosts ((y, 0), σ₂) ((d'.entry, 0), σ₃) ∧
                ∀ (k : Nat) v w, s.slots[k]? = some v → t.slots[k]? = some w →
                  ∃ a, σ.Has v a ∧ σ₃.Has w a) := by
  have hreach : m₀.Reachable := ⟨name, config, before, hbefore⟩
  obtain ⟨t, d, d₁, x, code, op, hinit, hlen, hd, hmem, hsettled, hd₁, hops, hop, hcross⟩ :=
    (Call.registers_of_apply hregisters hc).crosses hreach.sound hstate hone
      hs ht
  -- what was finished by the registration stays and is in the connected graph
  have hbuilds : Builds .once ⟨m₁, [], []⟩ ⟨m₂, [], []⟩ :=
    after_builds hlater rfl rfl (fun c hc h => absurd ((honce c hc).symm.trans h) nofun)
      fun _ _ _ => rfl
  have hreach₂ : m₂.Reachable := by
    refine ⟨name, config, before ++ c :: later, (after_append hbefore).trans ?_⟩
    rw [Method.after, hc]
    exact hlater
  obtain ⟨_, _, hrun, hholds, hkept⟩ := hreach₂.connect_holds
  cases hconnect.symm.trans hrun
  have hg : m'.graph.Holds m₁ := hholds.of_builds hbuilds
  have hcode : m'.graph.HasCode x (m₁.ops x) := hg.blocks source d x hd hmem hsettled
  have hinit' : m'.initial? target = some t := by
    obtain ⟨d₂, rec, hd₂, hrec, hrt⟩ := record?_bind_eq_some.1 (hbuilds.initial? hinit)
    obtain ⟨d₃, hd₃, -, hsame⟩ := hkept target d₂ hd₂
    exact record?_bind_eq_some.2 ⟨d₃, rec, hd₃, hsame.trans hrec, hrt⟩
  obtain ⟨d₂, hd₂, hbelow⟩ := hbuilds.below.builders _ d₁ hd₁
  obtain ⟨d', hd', hentry, -⟩ := hkept target d₂ hd₂
  refine ⟨t, d, d', x, _, code, op, hinit', hlen, hd, hmem, hd', rfl, hops, hcode, hop,
    fun ev locals hev => ?_⟩
  rw [hops, ← hev] at hcode
  rw [← hev] at hg
  have hroom : ∀ {p σ}, ev.Visits locals p σ → ev.graph.values.size ≤ σ.values.size := by
    intro p σ hvisits
    rw [show σ.values.size = _ from hvisits.room]
    exact Nat.le_of_eq (Array.size_replicate).symm
  refine ⟨fun σ hvisits hcomp => ?_, fun σ₁ y σ₂ hvisits hstep => ?_⟩
  · obtain ⟨σ₁, htakes, -⟩ := hcross ev.graph ev.hosts σ hg (hroom hvisits) hcomp
    exact ⟨σ₁, hcode.arrives (htakes x _)⟩
  · obtain ⟨σ, hvisitsσ, hrunσ⟩ := hcode.through hvisits
    refine ⟨σ, hvisitsσ, hrunσ, fun hcomp => ?_⟩
    obtain ⟨σ₁', htakes, hleave⟩ := hcross ev.graph ev.hosts σ hg (hroom hvisitsσ) hcomp
    cases (htakes x _).symm.trans hrunσ
    obtain ⟨σ₃, harr, hslots⟩ := hleave _ y σ₂ hstep
    rw [hentry, hbelow.entry]
    refine ⟨σ₃, harr, fun k v w hv hw => ?_⟩
    obtain ⟨a, ha, -⟩ := hcomp v (List.mem_of_getElem? hv)
    exact ⟨a, ha, (hslots k v w hv hw).trans ha⟩

/-- A state of two integers. -/
def twoInts (v w : ValueId) : VmState := .array ⟨[v, w], .int32, 0⟩

/-- Two integers, and a builder that has exchanged them since it was arrived at. -/
def exchanging : List Call := [
  .constInt 0 .int32 7, .constInt 0 .int32 8, .setVmState (twoInts 0 1), .orphanBytecode 0 none,
  .appendBytecode 1, .orphanBytecode 1 none, .bytecodeGoto 1 2, .replaceState 2 (twoInts 1 0)]

/-- A way back to its own beginning. -/
def again : Call := .bytecodeIfCmp 2 .lt 2 0 1

/-- A run through two constants and then to a block. -/
theorem visits_exchange (hroom : g.values.size = 4)
    (hty0 : g.values.get? 0 = some .int32) (hty1 : g.values.get? 1 = some .int32)
    (hb0 : (g.block? 0).map (fun blk => (blk.operations, blk.next)) =
      some ([⟨.constInt 7, [], some 0, []⟩, ⟨.constInt 8, [], some 1, []⟩], some 2))
    (hb2 : (g.block? 2).map (·.operations) = some [⟨.goto, [], none, [4]⟩]) :
    ∃ σ, Evaluator.Visits { graph := g } .empty (4, 0) σ ∧ σ.Has 0 (.int 7) ∧
      σ.Has 1 (.int 8) := by
  obtain ⟨blk, hblk, heq⟩ := map_eq_some_iff.1 hb0
  obtain ⟨hops, hnext⟩ := Prod.mk.inj heq
  obtain ⟨blk', hblk', hops'⟩ := map_eq_some_iff.1 hb2
  have hfirst : g.HasOp (0, 0) ⟨.constInt 7, [], some 0, []⟩ :=
    ⟨by decide, blk, hblk, by rw [hops]; rfl⟩
  have hsecond : g.HasOp (0, 1) ⟨.constInt 8, [], some 1, []⟩ :=
    ⟨by decide, blk, hblk, by rw [hops]; rfl⟩
  have hfalls : g.FallsTo (0, 2) 2 := ⟨by decide, blk, hblk, by rw [hops]; rfl, hnext⟩
  have hgoes : g.HasOp (2, 0) ⟨.goto, [], none, [4]⟩ :=
    ⟨by decide, blk', hblk', by rw [show blk'.operations = _ from hops']; rfl⟩
  let σ := Evaluator.start { graph := g } .empty
  have hσ : σ.values.size = 4 := (Array.size_replicate).trans hroom
  refine ⟨(σ.put 0 (.int 7)).put 1 (.int 8), ?_, ?_, ?_⟩
  · exact (((Relation.ReflTransGen.single (.next hfirst (step_constInt hty0))).tail
      (.next hsecond (step_constInt hty1))).tail (.fall hfalls)).tail
      (.jump hgoes step_goto)
  · rw [Machine.Has, getElem?_put_of_ne (by decide)]
    exact has_put (by rw [hσ]; decide) _
  · exact has_put (by rw [size_put, hσ]; decide) _

/-- A case of it: a builder goes back to its own beginning with two values exchanged. -/
theorem registration_carries_exchange : ∃ m₀ m₁ m₂ r m' s t σ σ₃,
    (Method.new "exchange" {}).after exchanging = .ok m₀ ∧ again.apply m₀ = .ok m₁ ∧
    m₁.after [.returnVoid 2] = .ok m₂ ∧ Build.connect.run.run m₂ = .ok (r, m') ∧
    m₀.state? 2 = some s ∧ s.slots = [1, 0] ∧ m'.initial? 2 = some t ∧ t.slots = [0, 1] ∧
    Evaluator.Visits { graph := m'.graph } .empty (4, 0) σ ∧ σ.Has 0 (.int 7) ∧ σ.Has 1 (.int 8) ∧
    m'.graph.Arrives .empty ((4, 0), σ) ((4, 0), σ₃) ∧ σ₃.Has 0 (.int 8) ∧
    σ₃.Has 1 (.int 7) := by
  have hcheck : passes ((Method.new "exchange" {}).after exchanging) (fun m₀ =>
      passes (again.apply m₀) fun m₁ => passes (m₁.after [.returnVoid 2]) fun m₂ =>
      passes (Build.connect.run.run m₂) fun p => decide (
        m₀.graph.values.size = 2 ∧
        (m₀.state? 2).map (fun s => (s.slots, s.carriers)) = some ([1, 0], 1) ∧
        (m₀.initial? 2).map (·.slots) = some [0, 1] ∧
        (m₁.builder? 2).map (·.sequence) = some [.block 4] ∧ m₀.ops 4 = [] ∧
        m₁.ops 4 = [⟨.branch .lt, [0, 1], none, [6]⟩] ∧
        (p.2.initial? 2).map (·.slots) = some [0, 1] ∧
        (p.2.builder? 2).map (·.entry) = some 4 ∧ p.2.graph.values.size = 4 ∧
        p.2.graph.values.get? 0 = some .int32 ∧ p.2.graph.values.get? 1 = some .int32 ∧
        (p.2.graph.block? 0).map (fun blk => (blk.operations, blk.next)) =
          some ([⟨.constInt 7, [], some 0, []⟩, ⟨.constInt 8, [], some 1, []⟩], some 2) ∧
        (p.2.graph.block? 2).map (·.operations) = some [⟨.goto, [], none, [4]⟩])) = true := by
    decide +kernel
  obtain ⟨m₀, h₀, hcheck⟩ := of_passes hcheck
  obtain ⟨m₁, h₁, hcheck⟩ := of_passes hcheck
  obtain ⟨m₂, h₂, hcheck⟩ := of_passes hcheck
  obtain ⟨⟨r, m'⟩, h₃, hsize, hstate, hinit, hseq, hnone, hlast, hinit', hentry, hroom, hty₀, hty₁,
    hb₀, hb₂⟩ := of_passes_decide hcheck
  obtain ⟨s, hs, hslots⟩ := Option.map_eq_some_iff.1 hstate
  obtain ⟨hslots, hone⟩ := Prod.mk.inj hslots
  obtain ⟨t, d, d', x, i, code, op, ht, -, hd, hmem, hd', rfl, hops, hcode, -, hrun⟩ :=
    registration_carries h₀ rfl h₁ h₂ (by simp [Call.restarts]) h₃ hs hone.le
      (by simp [hslots, hsize]) (by
        intro t ht
        rw [ht] at hinit
        rw [show t.slots = [0, 1] from Option.some.inj hinit]
        simp [hsize])
  -- the block of the registration, and that nothing but the branch was added to it
  rw [hd] at hseq
  rw [show d.sequence = [.block 4] from Option.some.inj hseq, List.mem_singleton] at hmem
  cases hmem
  rw [hlast, hnone] at hops
  obtain ⟨rfl, rfl⟩ : code = [] ∧ op = ⟨.branch .lt, [0, 1], none, [6]⟩ := by
    cases code with
    | nil =>
      cases hops
      exact ⟨rfl, rfl⟩
    | cons op' code => simp at hops
  rw [ht] at hinit'
  have htslots : t.slots = [0, 1] := Option.some.inj hinit'
  rw [hd'] at hentry
  have hentry : d'.entry = 4 := Option.some.inj hentry
  obtain ⟨σ, hvisits, hhas₀, hhas₁⟩ := visits_exchange hroom hty₀ hty₁ hb₀ hb₂
  rw [hnone] at hrun
  have hstep : (Exec.step m'.graph .empty (4, 0) ⟨.branch .lt, [0, 1], none, [6]⟩).run.run σ =
      .ok (.ok (.jump 6), σ) := Exec.step_branch rfl hty₀ hhas₀ hhas₁
  obtain ⟨σ', -, hsame, harrives⟩ := (hrun { graph := m'.graph } .empty rfl).2 σ 6 σ hvisits hstep
  cases hsame
  obtain ⟨σ₃, harr, hmoved⟩ := harrives (by
    rw [hslots]
    intro v hv
    fin_cases hv
    · refine ⟨_, hhas₁, fun ty hty => ?_⟩
      cases hty₁.symm.trans hty
      rfl
    · refine ⟨_, hhas₀, fun ty hty => ?_⟩
      cases hty₀.symm.trans hty
      rfl)
  rw [hslots, htslots] at hmoved
  rw [hentry] at harr
  obtain ⟨a, ha, ha'⟩ := hmoved 0 1 0 rfl rfl
  obtain ⟨b, hb, hb'⟩ := hmoved 1 0 1 rfl rfl
  cases ha.symm.trans hhas₁
  cases hb.symm.trans hhas₀
  rw [hlast, ← List.nil_append [_]] at hcode
  exact ⟨m₀, m₁, m₂, r, m', s, t, σ, σ₃, h₀, h₁, h₂, h₃, hs, hslots, ht, htslots, hvisits, hhas₀,
    hhas₁, .head (.jump hcode.hasOp hstep) harr, ha', hb'⟩

end Method
end MethodGraph
