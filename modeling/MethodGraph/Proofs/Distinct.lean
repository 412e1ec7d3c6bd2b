import MethodGraph.Proofs.States
/-!
  States that bytecode builders start from have distinct slots.

  A caller may push a value twice, duplicate the top of a stack or move elements of an array, so
  that slots share a value.  A builder that a state arrives at for the first time, or that is made
  to start anew, gets a state in which each slot has a value of its own.  Only the builder that a
  registration makes for a later arrival starts from the state as it is.

  The crux is an invariant of methods (`Method.Distinct`): all states are made of values that there
  are, and what a builder starts from has distinct slots.  Every call keeps it
  (`Call.keeps_distinct`), and so do all calls one after another (`Method.after_distinct`).
-/

namespace MethodGraph

open Nat List VmState OperandStack

variable {target : BuilderId} {c : Call} {u : Unit} {v : ValueId} {s : VmState}

variable {α β : Type} {m m1 m' : Method} {b e : BuilderId}

/-! ## The invariant -/

namespace Method

variable {made made' : BuilderId → Prop} {f : BytecodeRecord → BytecodeRecord}

/-- All states are made of values of the method, and the slots of a state that a builder starts from
    are distinct, unless the builder is one of those that were made. -/
structure Distinct (made : BuilderId → Prop) (m : Method) : Prop where
  held : ∀ s, m.vmState = some s → m.Owns s
  states : ∀ b s, m.state? b = some s → m.Owns s
  initials : ∀ b s, m.initial? b = some s → m.Owns s ∧ (¬ made b → s.slots.Nodup)

namespace Distinct

theorem new (name : String) (config : Config) (made : BuilderId → Prop) :
    (Method.new name config).Distinct made := by
  have hnone : ∀ b, (Method.new name config).record? b = none := by
    intro b
    match b with
    | 0 => rfl
    | b + 1 => rfl
  refine ⟨fun _ h => (nomatch h), fun b s h => ?_, fun b s h => ?_⟩
  · rw [state?, hnone] at h
    cases h
  · rw [initial?, hnone] at h
    cases h

theorem weaken (h : m.Distinct made) (hmade : ∀ b, made b → made' b) : m.Distinct made' :=
  ⟨h.held, h.states, fun b s hs => ⟨(h.initials b s hs).1, fun hb =>
    (h.initials b s hs).2 fun hold => hb (hmade b hold)⟩⟩

theorem same (h : m.Distinct made) (hstates : m.SameStates m')
    (hsize : m.graph.values.size ≤ m'.graph.values.size) : m'.Distinct made where
  held s hs := (h.held s (hstates.held ▸ hs)).mono hsize
  states b s hs := (h.states b s (hstates.state b ▸ hs)).mono hsize
  initials b s hs := by
    obtain ⟨howns, hdistinct⟩ := h.initials b s (hstates.initial b ▸ hs)
    exact ⟨howns.mono hsize, hdistinct⟩

theorem of_lawful {x : Emit α} {a : α} (h : m.Distinct made) (hx : Emit.Lawful .stateless x)
    (hrun : x.run m = .ok (a, m')) : m'.Distinct made := by
  obtain ⟨hstates, hsize, -⟩ := hx.sameStates hrun
  exact h.same hstates hsize

end Distinct
end Method

variable {made : BuilderId → Prop}

namespace Emit

open Method

/-- What changing a record does to records. -/
theorem updateRecord_records (h : (updateRecord b f).run m = .ok (u, m')) :
    ∃ r, m.record? b = some r ∧
      m'.vmState = m.vmState ∧ m'.graph = m.graph ∧ m'.builders.size = m.builders.size ∧
      ∀ c, m'.record? c = if b = c then some (f r) else m.record? c := by
  obtain ⟨d, r, hd, hr, rfl⟩ := updateRecord_eq_ok.1 h
  refine ⟨r, ?_, rfl, rfl, size_withBuilder .., fun c => ?_⟩
  · show (m.builder? b).bind (·.bytecode) = _
    rw [hd]
    exact hr
  · grind [record?_withBuilder]

/-- Changing a record, if what becomes of its states is in order. -/
theorem updateRecord_distinct (hm : m.Distinct made) (h : (updateRecord b f).run m = .ok (u, m'))
    (hstate : ∀ r s, m.record? b = some r → (f r).state = some s → r.state = some s ∨ m.Owns s)
    (hinitial : ∀ r s, m.record? b = some r → (f r).initial = some s →
      r.initial = some s ∨ m.Owns s ∧ (¬ made b → s.slots.Nodup)) : m'.Distinct made := by
  obtain ⟨r, hr, hheld, hgraph, -, hrecord⟩ := updateRecord_records h
  have howns : ∀ {s}, m.Owns s → m'.Owns s := by
    intro s hs
    unfold Owns
    rw [hgraph]
    exact hs
  refine ⟨fun s hs => howns (hm.held s (hheld ▸ hs)), fun c s hs => ?_, fun c s hs => ?_⟩
  · have hold : ∀ {r'}, m.record? c = some r' → r'.state = some s → m'.Owns s := by
      intro r' hr' hs'
      refine howns (hm.states c s ?_)
      rw [state?, hr']
      exact hs'
    rw [state?, hrecord] at hs
    split at hs
    · next hbc =>
      subst hbc
      exact (hstate r s hr hs).elim (hold hr) howns
    · exact howns (hm.states c s hs)
  · grind [initial?, hm.initials]

/-- Changing the state that a builder has at the end. -/
theorem setState_distinct {f : BytecodeRecord → Option VmState} (hm : m.Distinct made)
    (h : (updateRecord b fun r => { r with state := f r }).run m = .ok (u, m'))
    (hf : ∀ r s, m.record? b = some r → f r = some s → m.Owns s) : m'.Distinct made :=
  updateRecord_distinct hm h (fun r s hr hs => .inr (hf r s hr hs)) fun _ _ _ hs => .inl hs

theorem startFrom_distinct (hm : m.Distinct made) (hs : m.Owns s) (hdistinct : s.slots.Nodup)
    (h : (startFrom b s).run m = .ok (u, m')) : m'.Distinct made := by
  grind [updateRecord_distinct, startFrom]

/-! ## Registrations -/

variable {made : BuilderId → Prop} (hmade : ∀ b, m.builders.size ≤ b → made b)
  (hm : m.Distinct made)

include hmade hm in
/-- A builder made for a later arrival starts from the state that arrives, whatever that is. -/
theorem mergeBuilder_distinct {t : VmState} (hs : m.Owns s) (ht : m.Owns t)
    (h : (mergeBuilder s t target).run m = .ok (e, m')) : m'.Distinct made := by
  obtain ⟨_, r, m1, m2, m3, -, -, h1, h2, h3, h4⟩ := mergeBuilder_eq_ok h
  have hfresh : made e := (orphanBytecode_eq_ok h1).1 ▸ hmade _ (le_refl _)
  -- up to the record of the new builder no state changes
  have hcode : Lawful .stateless (do
      let b ← orphanBytecode r.index r.name
      s.mergeInto b t
      gotoBuilder b target) :=
    lawful_bind (lawful_orphanBytecode _ _) fun b =>
      lawful_bind (.of_within fun _ _ => s.within_mergeInto t) fun _ => lawful_gotoBuilder b target
  obtain ⟨hstates, hvalues, -⟩ :=
    hcode.sameStates (bind_eq_ok.2 ⟨_, _, h1, bind_eq_ok.2 ⟨_, _, h2, h3⟩⟩)
  refine updateRecord_distinct (hm.same hstates hvalues) h4 (fun _ u _ hu => .inr ?_)
    fun _ u _ hu => .inr ?_
  · cases hu
    exact ht.mono hvalues
  · cases hu
    exact ⟨hs.mono hvalues, fun hnot => absurd hfresh hnot⟩

include hmade hm in
/-- A state is carried to a target, where all builders that this makes count as made. -/
theorem carryState_distinct {source : BuilderId}
    (h : (carryState source target).run m = .ok (e, m')) : m'.Distinct made := by
  obtain ⟨s, d, r, hstate, hd, hr, ⟨t, ht, h⟩ | ⟨-, -, t, m1, m2, h1, h2, h3⟩⟩ :=
    carryState_eq_ok h
  · have howns := (hm.initials target t (record?_bind_eq_some.2 ⟨d, r, hd, hr, ht⟩)).1
    exact mergeBuilder_distinct hmade hm (hm.states source s hstate) howns h
  · obtain ⟨hdistinct, ht⟩ := dealias_takes (hm.states source s hstate) h1
    have hcopied : Lawful .stateless (s.dealias source) := .of_within fun _ _ => s.within_dealias
    obtain ⟨-, -, -, hgraph, -⟩ := updateRecord_records h2
    have hm2 := startFrom_distinct (hm.of_lawful hcopied h1) ht hdistinct h2
    refine setState_distinct hm2 h3 fun r u _ hu => ?_
    cases hu
    unfold Owns
    rw [hgraph]
    exact ht

include hmade hm in
theorem addSuccessor_distinct (h : (addSuccessor b target).run m = .ok (e, m'))
    : m'.Distinct made := by
  obtain ⟨m1, m2, h1, h2, rfl⟩ := addSuccessor_eq_ok h
  have hnoted : m1.SameStates (m1.noted b target) ∧
      m1.graph.values.size ≤ (m1.noted b target).graph.values.size := by
    unfold Method.noted
    split <;> exact ⟨.of_record? rfl fun _ => rfl, le_refl _⟩
  have hqueued : m2.SameStates (m2.enqueued target) ∧
      m2.graph.values.size ≤ (m2.enqueued target).graph.values.size := by
    unfold Method.enqueued
    split <;> exact ⟨.of_record? rfl fun _ => rfl, le_refl _⟩
  have hm1 := (carryState_distinct hmade hm h1).same hnoted.1 hnoted.2
  have hm2 := updateRecord_distinct hm1 h2 (fun _ _ _ hs => .inl hs) fun _ _ _ hs => .inl hs
  exact hm2.same hqueued.1 hqueued.2

/-- Neither what is done between a registration and the transfer to the successor nor the transfer
    changes a state. -/
theorem transferred_distinct {p : BuilderId} {d : Builder} {opcode : Opcode}
    {operands : List ValueId} (hm : m.Distinct made) (h : m.TurnsTo b p m1)
    (hd : m1.builder? p = some d) (hop : opcode = .goto ∨ ∃ cmp, opcode = .branch cmp)
    (h' : (transfer b opcode operands [d.entry]).run m1 = .ok ((), m')) : m'.Distinct made := by
  have hm1 : m1.Distinct made := by
    rcases h with rfl | h | ⟨ty, z, h⟩
    · exact hm
    · exact updateRecord_distinct hm h (fun _ _ _ hs => .inl hs) fun _ _ _ hs => .inl hs
    · exact hm.of_lawful (.of_within fun _ _ => within_zero ty) h
  have hbuilds : Builds .stateless ⟨m1, [], []⟩ ⟨m', [], []⟩ := transfer_builds_entry hd hop h'
  exact hm1.same (hbuilds.sameStates rfl) (Graph.HasValues.size hbuilds.below.values)

/-! ## Edits -/

variable {made : BuilderId → Prop} {u : Unit}

theorem appendBytecode_distinct (hm : m.Distinct made)
    (h : (appendBytecode b).run m = .ok (u, m')) : m'.Distinct made := by
  obtain ⟨_, _, h0, h⟩ := bind_eq_ok.1 h
  obtain ⟨rfl, rfl⟩ := get_eq_ok.1 h0
  obtain ⟨t, m1, h1, h⟩ := bind_eq_ok.1 h
  obtain ⟨_, m2, h2, h⟩ := bind_eq_ok.1 h
  have hs : m.Owns (m.vmState.getD .empty) := by
    cases hheld : m.vmState with
    | none => exact fun v hv => absurd hv not_mem_nil
    | some s => exact hm.held s hheld
  obtain ⟨hdistinct, ht⟩ := dealias_takes hs h1
  have hcopied : Lawful .stateless ((m.vmState.getD .empty).dealias root) :=
    .of_within fun _ _ => within_dealias _
  have hm2 := startFrom_distinct (hm.of_lawful hcopied h1) ht hdistinct h2
  exact hm2.of_lawful (lawful_bind (lawful_append _ _) fun _ => lawful_enqueue rfl b) h

theorem replaceState_distinct {r : Bool} (hm : m.Distinct made) (hs : m.Owns s)
    (h : (replaceState b s).run m = .ok (r, m')) : m'.Distinct made := by
  obtain ⟨rb, _, h1, h⟩ := bind_eq_ok.1 h
  obtain ⟨-, rfl⟩ := record_eq_ok.1 h1
  split at h
  · obtain ⟨-, rfl⟩ := pure_eq_ok.1 h
    exact hm
  · obtain ⟨_, m2, h2, h⟩ := bind_eq_ok.1 h
    obtain ⟨-, rfl⟩ := pure_eq_ok.1 h
    refine setState_distinct hm h2 fun _ t _ ht => ?_
    cases ht
    exact hs

theorem reloadState_distinct (hm : m.Distinct made)
    (h : (reloadState b).run m = .ok (u, m')) : m'.Distinct made := by
  obtain ⟨rb, _, h1, h⟩ := bind_eq_ok.1 h
  obtain ⟨-, rfl⟩ := record_eq_ok.1 h1
  split at h
  · obtain ⟨-, rfl⟩ := pure_eq_ok.1 h
    exact hm
  · next s hs =>
    obtain ⟨t, m2, h2, h⟩ := bind_eq_ok.1 h
    have hread : Lawful .stateless (s.reload b) := .of_within fun _ _ => s.within_reload
    refine setState_distinct (hm.of_lawful hread h2) h fun _ t' _ ht' => ?_
    cases ht'
    exact reload_owns s h2

/-- The stack of a builder is part of its state. -/
theorem operandStack_eq_ok {s : OperandStack} (h : (operandStack b).run m = .ok (s, m')) :
    m' = m ∧ ∃ t, m.state? b = some t ∧ t.stack? = some s := by
  grind [bind_eq_ok, record_eq_ok, pure_eq_ok, Option.bind_eq_some_iff, record?_bind_eq_some,
    throw_ne_ok, Method.state?, operandStack]

/-- Putting a stack of values that there are in the place of the one of a builder. -/
theorem setOperandStack_distinct {s : OperandStack} (hm : m.Distinct made)
    (hs : ∀ v ∈ s.slots, v < m.graph.values.size)
    (h : (setOperandStack b s).run m = .ok (u, m')) : m'.Distinct made := by
  refine setState_distinct hm h fun r t hr ht => ?_
  obtain ⟨t', ht', rfl⟩ := Option.map_eq_some_iff.1 ht
  have howns : m.Owns t' := by
    refine hm.states b t' ?_
    rw [state?, hr]
    exact ht'
  exact fun v hv => (mem_slots_setStack s t' hv).elim (hs v) (howns v)

/-- Another stack with no values but the given ones and those of the stack that a builder has. -/
theorem editStack_distinct (vs : List ValueId) {s t : OperandStack} (hm : m.Distinct made)
    (hvs : ∀ v ∈ vs, v < m.graph.values.size) (h1 : (operandStack b).run m = .ok (s, m1))
    (ht : ∀ v ∈ t.slots, v ∈ s.slots ∨ v ∈ vs)
    (h2 : (setOperandStack b t).run m1 = .ok (u, m')) : m'.Distinct made := by
  obtain ⟨rfl, st, hst, hs⟩ := operandStack_eq_ok h1
  refine setOperandStack_distinct hm (fun v hv => ?_) h2
  rcases ht v hv with hv | hv
  · exact hm.states b st hst v (slots_stack? st hs v hv)
  · exact hvs v hv

theorem stackPush_distinct (hm : m.Distinct made) (hv : v < m.graph.values.size)
    (h : (stackPush b v).run m = .ok (u, m')) : m'.Distinct made := by
  obtain ⟨s, m1, h1, h⟩ := bind_eq_ok.1 h
  exact editStack_distinct [v] hm (forall_mem_singleton.2 hv) h1 (fun _ => mem_append.1) h

theorem stackPop_distinct (hm : m.Distinct made)
    (h : (stackPop b).run m = .ok (v, m')) : m'.Distinct made := by
  obtain ⟨s, m1, h1, h⟩ := bind_eq_ok.1 h
  obtain ⟨⟨w, t⟩, m2, h2, h⟩ := bind_eq_ok.1 h
  obtain ⟨hpop, rfl⟩ := lift_eq_ok.1 h2
  obtain ⟨_, m3, h3, h⟩ := bind_eq_ok.1 h
  obtain ⟨-, rfl⟩ := pure_eq_ok.1 h
  refine editStack_distinct [] hm (fun w hw => absurd hw not_mem_nil) h1
    (fun w hw => .inl ?_) h3
  unfold pop at hpop
  split at hpop
  · cases hpop
    exact mem_of_mem_dropLast hw
  · cases hpop

theorem stackDrop_distinct {n : Nat} (hm : m.Distinct made)
    (h : (stackDrop b n).run m = .ok (u, m')) : m'.Distinct made := by
  obtain ⟨s, m1, h1, h⟩ := bind_eq_ok.1 h
  obtain ⟨t, m2, h2, h⟩ := bind_eq_ok.1 h
  obtain ⟨hdrop, rfl⟩ := lift_eq_ok.1 h2
  refine editStack_distinct [] hm (fun w hw => absurd hw not_mem_nil) h1
    (fun w hw => .inl ?_) h
  unfold OperandStack.drop at hdrop
  split at hdrop
  · cases hdrop
    exact mem_of_mem_take hw
  · cases hdrop

/-- The top that is pushed once more is a value of the stack. -/
theorem stackDup_distinct (hm : m.Distinct made) (h : (stackDup b).run m = .ok (u, m')) :
    m'.Distinct made := by
  obtain ⟨s, m1, h1, h⟩ := bind_eq_ok.1 h
  obtain ⟨t, m2, h2, h⟩ := bind_eq_ok.1 h
  obtain ⟨hdup, rfl⟩ := lift_eq_ok.1 h2
  refine editStack_distinct [] hm (fun w hw => absurd hw not_mem_nil) h1
    (fun w hw => .inl ?_) h
  unfold dup at hdup
  obtain ⟨v, htop, hdup⟩ := ok_of_bind hdup
  cases hdup
  rcases mem_append.1 hw with hw | hw
  · exact hw
  · grind [top, pick]

end Emit

/-! ## Calls -/

namespace Call

/-- The builder that a call registers a successor of, and the successor, at which the state of the
    builder arrives. -/
def arrival? : Call → Option (BuilderId × BuilderId)
  | addSuccessor b target => some (b, target)
  | c => c.registers

/-- The values that a call puts into states. -/
def slotValues : Call → List ValueId
  | setVmState s | replaceState _ s => s.slots
  | stackPush _ v => [v]
  | _ => []

/-- A call that emits and answers nothing. -/
theorem of_apply_lift {x : Emit Unit} (hc : c.run = liftM x)
    (h : c.apply m = .ok m') : x.run m = .ok ((), m') := by grind [apply_eq_ok, Build.lift_eq_ok]

open Emit in
/-- A call keeps the invariant, if the builders that a registration makes count as made from then
    on. -/
theorem keeps_distinct (hm : m.Distinct made)
    (hvalues : ∀ v ∈ c.slotValues, v < m.graph.values.size) (h : c.apply m = .ok m') :
    m'.Distinct fun b =>
      made b ∨ c.arrival?.isSome ∧ m.builders.size ≤ b ∧ b < m'.builders.size := by
  -- what registers a successor
  have hadds : ∀ {b target p m1}, (Emit.addSuccessor b target).run m = .ok (p, m1) →
      m1.Distinct fun b => made b ∨ m.builders.size ≤ b := fun h =>
    addSuccessor_distinct (fun _ hb => .inr hb) (hm.weaken fun _ hb => .inl hb) h
  have registers : (m'.Distinct fun b => made b ∨ m.builders.size ≤ b) → c.arrival?.isSome →
      m'.Distinct fun b =>
        made b ∨ c.arrival?.isSome ∧ m.builders.size ≤ b ∧ b < m'.builders.size := by
    intro hm' harrival
    refine ⟨hm'.held, hm'.states, fun b s hs => ⟨(hm'.initials b s hs).1, fun hb => ?_⟩⟩
    obtain ⟨d, -, hd, -⟩ := Method.record?_bind_eq_some.1 hs
    refine (hm'.initials b s hs).2 fun hold => hb ?_
    exact hold.imp_right fun hle => ⟨harrival, hle, Method.lt_of_builder? hd⟩
  -- what makes no builder
  have edits : m'.Distinct made → m'.Distinct fun b =>
      made b ∨ c.arrival?.isSome ∧ m.builders.size ≤ b ∧ b < m'.builders.size :=
    fun hm' => hm'.weaken fun _ hb => .inl hb
  by_cases hrewrites : c.rewrites = true
  · cases c with
    | setVmState s =>
      cases h
      refine edits ⟨fun t ht => ?_, hm.states, hm.initials⟩
      cases ht
      exact hvalues
    | appendBytecode b => exact edits (appendBytecode_distinct hm (of_apply_lift rfl h))
    | addSuccessor b target =>
      obtain ⟨p, h⟩ := of_apply_emit rfl h
      exact registers (hadds h) rfl
    | addFallThrough | bytecodeGoto | bytecodeIfCmp | bytecodeIfCmpZero =>
      obtain ⟨r, h⟩ := apply_eq_ok.1 h
      obtain ⟨p, m1, m2, d, opcode, operands, h1, h2, hd, hop, h3⟩ := registers_eq_ok rfl h
      exact registers (transferred_distinct (hadds h1) h2 hd hop h3) rfl
    | replaceState b s =>
      obtain ⟨r, h⟩ := of_apply_emit rfl h
      exact edits (replaceState_distinct hm hvalues h)
    | reloadState b => exact edits (reloadState_distinct hm (of_apply_lift rfl h))
    | stackPush b v =>
      exact edits (stackPush_distinct hm (hvalues v mem_cons_self) (of_apply_lift rfl h))
    | stackPop b =>
      obtain ⟨v, h⟩ := of_apply_emit rfl h
      exact edits (stackPop_distinct hm h)
    | stackDrop b n => exact edits (stackDrop_distinct hm (of_apply_lift rfl h))
    | stackDup b => exact edits (stackDup_distinct hm (of_apply_lift rfl h))
    | _ => cases hrewrites
  · have hlawful : Build.Lawful .stateless c.run := by
      refine c.lawful_of (fun _ => rfl) (fun h => absurd h hrewrites) (fun h => ?_) fun _ => rfl
      cases c with
      | appendBytecode b => exact absurd rfl hrewrites
      | _ => cases h
    obtain ⟨r, h⟩ := apply_eq_ok.1 h
    exact edits (hm.of_lawful hlawful h)

end Call

namespace Method

/-- The builders that registrations make in the course of some calls. -/
def intermediates (m : Method) : List Call → List BuilderId
  | [] => []
  | c :: cs =>
    match c.apply m with
    | .error _ => []
    | .ok m' =>
      let made :=
        if c.arrival?.isSome then
          List.range' m.builders.size (m'.builders.size - m.builders.size)
        else []
      made ++ m'.intermediates cs

/-- Every value that some calls put into states is there when they do. -/
def ownsEdits (m : Method) : List Call → Bool
  | [] => true
  | c :: cs =>
    c.slotValues.all (· < m.graph.values.size) &&
      match c.apply m with
      | .error _ => true
      | .ok m' => m'.ownsEdits cs

/-- Calls keep the invariant. -/
theorem after_distinct {calls : List Call} (hm : m.Distinct made)
    (hedits : m.ownsEdits calls = true) (h : m.after calls = .ok m') :
    m'.Distinct fun b => made b ∨ b ∈ m.intermediates calls := by
  induction calls generalizing m made with
  | nil =>
    cases h
    exact hm.weaken fun _ hb => .inl hb
  | cons c calls ih =>
    rw [after] at h
    unfold ownsEdits at hedits
    unfold intermediates
    obtain ⟨m1, hc, h⟩ := ok_of_bind h
    rw [hc] at hedits ⊢
    obtain ⟨hvalues, hedits⟩ := Bool.and_eq_true_iff.1 hedits
    have hm1 := Call.keeps_distinct hm (by simpa using hvalues) hc
    refine (ih hm1 hedits h).weaken fun b hb => ?_
    dsimp only
    rw [mem_append]
    rcases hb with (hb | ⟨harrival, hle, hlt⟩) | hb
    · exact .inl hb
    · rw [if_pos harrival, mem_range'_1]
      rw [Nat.add_sub_cancel' (hle.trans_lt hlt).le]
      exact .inr (.inl ⟨hle, hlt⟩)
    · exact .inr (.inr hb)

end Method

end MethodGraph
