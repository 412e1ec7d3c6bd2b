import MethodGraph.Proofs.Emission
/-!
  What calls do besides emitting.

  Most calls only emit.  The others change the rest of the method too, each in one way that can be
  said beforehand (`Call.aside`): a definition is made, a function is asked for, a loop is noted, an
  index is put into the worklist or taken out of it.

  Main statement: every call emits, besides what it does aside (`Call.emitted`).  So what becomes of
  the worklist, of the functions or of the mark for loops is read off `Call.aside`.
-/

namespace MethodGraph

open Method Build Option Accrues

variable {d : Builder} {b p target : BuilderId} {c : Call} {r : Except BuildError Unit}
  {l : License} {u : Unit}

variable {α β : Type} {m m' : Method} {x : Build α}

/-! ## What is done besides emitting -/

namespace Method

/-- The bytecode index that a builder stands for. -/
def index? (m : Method) (b : BuilderId) : Option Nat := (m.record? b).map (·.index)

/-- The index of a builder waits to be built, unless it has waited before. -/
def enqueued (m : Method) (b : BuilderId) : Method :=
  match m.index? b with
  | none => m
  | some i =>
    { m with
      queued := m.queued.insert i
      worklist := if m.queued.contains i then m.worklist else m.worklist.insert i }

/-- An edge from a builder to a smaller index, or to the builder itself, is noted. -/
def noted (m : Method) (b target : BuilderId) : Method :=
  if (m.index? target).getD 0 < (m.index? b).getD 0 ∨ target = b then { m with mayLoop := true }
  else m

/-- The least index that waits is taken away. -/
def dequeued (m : Method) : Method :=
  match m.worklist.first? with
  | none => m
  | some i => { m with worklist := m.worklist.remove i }

end Method

/-- Asking for a function changes nothing but what is known of functions. -/
theorem Method.request_rest (m : Method) (name : String) :
    m.request name = { m with
      functions := (m.request name).functions
      requested := (m.request name).requested
      asked := (m.request name).asked } := by
  unfold request
  split
  · rfl
  · cases m.resolver with
    | none => rfl
    | some resolver =>
      dsimp only
      cases resolver name <;> rfl

/-- What a call does to a method besides emitting. -/
def Call.aside : Call → Method → Method
  | defineName name, m => m.defineName name
  | defineFile file, m => m.defineFile file
  | defineLine line, m => m.defineLine line
  | defineParameter name ty, m => m.defineParameter name ty
  | defineLocal name ty, m => m.defineLocal name ty
  | defineReturnType ty, m => m.defineReturnType ty
  | defineFunction s, m => m.defineFunction s
  | allLocalsDefined, m => m.allLocalsDefined
  | setResolver resolver, m => m.setResolver resolver
  | setTypes types, m => { m with types }
  | setVmState s, m => m.setVmState s
  | function _ name _, m => m.request name
  | forLoop .., m | whileDo .., m | doWhile .., m => { m with mayLoop := true }
  | nextBytecode, m => m.dequeued
  | appendBytecode b, m => m.enqueued b
  | addSuccessor b target, m | addFallThrough b target, m | bytecodeGoto b target, m
  | bytecodeIfCmp b _ target _ _, m | bytecodeIfCmpZero b _ target _, m =>
    (m.noted b target).enqueued target
  | _, m => m

/-! ## Indices stay -/

namespace Method

theorem index?_eq (m : Method) (b : BuilderId) :
    m.index? b = (m.builder? b).bind fun d => d.bytecode.map (·.index) := by
  unfold index? record? builder?
  cases m.builders.get? b <;> rfl

theorem index?_of_builder? (hd : m.builder? b = some d) :
    m.index? b = d.bytecode.map (·.index) := by
  rw [index?_eq, hd, bind_some]

theorem lt_of_index? {i : Nat} (h : m.index? b = some i) : b < m.builders.size := by
  rw [index?_eq] at h
  obtain ⟨d, hd, -⟩ := bind_eq_some_iff.1 h
  exact lt_of_builder? hd

theorem index?_addBuilder (r : BytecodeRecord) (b : BuilderId) :
    (m.addBuilder (some r)).index? b =
      if b = m.builders.size then some r.index else m.index? b := by
  rw [index?_eq, builder?_addBuilder]
  split
  · rfl
  · exact (index?_eq m b).symm

/-- Every builder stands for the index that it stood for. -/
def SameIndices (m m' : Method) : Prop := ∀ b, m'.index? b = m.index? b

theorem sameIndices_withBuilder {f : Builder → Builder}
    (hf : ∀ d, m.builder? b = some d → (f d).bytecode.map (·.index) = d.bytecode.map (·.index)) :
    m.SameIndices (m.withBuilder b f) := by
  intro c
  rw [index?_eq, index?_eq, builder?_withBuilder]
  split
  · next hbc =>
    subst hbc
    cases hd : m.builder? b with
    | none => rfl
    | some d => exact hf d hd
  · rfl

theorem SameIndices.of_builder? (h : ∀ b, m'.builder? b = m.builder? b) : m.SameIndices m' :=
  fun b => by rw [index?_eq, index?_eq, h]

end Method

instance : Accrues Method.SameIndices :=
  ⟨fun _ _ => rfl, fun h h' b => (h' b).trans (h b)⟩

namespace Emit

theorem sameIndices_openBlock (b : BuilderId) : Within Method.SameIndices (openBlock b) := by
  intro m x m' h
  obtain ⟨d, -, ⟨-, rfl⟩ | ⟨-, -, rfl, -⟩⟩ := openBlock_eq_ok h
  · exact refl _
  · refine trans (Method.SameIndices.of_builder? fun c => ?_)
      (sameIndices_withBuilder fun _ _ => rfl)
    exact builder?_linkFrom ..

theorem sameIndices_emit (b : BuilderId) (op : Operation) :
    Within Method.SameIndices (emit b op) := by
  intro m u m' h
  obtain ⟨x, m1, h1, h⟩ := bind_eq_ok.1 h
  obtain ⟨-, rfl⟩ := push_eq_ok.1 h
  exact trans (sameIndices_openBlock b _ _ _ h1) fun _ => rfl

theorem sameIndices_transfer (b : BuilderId) (opcode : Opcode) (operands : List ValueId)
    (targets : List BlockId) : Within Method.SameIndices (transfer b opcode operands targets) := by
  intro m u m' h
  obtain ⟨x, m1, h1, -, -, rfl⟩ := transfer_eq_ok h
  refine trans (sameIndices_openBlock b _ _ _ h1) (trans
    (Method.SameIndices.of_builder? fun c => ?_) (sameIndices_withBuilder fun _ _ => rfl))
  exact builder?_withEdges ..

theorem sameIndices_gotoBuilder (b target : BuilderId) :
    Within Method.SameIndices (gotoBuilder b target) :=
  within_bind (within_entryOf target) fun _ => sameIndices_transfer b _ _ _

theorem updateRecord_sameIndices {f : BytecodeRecord → BytecodeRecord}
    (h : (updateRecord b f).run m = .ok (u, m')) (hf : ∀ r, (f r).index = r.index) :
    m.SameIndices m' := by grind [updateRecord_eq_ok, sameIndices_withBuilder]

theorem sameIndices_append (b child : BuilderId) : Within Method.SameIndices (append b child) := by
  intro m u m' h
  obtain ⟨d, e, -, -, -, -, -, -, hm'⟩ := append_eq_ok h
  have hplaced : m.SameIndices (m.withBuilder child ({ · with placed := true })) :=
    sameIndices_withBuilder fun _ _ => rfl
  have hlinked := Method.SameIndices.of_builder? (builder?_linkFrom
    (m.withBuilder child ({ · with placed := true })) d.tail.block? e.entry)
  have hholds : m.SameIndices (m.holding b child d e) :=
    trans (trans hplaced hlinked) (sameIndices_withBuilder fun _ _ => rfl)
  rcases hm' with ⟨-, rfl⟩ | ⟨-, rfl⟩ <;> exact hholds

end Emit

instance (b : BuilderId) : Rewrites b Method.SameIndices where
  value _ _ _ := rfl
  symbol _ _ _ _ _ := rfl
  emit _ _ h := Emit.sameIndices_emit b _ _ _ _ h
  record hf h := Emit.updateRecord_sameIndices h fun r => (hf r).1

/-- Whatever is lawful leaves the index of a builder alone. -/
theorem Emit.Lawful.index {x : Emit α} (hx : Lawful l x) {a : α}
    (h : x.run m = .ok (a, m')) (hb : b < m.builders.size) : m'.index? b = m.index? b := by
  obtain ⟨d, hd⟩ := exists_builder? hb
  obtain ⟨e, he, hde⟩ := (hx m a m' [] [] h).below.builders b d hd
  have hindex : e.bytecode.map (·.index) = d.bytecode.map (·.index) := by
    rcases hde.record with hr | ⟨-, r, r', hr, hr', hi, -⟩
    · rw [hr]
    · rw [hr, hr', map_some, map_some, hi]
  rw [index?_of_builder? he, hindex, index?_of_builder? hd]

/-! ## Queueing and noting do not depend on what is emitted -/

namespace Method

/-- Whether emission comes before or after, the same index is enqueued. -/
theorem Emitted.enqueued (h : m.Emitted m') (hi : m'.index? b = m.index? b) :
    (m.enqueued b).Emitted (m'.enqueued b) := by
  have hrest := h.rest
  unfold Method.enqueued
  rw [hi]
  cases m.index? b with
  | none => exact h
  | some i =>
    refine ⟨?_, h.keeps, h.operations⟩
    rw [hrest]

/-- Whether emission comes before or after, the same edge is noted. -/
theorem Emitted.noted (h : m.Emitted m')
    (hb : m'.index? b = m.index? b) (ht : m'.index? target = m.index? target) :
    (m.noted b target).Emitted (m'.noted b target) := by
  have hrest := h.rest
  unfold Method.noted
  rw [hb, ht]
  split
  · refine ⟨?_, h.keeps, h.operations⟩
    rw [hrest]
  · exact h

@[simp] theorem index?_noted (b target c : BuilderId) :
    (m.noted b target).index? c = m.index? c := by
  unfold noted
  split <;> rfl

@[simp] theorem index?_enqueued (b c : BuilderId) : (m.enqueued b).index? c = m.index? c := by
  unfold enqueued
  split <;> rfl

end Method

namespace Emit

theorem enqueue_eq_ok :
    (enqueue b).run m = .ok (u, m') ↔ b < m.builders.size ∧ m' = m.enqueued b := by
  have hgo : ∀ d, m.builder? b = some d →
      ((enqueue b).run m = .ok (u, m') ↔ m' = m.enqueued b) := by
    intro d hd
    have hb : (builder b).run m = .ok (d, m) := builder_eq_ok.2 ⟨hd, rfl⟩
    unfold enqueue enqueued
    rw [StateT.run_bind, hb, index?_of_builder? hd]
    show StateT.run _ m = _ ↔ _
    cases d.bytecode with
    | none => exact pure_eq_ok.trans ⟨fun h => h.2.symm, fun h => ⟨rfl, h.symm⟩⟩
    | some r =>
      refine modify_eq_ok.trans ?_
      have hfresh : (if (m.queued.add r.index).1 then m.worklist.insert r.index else m.worklist) =
          if m.queued.contains r.index then m.worklist else m.worklist.insert r.index := by
        rw [BitSet.fst_add]
        cases m.queued.contains r.index <;> rfl
      simp only [hfresh, map_some]
      rfl
  constructor
  · intro h
    obtain ⟨d, _, h1, -⟩ := bind_eq_ok.1 h
    obtain ⟨hd, -⟩ := builder_eq_ok.1 h1
    exact ⟨lt_of_builder? hd, (hgo d hd).1 h⟩
  · rintro ⟨hb, h⟩
    obtain ⟨d, hd⟩ := exists_builder? hb
    exact (hgo d hd).2 h

theorem nextBytecode_eq_ok {r : Option Nat} :
    nextBytecode.run m = .ok (r, m') ↔ r = m.worklist.first? ∧ m' = m.dequeued := by
  unfold dequeued
  have hrun : nextBytecode.run m = (match m.worklist.first? with
      | none => pure none
      | some i => do
        set { m with worklist := m.worklist.remove i }
        return some i : Emit (Option Nat)).run m := rfl
  rw [hrun]
  cases m.worklist.first? with
  | none => exact pure_eq_ok.trans ⟨fun h => ⟨h.1.symm, h.2.symm⟩, fun h => ⟨h.1.symm, h.2.symm⟩⟩
  | some i =>
    show Except.ok (some i, { m with worklist := m.worklist.remove i }) = .ok (r, m') ↔ _
    simp [eq_comm]

/-- Carrying a state along an edge leaves the indices at both ends alone. -/
theorem index?_carryState {c : BuilderId}
    (h : (carryState b target).run m = .ok (p, m')) (hc : c = b ∨ c = target) :
    m'.index? c = m.index? c := by
  refine (lawful_carryState (l := .emitting) rfl b target).index h ?_
  obtain ⟨s, dt, r, hs, hdt, -⟩ := carryState_eq_ok h
  rcases hc with rfl | rfl
  · obtain ⟨d, -, hd, -⟩ := record?_bind_eq_some.1 hs
    exact lt_of_builder? hd
  · exact lt_of_builder? hdt

/-- A state is carried along the edge, then the edge is noted and the target enqueued. -/
theorem addSuccessor_eq_ok (h : (addSuccessor b target).run m = .ok (p, m')) :
    ∃ m1 m2, (carryState b target).run m = .ok (p, m1) ∧
      (updateRecord b fun r => { r with successors := r.successors ++ [p] }).run
        (m1.noted b target) = .ok ((), m2) ∧ m' = m2.enqueued target := by
  obtain ⟨q, m1, h1, h⟩ := bind_eq_ok.1 h
  obtain ⟨rb, _, h2, h⟩ := bind_eq_ok.1 h
  obtain ⟨⟨d, hd, hrb⟩, rfl⟩ := record_eq_ok.1 h2
  obtain ⟨rt, _, h3, h⟩ := bind_eq_ok.1 h
  obtain ⟨⟨e, he, hrt⟩, rfl⟩ := record_eq_ok.1 h3
  have hnoted : m1.noted b target =
      if rt.index < rb.index ∨ target = b then { m1 with mayLoop := true } else m1 := by
    unfold noted
    rw [index?_of_builder? hd, hrb, index?_of_builder? he, hrt]
    rfl
  have hrest : (do
      updateRecord b fun r => { r with successors := r.successors ++ [q] }
      enqueue target
      return q : Emit BuilderId).run (m1.noted b target) = .ok (p, m') := by grind
  obtain ⟨_, m2, h4, hrest⟩ := bind_eq_ok.1 hrest
  obtain ⟨_, m3, h5, hrest⟩ := bind_eq_ok.1 hrest
  obtain ⟨rfl, rfl⟩ := pure_eq_ok.1 hrest
  exact ⟨m1, m2, h1, h4, (enqueue_eq_ok.1 h5).2⟩

/-- The edge is noted and the target enqueued, and all else is emission. -/
theorem addSuccessor_emitted (h : (addSuccessor b target).run m = .ok (p, m')) :
    ((m.noted b target).enqueued target).Emitted m' := by
  obtain ⟨m1, m2, h1, h2, rfl⟩ := addSuccessor_eq_ok h
  have hb := index?_carryState h1 (.inl rfl)
  have ht := index?_carryState h1 (.inr rfl)
  have hcarried := (lawful_carryState rfl b target).emits m p m1 h1
  refine ((hcarried.noted hb ht).trans (emits_updateRecord b _ _ _ _ h2)).enqueued ?_
  rw [updateRecord_sameIndices h2 (fun _ => rfl) target, index?_noted, index?_noted,
    ht]

/-- The builder is enqueued, and all else is emission. -/
theorem appendBytecode_emitted
    (h : (appendBytecode b).run m = .ok (u, m')) : (m.enqueued b).Emitted m' := by
  obtain ⟨_, _, h1, h⟩ := bind_eq_ok.1 h
  obtain ⟨rfl, rfl⟩ := get_eq_ok.1 h1
  obtain ⟨s, m1, h2, h⟩ := bind_eq_ok.1 h
  obtain ⟨_, m2, h3, h⟩ := bind_eq_ok.1 h
  obtain ⟨_, m3, h4, h⟩ := bind_eq_ok.1 h
  obtain ⟨-, rfl⟩ := enqueue_eq_ok.1 h
  have hcopy : m.Emitted m1 := (Lawful.of_within fun _ _ => VmState.within_dealias _).emits _ _ _ h2
  have hstart : m1.Emitted m2 := emits_updateRecord b _ _ _ _ h3
  refine ((hcopy.trans hstart).trans ((lawful_append _ _).emits _ _ _ h4)).enqueued ?_
  calc m3.index? b
    _ = m2.index? b := sameIndices_append _ _ _ _ _ h4 b
    _ = m1.index? b := updateRecord_sameIndices h3 (fun _ => rfl) b
    _ = m.index? b := VmState.within_dealias (R := Method.SameIndices) _ _ _ _ h2 b

end Emit

/-! ## Loops -/

namespace Build

theorem Loops.emitted (hx : Loops x) {r : Except BuildError α} (h : x.run.run m = .ok (r, m')) :
    ({ m with mayLoop := true } : Method).Emitted m' := by
  obtain ⟨rest, rfl, hrest⟩ := hx
  exact (hrest .emitting _ r m' [] [] h).emitted rfl

end Build

/-! ## Calls -/

namespace Call

/-- What is done with the answer does not matter. -/
theorem of_discard_eq_ok (h : (discard x : Build Unit).run.run m = .ok (r, m')) :
    ∃ s, x.run.run m = .ok (s, m') := by
  rcases bind_eq_ok.1 h with ⟨a, m1, h1, h⟩ | ⟨e, m1, h1, hr⟩
  · obtain ⟨-, rfl⟩ := pure_eq_ok.1 h
    exact ⟨_, h1⟩
  · cases hr
    exact ⟨_, h1⟩

theorem of_discard_lift_eq_ok {x : Emit α}
    (h : (discard (liftM x : Build α) : Build Unit).run.run m = .ok (r, m')) :
    ∃ a, x.run m = .ok (a, m') := by
  obtain ⟨s, h⟩ := of_discard_eq_ok h
  obtain ⟨a, h, -⟩ := lift_eq_ok.1 h
  exact ⟨a, h⟩

/-- The builder that a call transfers control out of and the successor that it registers for
    that. -/
def registers : Call → Option (BuilderId × BuilderId)
  | addFallThrough b target => some (b, target)
  | bytecodeGoto b target => some (b, target)
  | bytecodeIfCmp b _ target _ _ => some (b, target)
  | bytecodeIfCmpZero b _ target _ => some (b, target)
  | _ => none

end Call

open Emit in
/-- What is done between the registration of a successor and the transfer to it: nothing, or the
    successor is put into the record, or a zero to compare with is computed. -/
def Method.TurnsTo (m : Method) (b p : BuilderId) (m' : Method) : Prop :=
  m' = m ∨ (updateRecord b fun r => { r with fallThrough := some p }).run m = .ok ((), m') ∨
    ∃ ty z, (zero b ty).run m = .ok (z, m')

theorem Method.TurnsTo.within {R : Method → Method → Prop} [Accrues R]
    [Rewrites b R] (h : m.TurnsTo b p m') : R m m' := by
  rcases h with rfl | h | ⟨ty, z, h⟩
  · exact refl _
  · exact Emit.within_updateRecord (f := fun r => { r with fallThrough := some p })
      (fun _ => ⟨rfl, rfl⟩) _ _ _ h
  · exact Emit.within_zero ty _ _ _ h

namespace Emit

/-- A transfer to a builder, on a condition or on none. -/
theorem transfer_builds_entry {loose risky : List BlockId}
    {opcode : Opcode} {operands : List ValueId}
    (hd : m.builder? p = some d) (hop : opcode = .goto ∨ ∃ cmp, opcode = .branch cmp)
    (h : (transfer b opcode operands [d.entry]).run m = .ok (u, m')) :
    Builds l ⟨m, loose, risky⟩ ⟨m', loose, risky⟩ := by
  refine transfer_builds ?_ (List.forall_mem_singleton.2 (.inr (.inl ⟨p, d, hd, rfl⟩))) h
  rcases hop with rfl | ⟨cmp, rfl⟩ <;> rfl

theorem gotoBuilder_eq_ok (h : (gotoBuilder b p).run m = .ok (u, m')) :
    ∃ d, m.builder? p = some d ∧ (transfer b .goto [] [d.entry]).run m = .ok ((), m') := by
  obtain ⟨_, _, h1, h⟩ := bind_eq_ok.1 h
  obtain ⟨⟨d, hd, rfl⟩, rfl⟩ := entryOf_eq_ok.1 h1
  exact ⟨d, hd, h⟩

theorem ifCmp_eq_ok {q : BuilderId} {cmp : Cmp} {v w : ValueId}
    (h : (ifCmp b cmp (some p) v w).run m = .ok (q, m')) : ∃ d, m.builder? p = some d ∧
      (transfer b (.branch cmp) [v, w] [d.entry]).run m = .ok ((), m') := by
  obtain ⟨_, _, h1, h⟩ := bind_eq_ok.1 h
  obtain ⟨rfl, rfl⟩ := pure_eq_ok.1 h1
  obtain ⟨_, _, h2, h⟩ := bind_eq_ok.1 h
  obtain ⟨⟨d, hd, rfl⟩, rfl⟩ := entryOf_eq_ok.1 h2
  obtain ⟨_, m1, h3, h⟩ := bind_eq_ok.1 h
  obtain ⟨-, rfl⟩ := pure_eq_ok.1 h
  exact ⟨d, hd, h3⟩

end Emit

variable (hc : c.registers = some (b, target)) (h : c.run.run.run m = .ok (r, m'))

namespace Call

open Emit in
include hc h in
/-- A successor is registered, and then control is transferred to the builder that this gave. -/
theorem registers_eq_ok :
    ∃ p m1 m2 d opcode operands, (Emit.addSuccessor b target).run m = .ok (p, m1) ∧
      m1.TurnsTo b p m2 ∧ m2.builder? p = some d ∧
      (opcode = .goto ∨ ∃ cmp, opcode = .branch cmp) ∧
      (transfer b opcode operands [d.entry]).run m2 = .ok ((), m') := by
  cases c with
  | addFallThrough =>
    cases hc
    obtain ⟨q, h⟩ := of_discard_lift_eq_ok h
    obtain ⟨_, _, h0, h⟩ := bind_eq_ok.1 h
    obtain ⟨-, rfl⟩ := builder_eq_ok.1 h0
    obtain ⟨-, h⟩ := guard_eq_ok.1 h
    obtain ⟨p, m1, h1, h⟩ := bind_eq_ok.1 h
    obtain ⟨_, m2, h2, h⟩ := bind_eq_ok.1 h
    obtain ⟨_, m3, h3, h⟩ := bind_eq_ok.1 h
    obtain ⟨-, rfl⟩ := pure_eq_ok.1 h
    obtain ⟨d, hd, h⟩ := gotoBuilder_eq_ok h3
    exact ⟨p, m1, m2, d, .goto, [], h1, .inr (.inl h2), hd, .inl rfl, h⟩
  | bytecodeGoto =>
    cases hc
    obtain ⟨q, h⟩ := of_discard_lift_eq_ok h
    obtain ⟨p, m1, h1, h⟩ := bind_eq_ok.1 h
    obtain ⟨_, m2, h2, h⟩ := bind_eq_ok.1 h
    obtain ⟨-, rfl⟩ := pure_eq_ok.1 h
    obtain ⟨d, hd, h⟩ := gotoBuilder_eq_ok h2
    exact ⟨p, m1, m1, d, .goto, [], h1, .inl rfl, hd, .inl rfl, h⟩
  | bytecodeIfCmp =>
    cases hc
    obtain ⟨q, h⟩ := of_discard_lift_eq_ok h
    obtain ⟨p, m1, h1, h⟩ := bind_eq_ok.1 h
    obtain ⟨d, hd, h⟩ := ifCmp_eq_ok h
    exact ⟨p, m1, m1, d, _, _, h1, .inl rfl, hd, .inr ⟨_, rfl⟩, h⟩
  | bytecodeIfCmpZero =>
    cases hc
    obtain ⟨q, h⟩ := of_discard_lift_eq_ok h
    obtain ⟨p, m1, h1, h⟩ := bind_eq_ok.1 h
    obtain ⟨ty, _, h2, h⟩ := bind_eq_ok.1 h
    obtain ⟨-, rfl⟩ := typeOf_eq_ok.1 h2
    obtain ⟨z, m2, h3, h⟩ := bind_eq_ok.1 h
    obtain ⟨d, hd, h⟩ := ifCmp_eq_ok h
    exact ⟨p, m1, m2, d, _, _, h1, .inr (.inr ⟨ty, z, h3⟩), hd, .inr ⟨_, rfl⟩, h⟩
  | _ => cases hc

open Emit in
include hc h in
theorem registers_emitted : ((m.noted b target).enqueued target).Emitted m' := by
  obtain ⟨p, m1, m2, d, opcode, operands, h1, h2, hd, hop, h3⟩ := registers_eq_ok hc h
  have hleft : Builds .emitting ⟨m2, [], []⟩ ⟨m', [], []⟩ := transfer_builds_entry hd hop h3
  exact ((addSuccessor_emitted h1).trans h2.within).trans (hleft.emitted rfl)

open Emit in
/-- Every call emits, besides what it does aside. -/
theorem emitted (h : c.run.run.run m = .ok (r, m')) : (c.aside m).Emitted m' := by
  cases hstrays : c.strays with
  | false =>
    have haside : c.aside m = m := by
      cases c <;> first | rfl | cases hstrays
    rw [haside]
    have hbuilds := c.lawful_of (l := .emitting) (fun h => nomatch hstrays.symm.trans h)
      (fun _ => rfl) (fun _ => rfl) (fun _ => rfl) m r m' [] [] h
    exact hbuilds.emitted rfl
  | true =>
    cases c with
    | defineName | defineFile | defineLine | defineReturnType | defineFunction | allLocalsDefined
    | setResolver | setTypes | setVmState | defineParameter | defineLocal =>
      cases h
      exact .refl _
    | function b name args =>
      obtain ⟨s, h⟩ := of_discard_eq_ok h
      exact call_within h
    | forLoop b up index body initial last increment =>
      obtain ⟨s, h⟩ := of_discard_eq_ok h
      exact (loops_forLoop b up index body initial last increment).emitted h
    | whileDo b condition body =>
      obtain ⟨s, h⟩ := of_discard_eq_ok h
      exact (loops_whileDo b condition body).emitted h
    | doWhile b condition body =>
      obtain ⟨s, h⟩ := of_discard_eq_ok h
      exact (loops_doWhile b condition body).emitted h
    | appendBytecode b =>
      obtain ⟨u, h, -⟩ := lift_eq_ok.1 h
      exact appendBytecode_emitted h
    | nextBytecode =>
      obtain ⟨a, h⟩ := of_discard_lift_eq_ok h
      obtain ⟨-, rfl⟩ := nextBytecode_eq_ok.1 h
      exact .refl _
    | addSuccessor b target =>
      obtain ⟨p, h⟩ := of_discard_lift_eq_ok h
      exact addSuccessor_emitted h
    | addFallThrough | bytecodeGoto | bytecodeIfCmp | bytecodeIfCmpZero =>
      exact registers_emitted rfl h
    | _ => cases hstrays

end Call

end MethodGraph
