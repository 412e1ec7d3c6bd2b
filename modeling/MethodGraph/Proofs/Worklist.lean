import Mathlib.Data.List.Perm.Subperm
import MethodGraph.Proofs.Aside
/-!
  The worklist.

  Appending a bytecode builder and registering a successor let an index wait to be built; asking for
  the next one takes the least away.  What waits is told apart from what has waited before, so what
  matters in a history of calls is which indices were registered and which were returned
  (`Method.registered`, `Method.returned`).

  Main statement: at every point of every history the next index is the least that was registered
  and not returned, none is returned twice, and none is lost (`Method.worklist_serves_least`).
-/

namespace MethodGraph

open Method List Emit Option BitSet VmState Call Accrues

variable {b p target : BuilderId} {c : Call} {calls : List Call} {i : Nat}

variable {α : Type} {m m' : Method}

/-! ## Histories -/

namespace Call

/-- The builder whose index a call lets wait. -/
def enqueues? : Call → Option BuilderId
  | appendBytecode b => some b
  | addSuccessor _ target | addFallThrough _ target | bytecodeGoto _ target
  | bytecodeIfCmp _ _ target _ _ | bytecodeIfCmpZero _ _ target _ => some target
  | _ => none

/-- The index that a call registers. -/
def registers? (c : Call) (m : Method) : Option Nat := c.enqueues?.bind m.index?

/-- The index that a call returns, if it asks for the next one. -/
def returns? : Call → Method → Option Nat
  | nextBytecode, m =>
    match Emit.nextBytecode.run m with
    | .ok (answer, _) => answer
    | .error _ => none
  | _, _ => none

end Call

namespace Method

/-- What is seen of some calls, each with the method that it is made on. -/
def observe (see : Call → Method → Option α) (m : Method) : List Call → List α
  | [] => []
  | c :: cs =>
    match c.apply m with
    | .error _ => []
    | .ok m' => (see c m).toList ++ m'.observe see cs

/-- The indices that some calls register, in their order. -/
def registered (m : Method) (calls : List Call) : List Nat := m.observe Call.registers? calls

/-- The indices that are returned in the course of some calls, in their order. -/
def returned (m : Method) (calls : List Call) : List Nat := m.observe Call.returns? calls

theorem observe_append {see : Call → Method → Option α} {later : List Call}
    (h : m.after calls = .ok m') :
    m.observe see (calls ++ later) = m.observe see calls ++ m'.observe see later := by
  induction calls generalizing m with
  | nil =>
    cases h
    rfl
  | cons c calls ih =>
    rw [after] at h
    obtain ⟨m1, hc, h⟩ := ok_of_bind h
    rw [cons_append, observe, observe, hc, append_assoc, ← ih h]

end Method

/-! ## What a call does to the worklist -/

namespace Method

/-- Enqueueing adds the index of the builder to what has waited. -/
theorem mem_queued_enqueued : i ∈ (m.enqueued b).queued ↔ i ∈ m.queued ∨ m.index? b = some i := by
  grind [enqueued, mem_insert]

/-- Enqueueing lets the index of the builder wait if it has not waited before. -/
theorem mem_worklist_enqueued :
    i ∈ (m.enqueued b).worklist ↔ i ∈ m.worklist ∨ m.index? b = some i ∧ i ∉ m.queued := by
  unfold enqueued
  cases m.index? b with
  | none => simp
  | some j =>
    dsimp only
    by_cases hj : j ∈ m.queued
    · rw [if_pos (show m.queued.contains j = true from hj)]
      constructor
      · exact .inl
      · grind
    · rw [if_neg (show ¬m.queued.contains j = true from hj), mem_insert, some.injEq]
      constructor
      · rintro (rfl | hi)
        · exact .inr ⟨rfl, hj⟩
        · exact .inl hi
      · rintro (hi | ⟨rfl, -⟩)
        · exact .inr hi
        · exact .inl rfl

@[simp] theorem queued_dequeued : m.dequeued.queued = m.queued := by
  unfold dequeued
  split <;> rfl

theorem mem_worklist_dequeued :
    i ∈ m.dequeued.worklist ↔ i ∈ m.worklist ∧ m.worklist.first? ≠ some i := by
  grind [dequeued, mem_remove]

@[simp] theorem queued_noted (b target : BuilderId) : (m.noted b target).queued = m.queued := by
  unfold noted
  split <;> rfl

@[simp] theorem worklist_noted (b target : BuilderId) :
    (m.noted b target).worklist = m.worklist := by
  unfold noted
  split <;> rfl

end Method

namespace Call

variable {c : Call}

theorem returns?_nextBytecode : nextBytecode.returns? m = m.worklist.first? := by
  have hrun : Emit.nextBytecode.run m = .ok (m.worklist.first?, m.dequeued) :=
    Emit.nextBytecode_eq_ok.2 ⟨rfl, rfl⟩
  show (match Emit.nextBytecode.run m with
    | .ok (answer, _) => answer
    | .error _ => none) = _
  rw [hrun]

/-- What has waited after a call: what had, and what the call registers. -/
theorem mem_queued_aside : i ∈ (c.aside m).queued ↔ i ∈ m.queued ∨ c.registers? m = some i := by
  cases c
  case nextBytecode => simp [aside, registers?, enqueues?]
  case appendBytecode b => exact mem_queued_enqueued
  case addSuccessor b target | addFallThrough b target | bytecodeGoto b target
      | bytecodeIfCmp b _ target _ _ | bytecodeIfCmpZero b _ target _ =>
    show i ∈ ((m.noted b target).enqueued target).queued ↔ i ∈ m.queued ∨ m.index? target = some i
    rw [mem_queued_enqueued, queued_noted, index?_noted]
  case function b name args =>
    show i ∈ (m.request name).queued ↔ _
    rw [request_rest]
    exact ⟨.inl, fun h => h.resolve_right nofun⟩
  all_goals exact ⟨.inl, fun h => h.resolve_right nofun⟩

/-- What waits after a call: what waited and is not returned, and what the call registers for the
    first time. -/
theorem mem_worklist_aside : i ∈ (c.aside m).worklist ↔
      i ∈ m.worklist ∧ c.returns? m ≠ some i ∨ c.registers? m = some i ∧ i ∉ m.queued := by
  cases c
  case nextBytecode =>
    show i ∈ m.dequeued.worklist ↔ _
    rw [mem_worklist_dequeued, returns?_nextBytecode]
    exact ⟨.inl, fun h => h.resolve_right fun h => nomatch h.1⟩
  case appendBytecode b =>
    show i ∈ (m.enqueued b).worklist ↔ _ ∨ m.index? b = some i ∧ _
    simp [mem_worklist_enqueued, returns?]
  case addSuccessor b target | addFallThrough b target | bytecodeGoto b target
      | bytecodeIfCmp b _ target _ _ | bytecodeIfCmpZero b _ target _ =>
    show i ∈ ((m.noted b target).enqueued target).worklist ↔ _ ∨ m.index? target = some i ∧ _
    simp [mem_worklist_enqueued, returns?]
  case function b name args =>
    show i ∈ (m.request name).worklist ↔ _
    rw [request_rest]
    exact ⟨fun h => .inl ⟨h, nofun⟩, fun h => h.elim And.left fun h => nomatch h.1⟩
  all_goals
    exact ⟨fun h => .inl ⟨h, nofun⟩, fun h => h.elim And.left fun h => nomatch h.1⟩

/-- Only what waits is returned. -/
theorem mem_worklist_of_returns? (h : c.returns? m = some i) :
    i ∈ m.worklist ∧ c.registers? m = none := by
  cases c
  case nextBytecode =>
    rw [returns?_nextBytecode] at h
    exact ⟨(first?_eq_some.1 h).1, rfl⟩
  all_goals nomatch h

end Call

/-! ## What was registered and what was returned -/

namespace Method

/-- A method has been told to build some indices and has returned some: what waits is what was
    registered and not returned. -/
structure Serves (m : Method) (registered returned : List Nat) : Prop where
  queued : ∀ i, i ∈ m.queued ↔ i ∈ registered
  waiting : ∀ i, i ∈ m.worklist ↔ i ∈ registered ∧ i ∉ returned
  once : returned.Nodup
  known : ∀ i ∈ returned, i ∈ registered

variable {registered returned : List Nat}

theorem serves_new (name : String) (config : Config) : (Method.new name config).Serves [] [] where
  queued i := by
    simp only [not_mem_nil, iff_false]
    exact fun h => nomatch (contains_empty i).symm.trans h
  waiting i := by
    simp only [not_mem_nil, false_and, iff_false]
    exact fun h => nomatch (contains_empty i).symm.trans h
  once := nodup_nil
  known _ h := h

variable (hm : m.Serves registered returned)

include hm in
/-- A call adds to what was registered what it registers, and to what was returned what it
    returns. -/
theorem Serves.apply (h : c.apply m = .ok m') :
    m'.Serves (registered ++ (c.registers? m).toList) (returned ++ (c.returns? m).toList) := by
  obtain ⟨r, hrun⟩ := apply_eq_ok.1 h
  have hrest := (emitted hrun).rest
  have hqueued : m'.queued = (c.aside m).queued := by rw [hrest]
  have hworklist : m'.worklist = (c.aside m).worklist := by rw [hrest]
  have hmem : ∀ (o : Option Nat) i, i ∈ o.toList ↔ o = some i := fun o i => mem_toList
  refine ⟨fun i => ?_, fun i => ?_, ?_, fun i hi => ?_⟩
  · rw [hqueued, mem_queued_aside, hm.queued, mem_append, hmem]
  · grind [mem_worklist_aside, mem_worklist_of_returns?, hm.waiting, hm.queued, hm.known]
  · refine nodup_append.2 ⟨hm.once, by cases c.returns? m <;> simp, fun i hi j hj hij => ?_⟩
    subst hij
    have hwaits := (mem_worklist_of_returns? ((hmem _ _).1 hj)).1
    exact ((hm.waiting i).1 hwaits).2 hi
  · have hknown := @hm.known
    have hwaiting := @hm.waiting
    grind [mem_worklist_of_returns?]

include hm in
/-- Calls add to what was registered what they register, and to what was returned what they
    return. -/
theorem Serves.after (h : m.after calls = .ok m') :
    m'.Serves (registered ++ m.registered calls) (returned ++ m.returned calls) := by
  induction calls generalizing m registered returned with
  | nil =>
    cases h
    simpa [Method.registered, Method.returned, observe] using hm
  | cons c calls ih =>
    rw [Method.after] at h
    obtain ⟨m1, hc, h⟩ := ok_of_bind h
    unfold Method.registered Method.returned observe
    rw [hc]
    have hafter := ih (hm.apply hc) h
    rwa [List.append_assoc, List.append_assoc] at hafter

include hm in
/-- The next index is the least that was registered and not returned. -/
theorem Serves.first?_eq_some : m.worklist.first? = some i ↔
      i ∈ registered ∧ i ∉ returned ∧ ∀ j ∈ registered, j ∉ returned → i ≤ j := by
  grind [BitSet.first?_eq_some, hm.waiting]

include hm in
/-- There is no next index only if all that was registered was returned. -/
theorem Serves.first?_eq_none : m.worklist.first? = none ↔ ∀ i ∈ registered, i ∈ returned := by
  have hwaiting := @hm.waiting
  grind [BitSet.first?_eq_none]

theorem apply_nextBytecode : Call.nextBytecode.apply m = .ok m.dequeued := by
  have hrun : Emit.nextBytecode.run m = .ok (m.worklist.first?, m.dequeued) :=
    Emit.nextBytecode_eq_ok.2 ⟨rfl, rfl⟩
  have hlift : (liftM Emit.nextBytecode : Build (Option Nat)).run.run m =
      .ok (.ok m.worklist.first?, m.dequeued) := Build.lift_eq_ok.2 ⟨_, hrun, rfl⟩
  exact Call.apply_eq_ok.2 ⟨.ok (), Build.bind_eq_ok.2 (.inl ⟨_, _, hlift, rfl⟩)⟩

theorem returned_nextBytecode (calls : List Call) :
    m.returned (.nextBytecode :: calls) =
      m.worklist.first?.toList ++ m.dequeued.returned calls := by
  unfold returned
  rw [observe, apply_nextBytecode, returns?_nextBytecode]

/-- The next index can be asked for any number of times. -/
theorem exists_after_nextBytecode (n : Nat) :
    ∃ m', m.after (List.replicate n .nextBytecode) = .ok m' := by
  induction n generalizing m with
  | zero => exact ⟨m, rfl⟩
  | succ n ih =>
    rw [replicate_succ, after, apply_nextBytecode]
    exact ih

include hm in
/-- Whoever asks for the next index as often as something can be left gets all that was
    registered. -/
theorem Serves.drain {n : Nat} (hn : registered.length ≤ returned.length + n) :
    ∀ i ∈ registered, i ∈ returned ++ m.returned (List.replicate n .nextBytecode) := by
  induction n generalizing m returned with
  | zero =>
    -- as many indices were returned as were registered, and each of them was registered
    have hsub : returned.Subperm registered := subperm_of_subset hm.once hm.known
    exact fun i hi => mem_append_left _ ((hsub.perm_of_length_le hn).mem_iff.2 hi)
  | succ n ih =>
    have hnext := hm.apply apply_nextBytecode
    rw [returns?_nextBytecode] at hnext
    rw [replicate_succ, returned_nextBytecode]
    cases hfirst : m.worklist.first? with
    | none => exact fun i hi => mem_append_left _ (hm.first?_eq_none.1 hfirst i hi)
    | some j => grind [registers?, enqueues?]

end Method

/-! ## Builders that are made on the way -/

namespace Emit

theorem sameIndices_enqueue (b : BuilderId) : Within Method.SameIndices (enqueue b) := by
  intro m u m' h c
  obtain ⟨-, rfl⟩ := enqueue_eq_ok.1 h
  exact index?_enqueued b c

/-- The builder that is made for a state on its way to a target stands for the target's index. -/
theorem mergeBuilder_indices {s initial : VmState}
    (h : (mergeBuilder s initial target).run m = .ok (p, m')) (c : BuilderId) :
    m'.index? c = m.index? c ∨ m'.index? c = m.index? target := by
  obtain ⟨d, r, m1, m2, m3, hd, hr, h1, h2, h3, h4⟩ := mergeBuilder_eq_ok h
  obtain ⟨rfl, rfl⟩ := orphanBytecode_eq_ok h1
  have hsame := trans (trans
    (within_mergeInto (R := Method.SameIndices) _ _ _ _ _ h2)
    (sameIndices_gotoBuilder _ target _ _ _ h3)) (updateRecord_sameIndices h4 fun _ => rfl)
  rw [hsame c, index?_addBuilder]
  by_cases hc : c = m.builders.size
  · rw [if_pos hc, index?_of_builder? hd, hr]
    exact .inr rfl
  · rw [if_neg hc]
    exact .inl rfl

theorem carryState_indices (h : (carryState b target).run m = .ok (p, m')) (c : BuilderId) :
    m'.index? c = m.index? c ∨ m'.index? c = m.index? target := by
  obtain ⟨s, _, _, -, -, -, ⟨t, -, h⟩ | ⟨-, rfl, t, m1, m2, h1, h2, h3⟩⟩ := carryState_eq_ok h
  · exact mergeBuilder_indices h c
  · have hcopied := within_dealias (R := Method.SameIndices) _ _ _ _ h1
    exact .inl (trans (trans hcopied (updateRecord_sameIndices h2 fun _ => rfl))
      (updateRecord_sameIndices h3 fun _ => rfl) c)

theorem addSuccessor_indices (h : (addSuccessor b target).run m = .ok (p, m')) (c : BuilderId) :
    m'.index? c = m.index? c ∨ m'.index? c = m.index? target := by
  obtain ⟨m1, m2, h1, h2, rfl⟩ := addSuccessor_eq_ok h
  rw [index?_enqueued, updateRecord_sameIndices h2 (fun _ => rfl) c, index?_noted]
  exact carryState_indices h1 c

end Emit

open Emit in
/-- The builders that a registration makes stand for the index that it registers. -/
theorem Call.enqueues_indices (hc : c.enqueues? = some target)
    (hrun : c.apply m = .ok m') (b : BuilderId) :
    m'.index? b = m.index? b ∨ m'.index? b = m.index? target := by
  obtain ⟨r, h⟩ := apply_eq_ok.1 hrun
  clear hrun
  cases c
  case appendBytecode d =>
    cases hc
    obtain ⟨u, h, -⟩ := Build.lift_eq_ok.1 h
    have happend : Within Method.SameIndices (Emit.appendBytecode target) :=
      within_bind within_get fun _ => within_bind (within_dealias (b := root) _)
        fun _ => within_bind (fun _ _ _ h => updateRecord_sameIndices h fun _ => rfl) fun _ =>
          within_bind (sameIndices_append _ _) fun _ => sameIndices_enqueue _
    exact .inl (happend _ _ _ h b)
  case addSuccessor d t =>
    cases hc
    obtain ⟨p, h⟩ := of_discard_lift_eq_ok h
    exact addSuccessor_indices h b
  case addFallThrough | bytecodeGoto | bytecodeIfCmp | bytecodeIfCmpZero =>
    cases hc
    obtain ⟨p, m1, m2, d, opcode, operands, h1, h2, -, -, h3⟩ := registers_eq_ok rfl h
    rw [sameIndices_transfer _ _ _ _ _ _ _ h3 b, h2.within (R := Method.SameIndices) b]
    exact addSuccessor_indices h1 b
  all_goals nomatch hc

/-! ## The worklist -/

namespace Method

/-- At every point of a history, asking for the next index answers with the least that was
    registered and not returned, and with nothing only if there is none.  No index is returned
    twice, none but what was registered, and whoever keeps asking gets all that was.  Builders that
    a registration makes on the way stand for the index that it registers, so they add none. -/
theorem worklist_serves_least {name : String} {config : Config} {calls : List Call}
    (h : (Method.new name config).after calls = .ok m) :
    let registered := (Method.new name config).registered calls
    let returned := (Method.new name config).returned calls
    (∃ answer m', Emit.nextBytecode.run m = .ok (answer, m') ∧
      (∀ i, answer = some i ↔
        i ∈ registered ∧ i ∉ returned ∧ ∀ j ∈ registered, j ∉ returned → i ≤ j) ∧
      (answer = none ↔ ∀ i ∈ registered, i ∈ returned)) ∧
    returned.Nodup ∧ (∀ i ∈ returned, i ∈ registered) ∧
    (∃ m', m.after (List.replicate registered.length .nextBytecode) = .ok m' ∧
      ∀ i ∈ registered, i ∈ (Method.new name config).returned
        (calls ++ List.replicate registered.length .nextBytecode)) ∧
    ∀ (c : Call) m' target, c.enqueues? = some target → c.apply m = .ok m' →
      ∀ b, m'.index? b = m.index? b ∨ m'.index? b = m.index? target := by
  intro registered returned
  have hserves : m.Serves registered returned := by
    simpa using (serves_new name config).after h
  refine ⟨⟨m.worklist.first?, m.dequeued, Emit.nextBytecode_eq_ok.2 ⟨rfl, rfl⟩,
    fun i => hserves.first?_eq_some, hserves.first?_eq_none⟩, hserves.once, hserves.known, ?_,
    fun c m' target hc h b => Call.enqueues_indices hc h b⟩
  obtain ⟨m', hm'⟩ := exists_after_nextBytecode (m := m) registered.length
  refine ⟨m', hm', fun i hi => ?_⟩
  have hsplit : (Method.new name config).returned
      (calls ++ List.replicate registered.length .nextBytecode) =
        returned ++ m.returned (List.replicate registered.length .nextBytecode) := observe_append h
  rw [hsplit]
  exact hserves.drain (Nat.le_add_left _ _) i hi

/-- The bytecode starts at 4, which branches to 9 and goes on to 2; from 2 the branch back to 9
    goes through a builder of its own. -/
def visiting : List Call := [
  .setVmState .empty, .bytecodeBuilder 4, .bytecodeBuilder 9, .bytecodeBuilder 2,
  .appendBytecode 1, .nextBytecode, .constInt 1 .int32 0, .bytecodeIfCmp 1 .eq 2 0 0,
  .bytecodeGoto 1 3, .nextBytecode, .bytecodeGoto 3 2]

/-- A case of it: of the indices 4, 9, 2 and again 9, those that were returned are 4 and 2, so 9 is
    next and is there once more only. -/
theorem worklist_serves_visiting : ∃ m m',
    (Method.new "visiting" {}).after visiting = .ok m ∧
    (Method.new "visiting" {}).registered visiting = [4, 9, 2, 9] ∧
    (Method.new "visiting" {}).returned visiting = [4, 2] ∧ m.index? 4 = some 9 ∧
    Emit.nextBytecode.run m = .ok (some 9, m') := by
  have hcheck : passes ((Method.new "visiting" {}).after visiting) (fun m => decide (
      (Method.new "visiting" {}).registered visiting = [4, 9, 2, 9] ∧
      (Method.new "visiting" {}).returned visiting = [4, 2] ∧
      m.index? 4 = some 9)) = true := by decide +kernel
  obtain ⟨m, hafter, hregistered, hreturned, hmade⟩ := of_passes_decide hcheck
  obtain ⟨⟨answer, m', hrun, hsome, -⟩, -⟩ := worklist_serves_least hafter
  have hanswer : answer = some 9 := by
    rw [hsome, hregistered, hreturned]
    decide
  rw [hanswer] at hrun
  exact ⟨m, m', hafter, hregistered, hreturned, hmade, hrun⟩

end Method
end MethodGraph
