import MethodGraph.Proofs.Channels
import MethodGraph.Proofs.Worklist
/-!
  Methods that are transcribed from bytecode.

  Whoever transcribes bytecode asks for the builder of an index, fills builders with straight code
  and leaves them by returning or by a transfer to the builder of another index
  (`Method.transcribes`).  On the way to its target control may pass a builder that was made for the
  states to meet.  Ranked by their indices, with the builders made on the way right below the one
  that they lead to, builders are left for builders of a higher rank as long as no edge leads to a
  smaller index or back to the builder that it comes from, which is what `mayLoop` notes
  (`Method.Graded`).

  Main statement: a graph transcribed from bytecode that has a cycle is noted for it, and runs of
  one that is not noted enter no block twice (`Method.cycle_noted`).
-/

namespace MethodGraph

open Method Function Nat List Build VmState Accrues

variable {r : Except BuildError Unit} {index : Int} {calls : List Call} {j : Nat} {u : Unit}

variable {m m' : Method} {b c p target : BuilderId} {i : Nat} {level : BuilderId → WithTop Nat}

/-! ## Transcripts -/

namespace Method

/-- The builder is the one that whoever asks for its index is given. -/
def isFirst (m : Method) (b : BuilderId) : Bool :=
  (m.index? b).any fun (i : Nat) => m.bytecodeBuilder? i = some b

end Method

/-- The call is one by which bytecode is transcribed: a line of code, a definition, a return, or a
    transfer between builders that were asked for by their indices. -/
def Call.transcribes (m : Method) (c : Call) : Bool :=
  c.line?.isSome || match c with
  | defineName _ | defineFile _ | defineLine _ | defineParameter .. | defineLocal ..
  | defineReturnType _ | defineFunction _ | allLocalsDefined | setResolver _ | setTypes _
  | setVmState _ | bytecodeBuilder _ | appendBytecode _ | nextBytecode | function ..
  | returnVoid _ | returnValue .. => true
  | addFallThrough b target | bytecodeGoto b target | bytecodeIfCmp b _ target _ _
  | bytecodeIfCmpZero b _ target _ => m.isFirst b && m.isFirst target
  | _ => false

/-- All of some calls, one after the other, are ones by which bytecode is transcribed. -/
def Method.transcribes (m : Method) : List Call → Bool
  | [] => true
  | c :: cs => c.transcribes m && passes (c.apply m) (·.transcribes cs)

/-! ## Ranks by index -/

namespace Method

theorem Climbs.enqueued {rank : BlockId → WithTop Nat} (h : m.Climbs level rank) (b : BuilderId) :
    (m.enqueued b).Climbs level rank := by
  unfold Method.enqueued
  split
  · exact h
  · exact h.congr rfl rfl

/-- No builder that was made earlier stands for the index. -/
structure First (m : Method) (b : BuilderId) (i : Nat) : Prop where
  index : m.index? b = some i
  least : ∀ c < b, m.index? c ≠ some i

theorem any_record? : ((m.record? b).any fun r => (r.index : Int) = index) = true ↔
      ∃ i : Nat, m.index? b = some i ∧ (i : Int) = index := by
  unfold index?
  cases m.record? b <;> simp

theorem First.of_isFirst (h : m.isFirst b = true) : ∃ i, m.First b i := by
  obtain ⟨i, hi, hfind⟩ := (Option.any_eq_true _ _).1 h
  obtain ⟨-, -, hleast⟩ := find?_range_eq_some.1 (of_decide_eq_true hfind)
  refine ⟨i, hi, fun c hc hci => ?_⟩
  have hnot := hleast c hc
  rw [any_record?.2 ⟨i, hci, rfl⟩] at hnot
  cases hnot

/-- All edges lead upwards where the rank of a builder follows from its index: that of the first
    builder for an index is right above that of the later ones, which were made to lead to it. -/
structure Graded (level : BuilderId → WithTop Nat) (m : Method) : Prop where
  climbs : ∃ rank, m.Climbs level rank
  body : m.index? Method.root = none
  first : ∀ b i, m.First b i → level b = WithTop.some (2 * i + 2)
  later : ∀ b c i, c < b → m.index? c = some i → m.index? b = some i →
    level b = WithTop.some (2 * i + 1)

variable (h : m.Graded level)

namespace Graded

include h in
/-- The rank of the body, which stands for no index, may be another one. -/
theorem relevel {level' : BuilderId → WithTop Nat} (hi : m.SameIndices m')
    (hlevel : ∀ b ≠ Method.root, level' b = level b) (hclimbs : ∃ rank, m'.Climbs level' rank) :
    m'.Graded level' := by
  have hbody : m'.index? root = none := (hi root).trans h.body
  have hkept : ∀ {b i}, m'.index? b = some i → level' b = level b := by
    intro b i hb
    refine hlevel b ?_
    rintro rfl
    cases hbody.symm.trans hb
  refine ⟨hclimbs, hbody, fun b i hb => ?_, fun b c i hlt hc hb => ?_⟩
  · rw [hkept hb.index]
    exact h.first b i ⟨hi b ▸ hb.index, fun c hc hci => hb.least c hc ((hi c).trans hci)⟩
  · rw [hkept hb]
    exact h.later b c i hlt (hi c ▸ hc) (hi b ▸ hb)

include h in
theorem of_sameIndices (hi : m.SameIndices m') (ha : m.Ascends level m') :
    m'.Graded level := h.relevel hi (fun _ _ => rfl) (h.climbs.elim ha)

include h in
theorem congr (hg : m'.graph.blocks = m.graph.blocks) (hb : m'.builders = m.builders)
    : m'.Graded level := by
  refine h.of_sameIndices (fun b => ?_) fun rank hr => ⟨rank, hr.congr hg hb⟩
  unfold index? record?
  rw [hb]

include h in
theorem ne_root (hb : m.index? b = some i) : b ≠ Method.root := by
  rintro rfl
  rw [h.body] at hb
  cases hb

include h in
/-- A builder that stands for an index is no further below than the later ones for it. -/
theorem le_level (hb : m.index? b = some i) : WithTop.some (2 * i + 1) ≤ level b := by
  by_cases hex : ∃ c < b, m.index? c = some i
  · obtain ⟨c, hc, hci⟩ := hex
    exact (h.later b c i hc hci hb).ge
  · rw [h.first b i ⟨hb, fun c hc hci => hex ⟨c, hc, hci⟩⟩]
    exact WithTop.coe_le_coe.2 (le_succ _)

include h in
theorem root_lt : Method.root < m.builders.size := by
  obtain ⟨rank, hclimbs⟩ := h.climbs
  exact hclimbs.body

include h in
/-- A new builder is ranked by its index and by whether it is the first for it. -/
theorem addBuilder (r : BytecodeRecord) :
    ∃ level', (m.addBuilder (some r)).Graded level' ∧
      ∀ c < m.builders.size, level' c = level c := by
  obtain ⟨rank, hclimbs⟩ := h.climbs
  obtain ⟨top, htop, hfirst, hlater⟩ : ∃ top : WithTop Nat, top ≠ ⊤ ∧
      ((∀ c, m.index? c ≠ some r.index) → top = WithTop.some (2 * r.index + 2)) ∧
      ∀ c, m.index? c = some r.index → top = WithTop.some (2 * r.index + 1) := by
    by_cases hex : ∃ c, m.index? c = some r.index
    · obtain ⟨c, hc⟩ := hex
      exact ⟨_, WithTop.coe_ne_top, fun hnone => absurd hc (hnone c), fun _ _ => rfl⟩
    · exact ⟨_, WithTop.coe_ne_top, fun _ => rfl, fun c hc => absurd ⟨c, hc⟩ hex⟩
  have hold : ∀ {c j}, m.index? c = some j → (m.addBuilder (some r)).index? c = some j := by
    intro c j hc
    rw [index?_addBuilder, if_neg (lt_of_index? hc).ne]
    exact hc
  have hback : ∀ {b c j}, (m.addBuilder (some r)).index? b = some j → c < b →
      (m.addBuilder (some r)).index? c = some j → m.index? c = some j := by
    intro b c j hb hcb hc
    rw [index?_addBuilder] at hb hc
    split at hc
    · next hcn =>
      rw [if_neg (ne_of_gt (hcn ▸ hcb))] at hb
      exact absurd (hcn ▸ hcb) (lt_asymm (lt_of_index? hb))
    · exact hc
  refine ⟨update level m.builders.size top, ⟨hclimbs.addBuilder htop _, ?_, ?_, ?_⟩,
    fun c hc => Function.update_of_ne hc.ne ..⟩
  · rw [index?_addBuilder, if_neg h.root_lt.ne]
    exact h.body
  · rintro b j ⟨hb, hleast⟩
    rw [index?_addBuilder] at hb
    split at hb
    · grind [lt_of_index?]
    · next hbn =>
      rw [update_of_ne hbn]
      exact h.first b j ⟨hb, fun c hc hci => hleast c hc (hold hci)⟩
  · grind [index?_addBuilder, h.later]

end Graded
end Method

/-! ## Transfers -/

variable (h : m.Graded level) (ht : m.First target i)

namespace Emit

/-- A return leads nowhere. -/
theorem ascends_return (b : BuilderId) (operands : List ValueId) :
    Within (Method.Ascends level) (transfer b .ret operands []) :=
  fun _ _ _ hrun _ h => transfer_climbs h (show Opcode.ret ≠ .transactionBegin by simp)
    (fun _ hy => absurd hy not_mem_nil) hrun

/-- A transfer to the entry of a builder of a higher rank. -/
theorem transfer_ascends {opcode : Opcode} {operands : List ValueId} {d : Builder}
    (hp : p ≠ Method.root) (hlevel : level b < level p) (hd : m.builder? p = some d)
    (hop : opcode = .goto ∨ ∃ cmp, opcode = .branch cmp)
    (hrun : (transfer b opcode operands [d.entry]).run m = .ok (u, m')) : m.Ascends level m' := by
  intro rank h
  obtain ⟨-, hentry, -⟩ := (h.builders p d hd).apart hp
  refine transfer_climbs h ?_ (fun y hy => .inr ?_) hrun
  · rcases hop with rfl | ⟨cmp, rfl⟩ <;> simp
  · rw [mem_singleton.1 hy, hentry.rank]
    exact ⟨hentry.lt, hlevel⟩

/-- A new builder for an index. -/
theorem orphanBytecode_graded (h : m.Graded level) {name : Option String}
    (hrun : (orphanBytecode index name).run m = .ok (b, m')) :
    ∃ level', m'.Graded level' ∧ m.builders.size = b ∧ m'.index? b = some index.toNat ∧
      ∀ c < m.builders.size, level' c = level c ∧ m'.index? c = m.index? c := by
  obtain ⟨rfl, rfl⟩ := orphanBytecode_eq_ok hrun
  obtain ⟨level', hnew, hold⟩ := h.addBuilder { index := index.toNat, name }
  refine ⟨level', hnew, rfl, ?_, fun c hc => ⟨hold c hc, ?_⟩⟩
  · rw [index?_addBuilder, if_pos rfl]
  · rw [index?_addBuilder, if_neg hc.ne]

include h ht in
/-- The builder in which a state is stored over another leads to the first one for its index. -/
theorem mergeBuilder_graded {s initial : VmState}
    (hrun : (mergeBuilder s initial target).run m = .ok (p, m')) :
    ∃ level', m'.Graded level' ∧ (∀ c < m.builders.size, level' c = level c) ∧
      m'.index? p = some i := by
  have hlt := lt_of_index? ht.index
  obtain ⟨d, r, m1, m2, m3, hd, hr, h2, h3, h4, h5⟩ := mergeBuilder_eq_ok hrun
  have hindex : some r.index = some i := by
    rw [← ht.index, index?_of_builder? hd, hr]
    rfl
  cases hindex
  obtain ⟨level', hnew, rfl, hn, hold⟩ := orphanBytecode_graded h h2
  have htarget : m1.index? target = some r.index := (hold target hlt).2.trans ht.index
  have hlevel : level' m.builders.size < level' target := by
    rw [hnew.later _ target r.index hlt htarget hn, (hold target hlt).1, h.first target _ ht]
    exact WithTop.coe_lt_coe.2 (lt_succ_self _)
  have hmerged := within_mergeInto (R := Method.SameIndices) _ _ _ _ _ h3
  have hgone := sameIndices_gotoBuilder _ _ _ _ _ h4
  have hsame := trans (trans hmerged hgone)
    (updateRecord_sameIndices h5 fun _ => rfl)
  refine ⟨level', hnew.of_sameIndices hsame fun rank hr => ?_, fun c hc => (hold c hc).1,
    (hsame _).trans hn⟩
  obtain ⟨rank1, hr1⟩ :=
    within_mergeInto (R := Method.Ascends level') _ _ _ _ _ h3 rank hr
  obtain ⟨e, he, hto⟩ := gotoBuilder_eq_ok h4
  obtain ⟨rank2, hr2⟩ :=
    transfer_ascends (hnew.ne_root htarget) hlevel he (.inl rfl) hto rank1 hr1
  exact ⟨rank2, updateRecord_climbs hr2 h5⟩

include h ht in
/-- Where a state goes on its way to the first builder for an index stands for that index. -/
theorem carryState_graded (hrun : (carryState b target).run m = .ok (p, m')) :
    ∃ level', m'.Graded level' ∧ (∀ c < m.builders.size, level' c = level c) ∧
      m'.index? p = some i := by
  obtain ⟨s, _, _, -, -, -, ⟨t, -, hrun⟩ | ⟨-, rfl, t, m1, m2, h1, h2, h3⟩⟩ :=
    carryState_eq_ok hrun
  · exact mergeBuilder_graded h ht hrun
  · have hcopied := within_dealias (R := Method.SameIndices) _ _ _ _ h1
    have hstarted := updateRecord_sameIndices h2 fun _ => rfl
    have hsame := trans (trans hcopied hstarted)
      (updateRecord_sameIndices h3 fun _ => rfl)
    refine ⟨level, h.of_sameIndices hsame fun rank hr => ?_, fun _ _ => rfl,
      (hsame target).trans ht.index⟩
    obtain ⟨rank', hr'⟩ := within_dealias (R := Method.Ascends level) _ _ _ _ h1 rank hr
    exact ⟨rank', updateRecord_climbs (updateRecord_climbs hr' h2) h3⟩

include h ht in
/-- Registering a successor leaves it at that. -/
theorem addSuccessor_graded (hrun : (addSuccessor b target).run m = .ok (p, m')) :
    ∃ level', m'.Graded level' ∧ (∀ c < m.builders.size, level' c = level c) ∧
      m'.index? p = some i := by
  obtain ⟨m1, m2, h1, h2, rfl⟩ := addSuccessor_eq_ok hrun
  obtain ⟨level', hcarried, hold, hp⟩ := carryState_graded h ht h1
  have hsame : m1.SameIndices (m2.enqueued target) := fun c => by
    rw [index?_enqueued, updateRecord_sameIndices h2 (fun _ => rfl) c, index?_noted]
  refine ⟨level', hcarried.of_sameIndices hsame fun rank hr => ⟨rank, ?_⟩, hold,
    (hsame p).trans hp⟩
  refine (updateRecord_climbs ?_ h2).enqueued target
  unfold noted
  split
  · exact hr.congr rfl rfl
  · exact hr

/-- The body has the lowest rank until the bytecode starts, and the highest from then on. -/
theorem appendBytecode_graded (h : m.Graded level) (hroot : level Method.root = WithTop.some 0)
    (hrun : (appendBytecode b).run m = .ok (u, m')) : ∃ level', m'.Graded level' := by
  obtain ⟨_, _, h1, hrun⟩ := bind_eq_ok.1 hrun
  obtain ⟨rfl, rfl⟩ := get_eq_ok.1 h1
  obtain ⟨s, m1, h2, hrun⟩ := bind_eq_ok.1 hrun
  obtain ⟨_, m2, h3, hrun⟩ := bind_eq_ok.1 hrun
  obtain ⟨_, m3, h4, hrun⟩ := bind_eq_ok.1 hrun
  obtain ⟨rank, hr⟩ := h.climbs
  obtain ⟨rank', hr⟩ := within_dealias (R := Method.Ascends level) _ _ _ _ h2 rank hr
  have hcopied := within_dealias (R := Method.SameIndices) _ _ _ _ h2
  have hstarted := trans hcopied (updateRecord_sameIndices h3 fun _ => rfl)
  have hsame := trans (trans hstarted (sameIndices_append _ _ _ _ _ h4))
    (sameIndices_enqueue _ _ _ _ hrun)
  -- only a builder that stands for an index can be started
  have hlevel : level root < level b := by
    obtain ⟨d, r, hd, hrec, -⟩ := updateRecord_eq_ok.1 h3
    have hb : m1.index? b = some r.index := by
      rw [index?_of_builder? hd, hrec]
      rfl
    rw [hroot]
    refine lt_of_lt_of_le ?_ (h.le_level ((hcopied b).symm.trans hb))
    exact WithTop.coe_lt_coe.2 (succ_pos _)
  have hplaced := append_climbs (updateRecord_climbs hr h3) hlevel h4
  refine ⟨update level root ⊤,
    h.relevel hsame (fun b hb => update_of_ne hb ..) ⟨rank', ?_⟩⟩
  obtain ⟨-, rfl⟩ := enqueue_eq_ok.1 hrun
  exact hplaced.enqueued b

end Emit

/-! ## Calls -/

namespace Method

@[simp] theorem mayLoop_enqueued (b : BuilderId) : (m.enqueued b).mayLoop = m.mayLoop := by
  unfold enqueued
  split <;> rfl

/-- If no cycle is noted, an edge between first builders leads to a greater index. -/
theorem First.lt_of_noted (hb : m.First b i) (ht : m.First target j)
    (h : (m.noted b target).mayLoop = false) : i < j := by
  grind [noted, hb.index, ht.index, hb.least, ht.least]

end Method

namespace Call

variable {c : Call}

/-- What is noted stays noted. -/
theorem mayLoop_of_aside (h : (c.aside m).mayLoop = false) : m.mayLoop = false := by
  cases c
  case forLoop | whileDo | doWhile => cases h
  case function b name args =>
    rw [aside, request_rest] at h
    exact h
  case nextBytecode =>
    rw [aside, dequeued] at h
    split at h <;> exact h
  case appendBytecode b =>
    rw [aside, mayLoop_enqueued] at h
    exact h
  case addSuccessor b target | addFallThrough b target | bytecodeGoto b target
      | bytecodeIfCmp b _ target _ _ | bytecodeIfCmpZero b _ target _ =>
    rw [aside, mayLoop_enqueued, noted] at h
    split at h
    · cases h
    · exact h
  all_goals exact h

theorem mayLoop_of_apply (h : c.apply m = .ok m') (hloop : m'.mayLoop = false) :
    (c.aside m).mayLoop = false := by
  obtain ⟨r, hrun⟩ := apply_eq_ok.1 h
  rw [(emitted hrun).rest] at hloop
  exact hloop

open Emit in
/-- A transfer to a greater index keeps the builders ranked. -/
theorem graded_of_registers
    (hc : c.registers = some (b, target)) (hrun : c.run.run.run m = .ok (r, m'))
    (hm : m.Graded level) (hb : m.First b i) (ht : m.First target j) (hij : i < j) :
    ∃ level', m'.Graded level' ∧ level' Method.root = level Method.root := by
  obtain ⟨p, m1, m2, d, opcode, operands, h1, h2, hd, hop, h3⟩ := registers_eq_ok hc hrun
  obtain ⟨level', hnew, hold, hp⟩ := addSuccessor_graded hm ht h1
  have hlevel : level' b < level' p := by
    refine lt_of_lt_of_le ?_ (hnew.le_level hp)
    rw [hold b (lt_of_index? hb.index), hm.first b i hb]
    exact WithTop.coe_lt_coe.2 (by omega)
  have hsame : m1.SameIndices m' := trans h2.within (sameIndices_transfer _ _ _ _ _ _ _ h3)
  have hleft := trans (R := Method.Ascends level') h2.within
    (transfer_ascends (hnew.ne_root hp) hlevel hd hop h3)
  exact ⟨level', hnew.of_sameIndices hsame hleft, hold _ hm.root_lt⟩

open Emit in
/-- What neither leaves a builder nor starts the bytecode keeps the builders ranked, too. -/
theorem graded_of_stays (hc : c.transcribes m = true)
    (hstays : c.registers = none) (hstarts : c.restarts = false)
    (hrun : c.run.run.run m = .ok (r, m')) (hm : m.Graded level) :
    ∃ level', m'.Graded level' ∧ level' Method.root = level Method.root := by
  cases hline : c.line? with
  | some b =>
    exact ⟨level, hm.of_sameIndices (within_line hline (fun _ => inferInstance) m r m' hrun)
      (within_line hline (fun _ => inferInstance) m r m' hrun), rfl⟩
  | none =>
    unfold transcribes at hc
    rw [hline] at hc
    cases c with
    | defineName | defineFile | defineLine | defineReturnType | defineFunction | allLocalsDefined
    | setResolver | setTypes | setVmState =>
      cases hrun
      exact ⟨level, hm.congr rfl rfl, rfl⟩
    | defineParameter name ty | defineLocal name ty =>
      cases hrun
      exact ⟨level, hm.congr (m.graph.define_keeps name ty _).1 rfl, rfl⟩
    | bytecodeBuilder index =>
      obtain ⟨a, hrun⟩ := of_discard_lift_eq_ok hrun
      obtain ⟨_, _, h1, hrun⟩ := bind_eq_ok.1 hrun
      obtain ⟨rfl, rfl⟩ := get_eq_ok.1 h1
      cases hfind : m.bytecodeBuilder? index with
      | some b =>
        rw [hfind] at hrun
        obtain ⟨-, rfl⟩ := pure_eq_ok.1 hrun
        exact ⟨level, hm, rfl⟩
      | none => grind [orphanBytecode_graded, hm.root_lt]
    | nextBytecode =>
      obtain ⟨a, hrun⟩ := of_discard_lift_eq_ok hrun
      obtain ⟨-, rfl⟩ := nextBytecode_eq_ok.1 hrun
      refine ⟨level, ?_, rfl⟩
      unfold dequeued
      split
      · exact hm
      · exact hm.congr rfl rfl
    | function b name args =>
      obtain ⟨s, hrun⟩ := of_discard_eq_ok hrun
      have hasked : (m.request name).Graded level := by
        rw [request_rest]
        exact hm.congr rfl rfl
      exact ⟨level, hasked.of_sameIndices (call_within hrun) (call_within hrun), rfl⟩
    | returnVoid b =>
      obtain ⟨u, hrun, -⟩ := lift_eq_ok.1 hrun
      exact ⟨level, hm.of_sameIndices (sameIndices_transfer _ _ _ _ _ _ _ hrun)
        (ascends_return _ _ _ _ _ hrun), rfl⟩
    | returnValue b v =>
      obtain ⟨u, hrun, -⟩ := lift_eq_ok.1 hrun
      have hreturn : ∀ {R : Method → Method → Prop} [Accrues R],
          Emit.Within R (transfer b .ret [v] []) → Emit.Within R (Emit.returnValue b v) :=
        fun hx => within_bind (within_typeOf v) fun _ => within_bind within_get fun _ =>
          within_guard hx
      exact ⟨level, hm.of_sameIndices (hreturn (sameIndices_transfer _ _ _ _) _ _ _ hrun)
        (hreturn (ascends_return _ _) _ _ _ hrun), rfl⟩
    | appendBytecode => cases hstarts
    | addFallThrough | bytecodeGoto | bytecodeIfCmp | bytecodeIfCmpZero => cases hstays
    | _ => cases hc

/-- As long as no cycle is noted, transcribing bytecode keeps the builders ranked by their
    indices. -/
theorem graded (hc : c.transcribes m = true) (h : c.apply m = .ok m') (hloop : m'.mayLoop = false)
    (hm : m.Graded level) (hroot : c.restarts = true → level Method.root = WithTop.some 0) :
    ∃ level', m'.Graded level' ∧
      (c.restarts = false → level' Method.root = level Method.root) := by
  have haside := mayLoop_of_apply h hloop
  obtain ⟨r, hrun⟩ := apply_eq_ok.1 h
  cases hleaves : c.registers with
  | some bt =>
    obtain ⟨b, target⟩ := bt
    obtain ⟨hfirst, hnoted⟩ : (m.isFirst b && m.isFirst target) = true ∧
        (m.noted b target).mayLoop = false := by
      rw [← mayLoop_enqueued target]
      cases c
      case addFallThrough | bytecodeGoto | bytecodeIfCmp | bytecodeIfCmpZero =>
        cases hleaves
        exact ⟨hc, haside⟩
      all_goals nomatch hleaves
    obtain ⟨hb, ht⟩ := Bool.and_eq_true_iff.1 hfirst
    obtain ⟨i, hb⟩ := Method.First.of_isFirst hb
    obtain ⟨j, ht⟩ := Method.First.of_isFirst ht
    obtain ⟨level', hnew, hbody⟩ :=
      graded_of_registers hleaves hrun hm hb ht (hb.lt_of_noted ht hnoted)
    exact ⟨level', hnew, fun _ => hbody⟩
  | none =>
    cases hstarts : c.restarts with
    | false => grind [graded_of_stays]
    | true =>
      cases c
      case appendBytecode b =>
        obtain ⟨u, hrun, -⟩ := lift_eq_ok.1 hrun
        obtain ⟨level', hnew⟩ := Emit.appendBytecode_graded hm (hroot rfl) hrun
        exact ⟨level', hnew, fun h => nomatch h⟩
      all_goals nomatch hstarts

end Call

/-! ## Histories -/

namespace Method

theorem graded_new (name : String) (config : Config) :
    (Method.new name config).Graded fun _ => WithTop.some 0 := by
  have hnone : ∀ b, (new name config).index? b = none
    | 0 => rfl
    | _ + 1 => rfl
  refine ⟨⟨_, .new name config _⟩, rfl, fun b i hb => ?_, fun b c i _ _ hb => ?_⟩
  · cases (hnone b).symm.trans hb.index
  · cases (hnone b).symm.trans hb

theorem mayLoop_of_after (h : m.after calls = .ok m')
    (hloop : m'.mayLoop = false) : m.mayLoop = false := by
  induction calls generalizing m with
  | nil =>
    cases h
    exact hloop
  | cons c calls ih =>
    rw [after] at h
    obtain ⟨m1, hc, h⟩ := ok_of_bind h
    exact Call.mayLoop_of_aside (Call.mayLoop_of_apply hc (ih h))

/-- As long as the bytecode starts once and no cycle is noted, the builders stay ranked. -/
theorem Graded.after (hm : m.Graded level) (h : m.after calls = .ok m')
    (ht : m.transcribes calls = true) (hloop : m'.mayLoop = false)
    (hstarts : calls.countP Call.restarts = 0 ∨
      calls.countP Call.restarts ≤ 1 ∧ level Method.root = WithTop.some 0) :
    (∃ level', m'.Graded level') ∧ ∀ c ∈ calls, c.forgets = false := by
  induction calls generalizing m level with
  | nil =>
    cases h
    exact ⟨⟨level, hm⟩, fun _ hc => absurd hc not_mem_nil⟩
  | cons c calls ih =>
    rw [after] at h
    obtain ⟨hc, hrest⟩ := Bool.and_eq_true_iff.1 ht
    obtain ⟨m1, happly, hrest⟩ := of_passes hrest
    rw [happly] at h
    rw [countP_cons] at hstarts
    obtain ⟨level', hnew, hbody⟩ := Call.graded hc happly (mayLoop_of_after h hloop) hm (by
      intro hc
      rw [if_pos hc] at hstarts
      exact hstarts.elim (fun h => absurd h (succ_ne_zero _)) And.right)
    have hforgets : c.forgets = false := by
      cases c
      case handler => cases hc
      all_goals rfl
    obtain ⟨hdone, hall⟩ := ih hnew h hrest (by
      cases hc : c.restarts with
      | true =>
        rw [if_pos hc] at hstarts
        exact .inl (by omega)
      | false =>
        rw [if_neg (by rw [hc]; exact Bool.false_ne_true), add_zero] at hstarts
        rw [hbody hc]
        exact hstarts)
    exact ⟨hdone, forall_mem_cons.2 ⟨hforgets, hall⟩⟩

theorem mayLoop_of_connect
    (h : Build.connect.run.run m = .ok (r, m')) : m'.mayLoop = m.mayLoop := by
  rcases connect_cases h with ⟨-, -, rfl⟩ | ⟨-, layout, m1, g, w, hrun, -, rfl, -⟩
  · rfl
  · have hemits : m.Emitted m1 := Emit.within_connectBuilders _ _ _ hrun
    show m1.mayLoop = m.mayLoop
    rw [hemits.rest]

/-- A graph that is transcribed from bytecode with one start is noted if edges lead from a block
    back to it.  If it is not noted, no run enters a block twice. -/
theorem cycle_noted {name : String} {config : Config} {calls : List Call}
    {r : Except BuildError Unit} (h : (Method.new name config).after calls = .ok m)
    (hcalls : (Method.new name config).transcribes calls = true)
    (hstart : calls.countP Call.restarts ≤ 1) (hconnect : Build.connect.run.run m = .ok (r, m')) :
    (∀ x, Relation.TransGen (fun x y => y ∈ m'.graph.succsOf x) x x → m'.mayLoop = true) ∧
    (m'.mayLoop = false → ∀ ev : Evaluator, ev.graph = m'.graph → ∀ args,
      (ev.runLogged args).2 = ev.run args ∧ (ev.runLogged args).1.Nodup) := by
  have hflat : m'.mayLoop = false → m'.graph.Channels ∧ ∃ rank, m'.graph.Climbs rank := by
    intro hloop
    rw [mayLoop_of_connect hconnect] at hloop
    obtain ⟨⟨level, hgraded⟩, hkept⟩ :=
      (graded_new name config).after h hcalls hloop (.inr ⟨hstart, rfl⟩)
    obtain ⟨rank, hclimbs⟩ := hgraded.climbs
    exact hclimbs.connect h hkept hconnect
  refine ⟨fun x hcycle => ?_, fun hloop ev hev args => ?_⟩
  · cases hloop : m'.mayLoop with
    | true => rfl
    | false =>
      obtain ⟨-, rank, hclimbs⟩ := hflat hloop
      exact absurd hcycle (hclimbs.acyclic x)
  · obtain ⟨hchannels, rank, hclimbs⟩ := hflat hloop
    rw [← hev] at hchannels hclimbs
    exact ⟨ev.runLogged_answer args, Evaluator.runLogged_nodup hchannels hclimbs args⟩

/-- The bytecode at 0 branches to 4 and goes on to 2, from where control goes back to 0 by way of a
    builder that is made for it. -/
def circling : List Call := [
  .bytecodeBuilder 0, .bytecodeBuilder 2, .bytecodeBuilder 4, .appendBytecode 1, .nextBytecode,
  .constInt 1 .int32 0, .bytecodeIfCmp 1 .eq 3 0 0, .addFallThrough 1 2, .nextBytecode,
  .bytecodeGoto 2 1, .nextBytecode, .returnVoid 3]

/-- The bytecode at 0 branches to 4 and goes on to 2, and both go on to 6: one of them by way of a
    builder that is made for it. -/
def joining : List Call := [
  .bytecodeBuilder 0, .bytecodeBuilder 2, .bytecodeBuilder 4, .bytecodeBuilder 6,
  .appendBytecode 1, .constInt 1 .int32 0, .bytecodeIfCmp 1 .eq 3 0 0, .addFallThrough 1 2,
  .bytecodeGoto 2 4, .addFallThrough 3 4, .returnVoid 4]

/-- Cases of it: the cycle through 0 and 2 is noted; of the other method nothing is noted, and a run
    that passes five blocks enters each of them once, as every run does. -/
theorem cycle_noted_branching :
    (∃ m r m', (Method.new "circling" {}).after circling = .ok m ∧
      Build.connect.run.run m = .ok (r, m') ∧
      Relation.TransGen (fun x y => y ∈ m'.graph.succsOf x) 2 2 ∧ m'.mayLoop = true) ∧
    ∃ m r m', (Method.new "joining" {}).after joining = .ok m ∧
      Build.connect.run.run m = .ok (r, m') ∧ m'.mayLoop = false ∧
      (Evaluator.runLogged { graph := m'.graph, hosts := {} } []).1 = [0, 2, 6, 11, 8] ∧
      ∀ args, (Evaluator.runLogged { graph := m'.graph, hosts := {} } args).1.Nodup := by
  constructor
  · have hcheck : passes ((Method.new "circling" {}).after circling) (fun m =>
        passes (Build.connect.run.run m) fun p => decide (8 ∈ p.2.graph.succsOf 2 ∧
          4 ∈ p.2.graph.succsOf 8 ∧ 9 ∈ p.2.graph.succsOf 4 ∧ 2 ∈ p.2.graph.succsOf 9)) = true := by
      decide +kernel
    obtain ⟨m, hafter, hcheck⟩ := of_passes hcheck
    obtain ⟨⟨r, m'⟩, hconnect, h₁, h₂, h₃, h₄⟩ := of_passes_decide hcheck
    have hcycle : Relation.TransGen (fun x y => y ∈ m'.graph.succsOf x) 2 2 :=
      .head h₁ (.head h₂ (.head h₃ (.single h₄)))
    obtain ⟨hnoted, -⟩ := cycle_noted hafter (by decide +kernel) (by decide) hconnect
    exact ⟨m, r, m', hafter, hconnect, hcycle, hnoted 2 hcycle⟩
  · have hcheck : passes ((Method.new "joining" {}).after joining) (fun m =>
        passes (Build.connect.run.run m) fun p => decide (p.2.mayLoop = false ∧
          (Evaluator.runLogged { graph := p.2.graph, hosts := {} } []).1 = [0, 2, 6, 11, 8])) =
            true := by decide +kernel
    obtain ⟨m, hafter, hcheck⟩ := of_passes hcheck
    obtain ⟨⟨r, m'⟩, hconnect, hloop, hrun⟩ := of_passes_decide hcheck
    obtain ⟨-, honce⟩ := cycle_noted hafter (by decide +kernel) (by decide) hconnect
    exact ⟨m, r, m', hafter, hconnect, hloop, hrun, fun args => (honce hloop _ rfl args).2⟩

end Method

end MethodGraph
