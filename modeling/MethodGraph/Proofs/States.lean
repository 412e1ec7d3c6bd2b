import MethodGraph.Proofs.Arrivals
/-!
  The states of a method and of its builders, and the values they are made of.

  Steps of building leave the states alone unless they have the license to change records
  (`Step.sameStates`).  A state in which slots share a value gets copies for all but the first of
  them; the copies are new values, so no slot has one of them already, provided that all slots have
  values that there are (`VmState.dealias_takes`).  A state that was read from its storage, and one
  with another stack in place of its own, have values that there are, too.
-/

namespace MethodGraph

open Method List Nat

variable {α β : Type} {l : License} {m m1 m' : Method} {b c e : BuilderId} {ty : Ty}
  {base : ValueId}

/-! ## What leaves the states alone -/

namespace Method

/-- The method and its builders have the same states. -/
structure SameStates (m m' : Method) : Prop where
  held : m'.vmState = m.vmState
  initial : ∀ b, m'.initial? b = m.initial? b
  state : ∀ b, m'.state? b = m.state? b

namespace SameStates

theorem refl (m : Method) : m.SameStates m := ⟨rfl, fun _ => rfl, fun _ => rfl⟩

theorem trans (h : m.SameStates m1) (h' : m1.SameStates m') : m.SameStates m' :=
  ⟨h'.held.trans h.held, fun b => (h'.initial b).trans (h.initial b),
    fun b => (h'.state b).trans (h.state b)⟩

theorem of_record? (hheld : m'.vmState = m.vmState) (h : ∀ b, m'.record? b = m.record? b) :
    m.SameStates m' :=
  ⟨hheld, fun b => congrArg (Option.bind · _) (h b), fun b => congrArg (Option.bind · _) (h b)⟩

end SameStates

theorem record?_withBuilder (b c : BuilderId) (f : Builder → Builder) :
    (m.withBuilder b f).record? c =
      if b = c then (m.builder? c).bind fun d => (f d).bytecode else m.record? c := by
  show ((m.withBuilder b f).builder? c).bind (·.bytecode) = _
  rw [builder?_withBuilder]
  split
  · cases m.builder? c <;> rfl
  · rfl

/-- Changing a builder but not its record. -/
theorem sameStates_withBuilder (b : BuilderId) {f : Builder → Builder}
    (hf : ∀ d, m.builder? b = some d → (f d).bytecode = d.bytecode) :
    m.SameStates (m.withBuilder b f) := by
  refine .of_record? rfl fun c => ?_
  rw [record?_withBuilder]
  split
  · next hbc =>
    subst hbc
    show _ = (m.builder? b).bind (·.bytecode)
    cases hd : m.builder? b with
    | none => rfl
    | some d => exact hf d hd
  · rfl

end Method

/-- A step without the license to change records leaves the states alone. -/
theorem Step.sameStates {s t : Draft} (hl : l.records = false) (h : Step l s t) :
    s.method.SameStates t.method := by
  cases h with
  | quiet h hs =>
    rw [hl] at hs
    refine .of_record? (hs.resolve_left Bool.false_ne_true) fun b => ?_
    exact congrArg (fun bs => (Arena.get? bs b).bind (·.bytecode)) h.builders
  | flag | newBlock | edge | push | handle => exact .of_record? rfl fun _ => rfl
  | tag b f hf => grind [sameStates_withBuilder, License.Allows]
  | @newBuilder m loose risky r hr =>
    have hnew : ∀ {γ : Type} (f : BytecodeRecord → Option γ), (∀ r', r = some r' → f r' = none) →
        ∀ b, ((m.addBuilder r).record? b).bind f = (m.record? b).bind f := by
      intro γ f hf b
      show (((m.addBuilder r).builder? b).bind (·.bytecode)).bind f =
        ((m.builder? b).bind (·.bytecode)).bind f
      rw [builder?_addBuilder]
      split
      · next hb =>
        -- there was no such builder before
        rw [hb, show m.builder? m.builders.size = none from
          Arena.get?_eq_none.2 (le_refl m.builders.size)]
        cases hr : r with
        | none => rfl
        | some r' => exact hf r' hr
      · rfl
    exact ⟨rfl, hnew _ fun r' h => (hr r' h).1, hnew _ fun r' h => (hr r' h).2⟩
  | place | split | forget => exact sameStates_withBuilder _ fun _ _ => rfl
  | @nest m loose risky b c d e =>
    have hmark : m.SameStates (m.withBuilder c ({ · with placed := true })) :=
      sameStates_withBuilder c fun _ _ => rfl
    exact hmark.trans (sameStates_withBuilder b fun _ _ => rfl)
  | @close m loose risky b d x op =>
    have hpush : m.SameStates (m.withBlock x (·.push op)) := .of_record? rfl fun _ => rfl
    exact hpush.trans (sameStates_withBuilder b fun _ _ => rfl)

theorem Builds.sameStates {s t : Draft} (hl : l.records = false) (h : Builds l s t) :
    s.method.SameStates t.method := by
  induction h with
  | refl => exact .refl _
  | tail _ hst ih => exact ih.trans (hst.sameStates hl)

/-- The license of what leaves the states alone. -/
def License.stateless : License := ⟨false, false, true, true⟩

/-- What is lawful without the license to change records leaves the states alone, and the values
    stay. -/
theorem Emit.Lawful.sameStates {x : Emit α} (hx : Lawful .stateless x) {a : α}
    (h : x.run m = .ok (a, m')) : m.SameStates m' ∧
      m.graph.values.size ≤ m'.graph.values.size ∧ m.builders.size ≤ m'.builders.size := by
  have hbuilds := hx m a m' [] [] h
  refine ⟨hbuilds.sameStates rfl, Graph.HasValues.size hbuilds.below.values, ?_⟩
  refine Nat.le_of_not_lt fun hlt => ?_
  obtain ⟨d, hd⟩ := exists_builder? hlt
  obtain ⟨d', hd', -⟩ := hbuilds.below.builders _ d hd
  exact Nat.lt_irrefl _ (lt_of_builder? hd')

/-! ## Values of their own -/

/-- Values were taken that are distinct and not among those seen before, and these have been seen
    now. -/
structure Method.Takes (m : Method) (seen ws seen' : List ValueId) : Prop where
  distinct : ws.Nodup
  unseen : ∀ w ∈ ws, w ∉ seen
  seen : ∀ v, v ∈ seen' ↔ v ∈ seen ∨ v ∈ ws
  there : ∀ v ∈ seen', v < m.graph.values.size

namespace Method.Takes

variable {seen seen1 seen' ws ws' : List ValueId}

theorem none (h : ∀ v ∈ seen, v < m.graph.values.size) : m.Takes seen [] seen :=
  ⟨.nil, fun _ h => (nomatch h), fun _ => by simp, h⟩

theorem append (h : m1.Takes seen ws seen1) (h' : m'.Takes seen1 ws' seen') :
    m'.Takes seen (ws ++ ws') seen' where
  distinct := by
    refine nodup_append.2 ⟨h.distinct, h'.distinct, fun v hv w hw hvw => ?_⟩
    exact h'.unseen w hw ((h.seen w).2 (.inr (hvw ▸ hv)))
  unseen w hw hseen := by
    rcases mem_append.1 hw with hw | hw
    · exact h.unseen w hw hseen
    · exact h'.unseen w hw ((h.seen w).2 (.inl hseen))
  seen v := by rw [h'.seen, h.seen, mem_append, or_assoc]
  there := h'.there

end Method.Takes

namespace VmState

open Emit

/-- A value that was seen is replaced by a new one, which cannot have been seen. -/
theorem dealiasSlots_takes {vs seen ws seen' : List ValueId}
    (hvs : ∀ v ∈ vs, v < m.graph.values.size) (hseen : ∀ v ∈ seen, v < m.graph.values.size)
    (h : (dealiasSlots b vs seen).run m = .ok ((ws, seen'), m')) : m'.Takes seen ws seen' := by
  induction vs generalizing m ws seen with
  | nil =>
    obtain ⟨hr, rfl⟩ := pure_eq_ok.1 h
    cases hr
    exact .none hseen
  | cons v vs ih =>
    obtain ⟨w, m1, us, hfirst, hvs', rfl⟩ := dealiasSlots_cons h
    obtain ⟨hsize, hw, hnew⟩ : m.graph.values.size ≤ m1.graph.values.size ∧
        w < m1.graph.values.size ∧ w ∉ seen := by
      rcases hfirst with ⟨-, h1⟩ | ⟨hnew, rfl, rfl⟩
      · obtain ⟨rfl, hsize, -⟩ := copy_carries h1
        rw [hsize]
        exact ⟨le_succ _, lt_succ_self _, fun hold => lt_irrefl _ (hseen _ hold)⟩
      · exact ⟨le_refl _, hvs w mem_cons_self, hnew⟩
    have hlt : ∀ u ∈ w :: seen, u < m1.graph.values.size := by grind
    have htaken : m1.Takes seen [w] (w :: seen) :=
      ⟨nodup_singleton w, fun u hu => mem_singleton.1 hu ▸ hnew,
        fun u => by simp [or_comm], hlt⟩
    exact htaken.append (ih (fun u hu =>
      lt_of_lt_of_le (hvs u (mem_cons_of_mem _ hu)) hsize) hlt hvs')

end VmState

/-! ## States of values that there are -/

namespace Method

/-- All slots of a state have values of the method. -/
def Owns (m : Method) (s : VmState) : Prop := ∀ v ∈ s.slots, v < m.graph.values.size

theorem Owns.mono {s : VmState} (h : m.Owns s)
    (hm : m.graph.values.size ≤ m'.graph.values.size) : m'.Owns s :=
  fun v hv => lt_of_lt_of_le (h v hv) hm

end Method

namespace VmState

open Emit

theorem dealias_takes {s t : VmState} (hs : m.Owns s) (h : (s.dealias b).run m = .ok (t, m')) :
    t.slots.Nodup ∧ m'.Owns t := by
  obtain ⟨seen, h⟩ := of_dealias h
  have htakes := dealiasSlots_takes hs (fun v hv => absurd hv not_mem_nil) h
  exact ⟨htakes.distinct, fun v hv => htakes.there v ((htakes.seen v).2 (.inr hv))⟩

mutual

/-- The slots of the first stack are slots of the state. -/
theorem slots_stack? : ∀ (s : VmState) {t : OperandStack}, s.stack? = some t →
    ∀ v ∈ t.slots, v ∈ s.slots
  | register _ | fieldRegister _ | array _ => by
    intro h
    simp only [stack?] at h
    cases h
  | stack s => by
    intro h
    simp only [stack?] at h
    cases h
    exact fun v hv => hv
  | composite parts => by
    intro h
    simp only [stack?] at h
    exact slots_firstStack? parts h

theorem slots_firstStack? : ∀ (ss : List VmState) {t : OperandStack}, firstStack? ss = some t →
    ∀ v ∈ t.slots, v ∈ slotsOfAll ss
  | [] => by
    intro h
    simp only [firstStack?] at h
    cases h
  | s :: ss => by
    intro h v hv
    simp only [firstStack?] at h
    rcases Option.or_eq_some_iff.1 h with h | ⟨-, h⟩
    · exact mem_append_left _ (slots_stack? s h v hv)
    · exact mem_append_right _ (slots_firstStack? ss h v hv)

end

mutual

/-- With another stack a state has no other values than those of the stack and those it had. -/
theorem mem_slots_setStack (t : OperandStack) : ∀ (s : VmState) {v : ValueId},
    v ∈ (s.setStack t).slots → v ∈ t.slots ∨ v ∈ s.slots
  | register _ | fieldRegister _ | array _ => by
    intro h
    simp only [setStack] at h
    exact .inr h
  | stack s => by
    intro h
    simp only [setStack] at h
    exact .inl h
  | composite parts => by
    intro h
    simp only [setStack] at h
    exact mem_slots_setFirstStack t parts h

theorem mem_slots_setFirstStack (t : OperandStack) : ∀ (ss : List VmState) {v : ValueId},
    v ∈ slotsOfAll (setFirstStack t ss) → v ∈ t.slots ∨ v ∈ slotsOfAll ss
  | [] => by
    intro h
    simp only [setFirstStack] at h
    exact .inr h
  | s :: ss => by
    intro h
    simp only [setFirstStack] at h
    split at h
    · rcases mem_append.1 h with h | h
      · exact (mem_slots_setStack t s h).imp_right (mem_append_left _)
      · exact .inr (mem_append_right _ h)
    · rcases mem_append.1 h with h | h
      · exact .inr (mem_append_left _ h)
      · exact (mem_slots_setFirstStack t ss h).imp_right (mem_append_right _)

end

end VmState

namespace Emit

theorem loadElement_lt {index : Int} {v : ValueId}
    (h : (loadElement b ty base index).run m = .ok (v, m')) : v < m'.graph.values.size := by
  obtain ⟨_, m1, -, h⟩ := bind_eq_ok.1 h
  obtain ⟨rfl, hvalues, -⟩ := emitValue_appended h
  rw [hvalues, Arena.size_alloc]
  exact lt_succ_self _

/-- What is read one after another is there at the end. -/
theorem loadElements_lt {index : Nat → Int} {is : List Nat} {vs : List ValueId}
    (h : (is.mapM fun i => loadElement b ty base (index i)).run m = .ok (vs, m')) :
    ∀ v ∈ vs, v < m'.graph.values.size := by
  induction is generalizing m vs with
  | nil => grind [pure_eq_ok]
  | cons i is ih =>
    rw [mapM_cons] at h
    obtain ⟨w, m1, h1, h⟩ := bind_eq_ok.1 h
    obtain ⟨ws, m2, h2, h⟩ := bind_eq_ok.1 h
    obtain ⟨rfl, rfl⟩ := pure_eq_ok.1 h
    intro v hv
    rcases mem_cons.1 hv with rfl | hv
    · have hrest : Lawful .stateless (is.mapM fun i => loadElement b ty base (index i)) :=
        .of_within fun _ _ => within_mapM (fun i => within_loadElement ty base (index i)) is
      have hsize := (hrest.sameStates h2).2.1
      exact lt_of_lt_of_le (loadElement_lt h1) hsize
    · exact ih h2 v hv

end Emit

namespace VmState

open Emit

mutual

/-- The slots of a state that was read have the values that were read. -/
theorem reload_owns : ∀ (s : VmState) {t : VmState} {m m' : Method},
    (s.reload b).run m = .ok (t, m') → m'.Owns t
  | register _ | fieldRegister _ => by
    intro h
    simp only [reload] at h
    obtain ⟨_, m1, -, h⟩ := bind_eq_ok.1 h
    obtain ⟨rfl, rfl⟩ := pure_eq_ok.1 h
    exact fun _ hv => (nomatch hv)
  | stack s => by
    intro h
    simp only [reload] at h
    obtain ⟨s', m1, h1, h⟩ := bind_eq_ok.1 h
    obtain ⟨rfl, rfl⟩ := pure_eq_ok.1 h
    obtain ⟨_, m2, -, h1⟩ := bind_eq_ok.1 h1
    obtain ⟨_, m3, -, h1⟩ := bind_eq_ok.1 h1
    obtain ⟨vs, m4, h2, h1⟩ := bind_eq_ok.1 h1
    obtain ⟨rfl, rfl⟩ := pure_eq_ok.1 h1
    exact loadElements_lt h2
  | array a => by
    intro h
    simp only [reload] at h
    obtain ⟨a', m1, h1, h⟩ := bind_eq_ok.1 h
    obtain ⟨rfl, rfl⟩ := pure_eq_ok.1 h
    obtain ⟨vs, m2, h2, h1⟩ := bind_eq_ok.1 h1
    obtain ⟨rfl, rfl⟩ := pure_eq_ok.1 h1
    obtain ⟨_, m3, -, h2⟩ := bind_eq_ok.1 h2
    exact loadElements_lt h2
  | composite parts => by
    intro h
    simp only [reload] at h
    obtain ⟨ts, m1, h1, h⟩ := bind_eq_ok.1 h
    obtain ⟨rfl, rfl⟩ := pure_eq_ok.1 h
    exact reloadAll_owns parts h1

theorem reloadAll_owns : ∀ (ss : List VmState) {ts : List VmState} {m m' : Method},
    (reloadAll b ss).run m = .ok (ts, m') → ∀ v ∈ slotsOfAll ts, v < m'.graph.values.size
  | [] => by
    intro h
    simp only [reloadAll] at h
    obtain ⟨rfl, rfl⟩ := pure_eq_ok.1 h
    exact fun _ hv => (nomatch hv)
  | s :: ss => by
    intro h
    simp only [reloadAll] at h
    obtain ⟨t, m1, h1, h⟩ := bind_eq_ok.1 h
    obtain ⟨ts', m2, h2, h⟩ := bind_eq_ok.1 h
    obtain ⟨rfl, rfl⟩ := pure_eq_ok.1 h
    intro v hv
    rcases mem_append.1 hv with hv | hv
    · have hsize := ((Lawful.of_within fun _ _ => within_reloadAll ss).sameStates h2).2.1
      exact lt_of_lt_of_le (reload_owns s h1 v hv) hsize
    · exact reloadAll_owns ss h2 v hv

end

end VmState

end MethodGraph
