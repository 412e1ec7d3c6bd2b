import MethodGraph.Proofs.Merging
/-!
  States that are handed on.

  Where two slots of a state share a value, one of them gets a copy before the state is handed on,
  so that every slot can be stored to on its own; each slot is then carried to the slot that it has
  become (`VmState.dealias_carries`).  A state with at most one stack or array is stored over
  another by a single parallel copy, so each slot is carried to the one it is stored over
  (`VmState.mergeInto_carries`).
-/

namespace MethodGraph

open List

variable {m m1 m' : Method} {b : BuilderId} {vs seen ws seen' : List ValueId} {s t : VmState}

namespace VmState

open Emit

/-! ## Copies of slots that share a value -/

/-- The first slot keeps its value, or gets a copy of it if it was seen. -/
theorem dealiasSlots_cons {v : ValueId}
    (h : (dealiasSlots b (v :: vs) seen).run m = .ok ((ws, seen'), m')) : ∃ w m1 us,
      (v ∈ seen ∧ (copy b v).run m = .ok (w, m1) ∨ v ∉ seen ∧ w = v ∧ m1 = m) ∧
      (dealiasSlots b vs (w :: seen)).run m1 = .ok ((us, seen'), m') ∧ ws = w :: us := by
  have hrest : ∀ {w m1}, (do
      let p ← dealiasSlots b vs (w :: seen)
      return (w :: p.1, p.2) : Emit (List ValueId × List ValueId)).run m1 =
        .ok ((ws, seen'), m') →
      ∃ us, (dealiasSlots b vs (w :: seen)).run m1 = .ok ((us, seen'), m') ∧ ws = w :: us := by
    intro w m1 h
    obtain ⟨⟨us, _⟩, _, h2, h⟩ := bind_eq_ok.1 h
    obtain ⟨hr, rfl⟩ := pure_eq_ok.1 h
    cases hr
    exact ⟨us, h2, rfl⟩
  rw [dealiasSlots] at h
  by_cases hseen : seen.contains v = true
  · rw [if_pos hseen] at h
    obtain ⟨w, m1, h1, h⟩ := bind_eq_ok.1 h
    obtain ⟨us, h⟩ := hrest h
    exact ⟨w, m1, us, .inl ⟨by simpa using hseen, h1⟩, h⟩
  · rw [if_neg hseen] at h
    obtain ⟨us, h⟩ := hrest h
    exact ⟨v, m, us, .inr ⟨by simpa using hseen, rfl, rfl⟩, h⟩

/-- Every slot is carried to the slot that it becomes. -/
theorem dealiasSlots_carries (hvs : ∀ v ∈ vs, v < m.graph.values.size)
    (h : (dealiasSlots b vs seen).run m = .ok ((ws, seen'), m')) :
    ws.length = vs.length ∧ m.Carries b (vs.zip ws) [] m' := by
  induction vs generalizing m ws seen with
  | nil =>
    obtain ⟨hr, rfl⟩ := pure_eq_ok.1 h
    cases hr
    exact ⟨rfl, .stay fun _ hp => (nomatch hp)⟩
  | cons v vs ih =>
    obtain ⟨w, m1, us, hfirst, hvs', rfl⟩ := dealiasSlots_cons h
    have hcopy : m.Carries b [(v, w)] [] m1 := by
      rcases hfirst with ⟨-, h1⟩ | ⟨-, rfl, rfl⟩
      · exact (copy_carries h1).2.2
      · refine .stay fun p hp => ?_
        obtain rfl := mem_singleton.1 hp
        exact ⟨rfl, hvs w mem_cons_self⟩
    have hrest : ∀ u ∈ vs, u < m.graph.values.size := fun u hu => hvs u (mem_cons_of_mem _ hu)
    obtain ⟨ops, happ, -⟩ := hcopy.code
    obtain ⟨hlen, hcopies⟩ := ih (fun u hu => (hrest u hu).trans_le happ.size) hvs'
    refine ⟨congrArg (· + 1) hlen, ?_⟩
    refine hcopy.append hcopies (fun p hp => ?_) fun _ _ => not_mem_nil
    exact ⟨hrest p.1 (of_mem_zip hp).1, not_mem_nil⟩

theorem dealias_carries (hs : ∀ v ∈ s.slots, v < m.graph.values.size)
    (h : (s.dealias b).run m = .ok (t, m')) :
    t.slots.length = s.slots.length ∧ m.Carries b (s.slots.zip t.slots) [] m' := by
  obtain ⟨seen, h⟩ := of_dealias h
  exact dealiasSlots_carries hs h

/-! ## States with one stack or array -/

mutual

/-- The number of stacks and arrays in a state. -/
def carriers : VmState → Nat
  | register _ => 0
  | fieldRegister _ => 0
  | stack _ => 1
  | array _ => 1
  | composite parts => carriersOfAll parts

/-- The number of stacks and arrays in several states. -/
def carriersOfAll : List VmState → Nat
  | [] => 0
  | p :: rest => carriers p + carriersOfAll rest

end

mutual

theorem slots_of_no_carrier : ∀ s : VmState, s.carriers = 0 → s.slots = []
  | register _ | fieldRegister _ => fun _ => rfl
  | stack _ | array _ => fun h => nomatch h
  | composite parts => slotsOfAll_of_no_carrier parts

theorem slotsOfAll_of_no_carrier : ∀ ss : List VmState, carriersOfAll ss = 0 → slotsOfAll ss = []
  | [] => fun _ => rfl
  | s :: ss => by
    intro h
    obtain ⟨hs, hss⟩ := Nat.add_eq_zero_iff.1 h
    simp only [slotsOfAll]
    rw [slots_of_no_carrier s hs, slotsOfAll_of_no_carrier ss hss]
    rfl

end

theorem pairs_of_no_carrier (t : VmState) (h : s.carriers = 0) : pairs s t = [] := by
  unfold pairs
  rw [slots_of_no_carrier s h]
  rfl

mutual

/-- Where there is no stack or array, no component has slots to store, and where there is one, at
    most one component has. -/
theorem parts_of_carriers : ∀ s t : VmState, (s.carriers = 0 → ∀ ps ∈ parts s t, ps = []) ∧
    (s.carriers ≤ 1 → (parts s t).Pairwise fun ps qs => ps = [] ∨ qs = [])
  | composite ss, composite ts => by
    simp only [parts]
    exact partsOfAll_of_carriers ss ts
  | composite _, register t | composite _, fieldRegister t | composite _, stack t
  | composite _, array t | register _, t | fieldRegister _, t | stack _, t | array _, t => by
    simp only [parts]
    refine ⟨fun h ps hps => ?_, fun _ => pairwise_singleton _ _⟩
    rw [mem_singleton.1 hps]
    exact pairs_of_no_carrier _ h

theorem partsOfAll_of_carriers : ∀ ss ts : List VmState,
    (carriersOfAll ss = 0 → ∀ ps ∈ partsOfAll ss ts, ps = []) ∧
    (carriersOfAll ss ≤ 1 → (partsOfAll ss ts).Pairwise fun ps qs => ps = [] ∨ qs = [])
  | [], _ | _ :: _, [] => by
    simp only [partsOfAll]
    exact ⟨fun _ _ hps => (nomatch hps), fun _ => .nil⟩
  | s :: ss, t :: ts => by
    simp only [carriersOfAll, partsOfAll]
    obtain ⟨hnone, hone⟩ := parts_of_carriers s t
    obtain ⟨hnone', hone'⟩ := partsOfAll_of_carriers ss ts
    refine ⟨fun h ps hps => ?_, fun h => ?_⟩
    · grind
    · grind

end

/-- A state with at most one stack or array is stored over another by one parallel copy. -/
theorem mergeInto_carries {u : Unit} (hone : s.carriers ≤ 1)
    (hvalues : ∀ v ∈ s.slots ++ t.slots, v < m.graph.values.size)
    (h : (s.mergeInto b t).run m = .ok (u, m')) :
    s.slots.length = t.slots.length ∧ m.Carries b (pairs s t) (overwritten (pairs s t)) m' := by
  obtain ⟨hlen, hflat, hrun⟩ := mergeInto_parts s t h
  have hapart : Apart (parts s t) := by
    refine ((parts_of_carriers s t).2 hone).imp fun {ps qs} hempty => ?_
    rcases hempty with rfl | rfl
    · exact ⟨fun _ _ => not_mem_nil, fun _ hp => (nomatch hp)⟩
    · exact ⟨fun _ hq => (nomatch hq), fun _ _ => not_mem_nil⟩
  rw [← hflat]
  refine ⟨hlen, mergeParts_carries ?_ hapart hrun⟩
  rw [hflat]
  exact Emit.spans_zip hvalues

end VmState
end MethodGraph
