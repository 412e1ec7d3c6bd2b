import Mathlib.Data.Finset.Card
import MethodGraph.BitSet
/-!
  A set of bits is a finite set of numbers.

  What a set is used for is told by the edits made to it, and an element is there if it was added
  and not taken out since (`BitSet.Present`).  One edit changes membership as it should, so a whole
  history does (`BitSet.mem_after`).

  Everything that is read off the words comes down to the list of elements.  The crux is that word
  `k` contributes numbers from `64 * k` up to the next word, so that the pieces of the list follow
  each other in ascending order; its length is the number of bits set, and what is found first is
  its least member.
-/

namespace MethodGraph.BitSet

open List

variable {s : BitSet} {i j k : Nat} {w : UInt64} {e : Edit}

/-! ## Histories -/

/-- What can be done to a set; a new one takes the place of the old. -/
inductive Edit where
  | new
  | withCapacity (n : Nat)
  | insert (i : Nat)
  | remove (i : Nat)
  deriving DecidableEq, Repr

/-- The set after an edit. -/
def edit (s : BitSet) : Edit → BitSet
  | .new => .empty
  | .withCapacity n => .withCapacity n
  | .insert i => s.insert i
  | .remove i => s.remove i

/-- The set after a history of edits. -/
def after (es : List Edit) : BitSet := es.foldl edit .empty

/-- The edit takes an element out. -/
def Edit.drops (i : Nat) : Edit → Bool
  | new | withCapacity _ => true
  | insert _ => false
  | remove j => i = j

/-- The element was added in a history, and not taken out since. -/
def Present (i : Nat) (es : List Edit) : Prop :=
  ∃ earlier later, es = earlier ++ .insert i :: later ∧ ∀ e ∈ later, e.drops i = false

/-- What one edit does to the elements. -/
theorem mem_edit : i ∈ s.edit e ↔ e = .insert i ∨ e.drops i = false ∧ i ∈ s := by
  cases e with
  | new => simp [edit, Edit.drops, Membership.mem]
  | withCapacity n => simp [edit, Edit.drops, Membership.mem]
  | insert j => simp [edit, Edit.drops, mem_insert, eq_comm]
  | remove j => simp [edit, Edit.drops, mem_remove]

theorem present_append {es : List Edit} :
    Present i (es ++ [e]) ↔ e = .insert i ∨ e.drops i = false ∧ Present i es := by
  constructor
  · rintro ⟨earlier, later, heq, hlater⟩
    rcases eq_nil_or_concat' later with rfl | ⟨later, d, rfl⟩
    · exact .inl (cons.inj (append_inj_right' heq rfl)).1
    · rw [← cons_append, ← append_assoc] at heq
      obtain ⟨rfl, hd⟩ := append_inj' heq rfl
      obtain rfl := (cons.inj hd).1
      exact .inr ⟨hlater e (by simp), earlier, later, rfl, fun d hd => hlater d (by simp [hd])⟩
  · rintro (rfl | ⟨hdrops, earlier, later, rfl, hlater⟩)
    · exact ⟨es, [], rfl, by simp⟩
    · refine ⟨earlier, later ++ [e], by simp, fun d hd => ?_⟩
      rcases mem_append.1 hd with hd | hd
      · exact hlater d hd
      · exact mem_singleton.1 hd ▸ hdrops

/-- After a history the set has what was added and not taken out since. -/
theorem mem_after (es : List Edit) : i ∈ after es ↔ Present i es := by
  induction es using reverseRecOn with
  | nil =>
    refine iff_of_false (Bool.eq_false_iff.1 (contains_empty i)) ?_
    rintro ⟨earlier, later, heq, -⟩
    simp at heq
  | append_singleton es e ih =>
    have hafter : after (es ++ [e]) = (after es).edit e := foldl_concat ..
    rw [hafter, mem_edit, present_append, ih]

/-! ## The list of elements -/

theorem mem_bits : j ∈ bits w ↔ j < 64 ∧ bit w j = true := by
  simp [bits]

/-- The list of elements, word by word. -/
theorem mem_toList : i ∈ s.toList ↔ i ∈ s := by
  unfold toList
  rw [mem_flatMap, mem_iff_bit]
  constructor
  · rintro ⟨p, hp, hi⟩
    obtain ⟨j, hj, rfl⟩ := mem_map.1 hi
    obtain ⟨hlt, hbit⟩ := mem_bits.1 hj
    have hword := mem_zipIdx_iff_getElem?.1 hp
    rw [show (p.2 * 64 + j) / 64 = p.2 by omega, show (p.2 * 64 + j) % 64 = j by omega]
    exact ⟨p.1, by simpa using hword, hbit⟩
  · rintro ⟨w, hw, hbit⟩
    refine ⟨(w, i / 64), mem_zipIdx_iff_getElem?.2 (by simpa using hw), mem_map.2 ⟨i % 64, ?_, ?_⟩⟩
    · exact mem_bits.2 ⟨Nat.mod_lt _ (by decide), hbit⟩
    · omega

theorem pairwise_bits (w : UInt64) : (bits w).Pairwise (· < ·) :=
  pairwise_lt_range.filter _

/-- The elements ascend: within a word, and from one word to the next. -/
theorem pairwise_toList (s : BitSet) : s.toList.Pairwise (· < ·) := by
  unfold toList
  rw [pairwise_flatMap]
  constructor
  · intro p _
    rw [pairwise_map]
    exact (pairwise_bits p.1).imp fun h => Nat.add_lt_add_left h _
  · have hwords : (s.words.toList.zipIdx).Pairwise fun p q => p.2 < q.2 := by
      rw [← pairwise_map (f := Prod.snd) (R := (· < ·)), zipIdx_map_snd]
      exact pairwise_lt_range'
    refine hwords.imp fun {p q} hpq => ?_
    intro x hx y hy
    obtain ⟨j, hj, rfl⟩ := mem_map.1 hx
    obtain ⟨k, -, rfl⟩ := mem_map.1 hy
    have := (mem_bits.1 hj).1
    omega

/-- Every bit that is set is an element. -/
theorem count_eq (s : BitSet) : s.count = s.toList.length := by
  have hwords : ∀ (ws : List UInt64) (k : Nat),
      total (ws.map fun w => (bits w).length) =
        ((ws.zipIdx k).flatMap fun p => (bits p.1).map (p.2 * 64 + ·)).length := by
    intro ws
    induction ws with
    | nil => exact fun _ => rfl
    | cons w ws ih =>
      intro k
      rw [map_cons, total_cons, ih (k + 1), zipIdx_cons, flatMap_cons, length_append, length_map]
  exact hwords s.words.toList 0

theorem isEmpty_iff : s.isEmpty = true ↔ ∀ i, i ∉ s := by
  unfold isEmpty
  rw [Array.all_eq_true_iff_forall_mem]
  constructor
  · intro hzero i hi
    obtain ⟨w, hw, hbit⟩ := mem_iff_bit.1 hi
    have hword : w = 0 := by simpa using hzero w (Array.mem_of_getElem? hw)
    rw [hword, bit_zero] at hbit
    cases hbit
  · intro hnone w hw
    obtain ⟨k, hk⟩ := Array.getElem?_of_mem hw
    by_contra hne
    obtain ⟨j, hj, hbit⟩ := exists_bit (w := w) (by simpa using hne)
    refine hnone (k * 64 + j) (mem_iff_bit.2 ⟨w, ?_, ?_⟩)
    · rwa [show (k * 64 + j) / 64 = k by omega]
    · rwa [show (k * 64 + j) % 64 = j by omega]

/-! ## The finite set -/

/-- After any history of edits the words stand for a finite set of numbers, those that were added
    and not taken out since, and every question about the set is answered accordingly. -/
theorem after_refines (es : List Edit) : ∃ elements : Finset Nat,
    (∀ i, i ∈ elements ↔ Present i es) ∧
    (∀ i, (after es).contains i = true ↔ i ∈ elements) ∧
    (∀ i, ((after es).add i).1 = true ↔ i ∉ elements) ∧
    (after es).count = elements.card ∧
    ((after es).isEmpty = true ↔ elements = ∅) ∧
    ((after es).first? = none ↔ elements = ∅) ∧
    (∀ i, (after es).first? = some i ↔ i ∈ elements ∧ ∀ j ∈ elements, i ≤ j) ∧
    (after es).toList.Pairwise (· < ·) ∧ ∀ i, i ∈ (after es).toList ↔ i ∈ elements := by
  generalize hs : after es = s
  have hlist : ∀ {i}, i ∈ s.toList.toFinset ↔ i ∈ s := List.mem_toFinset.trans mem_toList
  have hempty : s.toList.toFinset = ∅ ↔ ∀ i, i ∉ s := by
    simp [Finset.eq_empty_iff_forall_notMem, mem_toList]
  have hnodup : s.toList.Nodup := (pairwise_toList s).imp Nat.ne_of_lt
  refine ⟨s.toList.toFinset, fun i => ?_, fun i => hlist.symm, fun i => ?_, ?_, ?_, ?_, fun i => ?_,
    pairwise_toList s, fun i => List.mem_toFinset.symm⟩
  · rw [hlist, ← hs, mem_after]
  · rw [fst_add, hlist, Bool.not_eq_true', Bool.eq_false_iff]
    rfl
  · rw [count_eq, List.toFinset_card_of_nodup hnodup]
  · rw [isEmpty_iff, hempty]
  · rw [first?_eq_none, hempty]
  · simp only [first?_eq_some, hlist]

/-- Across words: an element beyond the first word is the least once a smaller one is removed. -/
example : let es := [Edit.withCapacity 10, .insert 127, .insert 64, .insert 5, .insert 5, .remove 5]
    (after es).toList = [64, 127] ∧ (after es).first? = some 64 ∧ (after es).count = 2 := by
  cbv

end MethodGraph.BitSet
