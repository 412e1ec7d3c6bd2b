import MethodGraph.Total
/-!
  Sets of natural numbers, one bit an element.

  A set is an array of 64-bit words; element `i` is bit `i % 64` of word `i / 64`, and the array
  grows when an element beyond its end is added.  Two sets are equal when their arrays are, so
  words of zeros at the end count.

  The view is membership: adding and removing are described by which elements a set has
  afterwards (`contains_insert`, `contains_remove`), and what is found first is the least of them
  (`first?_eq_some`).
-/

namespace MethodGraph

open Nat List UInt64 Array

/-- A set of natural numbers. -/
structure BitSet where
  words : Array UInt64 := #[]
  deriving DecidableEq, Repr, Inhabited

namespace BitSet

def empty : BitSet := ⟨#[]⟩

/-- An empty set with words for the elements below `n`. -/
def withCapacity (n : Nat) : BitSet := ⟨Array.replicate ((n + 63) / 64) 0⟩

/-- The word with only the bit of element `i` set. -/
def mask (i : Nat) : UInt64 := 1 <<< (UInt64.ofNat (i % 64))

/-- Whether the bit of element `i` is set in a word. -/
def bit (w : UInt64) (i : Nat) : Bool := w &&& mask i != 0

def contains (s : BitSet) (i : Nat) : Bool :=
  match s.words[i / 64]? with
  | some w => bit w i
  | none => false

instance : Membership Nat BitSet := ⟨fun s i => s.contains i = true⟩

instance (s : BitSet) (i : Nat) : Decidable (i ∈ s) := inferInstanceAs (Decidable (_ = true))

/-- The set with its array grown to hold word `k`. -/
def reach (s : BitSet) (k : Nat) : BitSet :=
  if k < s.words.size then s else ⟨s.words ++ Array.replicate (k + 1 - s.words.size) 0⟩

/-- Add an element; the first component tells whether it was new. -/
def add (s : BitSet) (i : Nat) : Bool × BitSet :=
  let grown := s.reach (i / 64)
  let w := grown.words.getD (i / 64) 0
  (!bit w i, ⟨grown.words.setIfInBounds (i / 64) (w ||| mask i)⟩)

def insert (s : BitSet) (i : Nat) : BitSet := (s.add i).2

/-- Remove an element; the array keeps its size. -/
def remove (s : BitSet) (i : Nat) : BitSet :=
  ⟨s.words.modify (i / 64) fun w => w &&& ~~~(mask i)⟩

def isEmpty (s : BitSet) : Bool := s.words.all (· == 0)

/-- The bits set in a word, in ascending order. -/
def bits (w : UInt64) : List Nat := (List.range 64).filter (bit w)

/-- The elements in ascending order. -/
def toList (s : BitSet) : List Nat :=
  (s.words.toList.zipIdx).flatMap fun (w, k) => (bits w).map (k * 64 + ·)

/-- How many elements there are: the bits set in all words together. -/
def count (s : BitSet) : Nat := total (s.words.toList.map fun w => (bits w).length)

/-- The least element: the lowest bit of the first word that is not zero. -/
def first? (s : BitSet) : Option Nat := do
  let k ← s.words.findIdx? (· != 0)
  let w ← s.words[k]?
  let b ← (bits w).head?
  return k * 64 + b

/-! ## What the operations do to membership -/

theorem bit_eq (w : UInt64) (i : Nat) : bit w i = w.toBitVec.getLsbD (i % 64) := by
  have hi : i % 64 < 64 := mod_lt _ (by decide)
  have hm : (mask i).toBitVec = 1#64 <<< (i % 64) := by
    simp [mask, UInt64.toBitVec_shiftLeft]
  have key : w &&& mask i = 0 ↔ w.toBitVec.getLsbD (i % 64) = false := by
    rw [← UInt64.toBitVec_inj, UInt64.toBitVec_and, hm]
    constructor
    · intro h
      have := congrArg (fun v => v.getLsbD (i % 64)) h
      simpa [hi] using this
    · intro h
      apply BitVec.eq_of_getLsbD_eq
      intro j hj
      by_cases hji : j = i % 64
      · subst hji; simp [h]
      · have : ¬ (j - i % 64 = 0 ∧ i % 64 ≤ j) := by omega
        simp
        omega
  unfold bit
  cases hb : w.toBitVec.getLsbD (i % 64)
  · simp [key.2 hb]
  · have : w &&& mask i ≠ 0 := fun h => by simp [key.1 h] at hb
    simp [this]

theorem bit_zero (i : Nat) : bit 0 i = false := by simp [bit]

theorem getLsbD_mask (i j : Nat) (hj : j < 64) :
    (mask i).toBitVec.getLsbD j = decide (j = i % 64) := by
  have hi : i % 64 < 64 := mod_lt _ (by decide)
  have hm : (mask i).toBitVec = 1#64 <<< (i % 64) := by
    simp [mask, UInt64.toBitVec_shiftLeft]
  rw [hm]
  by_cases h : j = i % 64
  · subst h; simp [hi]
  · simp [h, hj]
    omega

theorem bit_or_mask (w : UInt64) (i j : Nat) :
    bit (w ||| mask i) j = (bit w j || decide (j % 64 = i % 64)) := by
  have hj : j % 64 < 64 := Nat.mod_lt _ (by decide)
  rw [bit_eq, bit_eq, UInt64.toBitVec_or, BitVec.getLsbD_or, getLsbD_mask i _ hj]

theorem bit_andNot_mask (w : UInt64) (i j : Nat) :
    bit (w &&& ~~~(mask i)) j = (bit w j && decide (j % 64 ≠ i % 64)) := by
  have hj : j % 64 < 64 := Nat.mod_lt _ (by decide)
  rw [bit_eq, bit_eq, UInt64.toBitVec_and, BitVec.getLsbD_and, UInt64.toBitVec_not,
    BitVec.getLsbD_not, getLsbD_mask i _ hj]
  simp [hj]

/-- The bit of `i` in the word that holds it, where a missing word is zero. -/
theorem contains_eq_bit (s : BitSet) (i : Nat) : s.contains i = bit (s.words.getD (i / 64) 0) i := by
  unfold contains
  cases h : s.words[i / 64]? with
  | none => simp [h, bit_zero]
  | some w => simp [h]

@[simp] theorem contains_empty (i : Nat) : empty.contains i = false := by
  simp [contains, empty]

@[simp] theorem contains_withCapacity (n i : Nat) : (withCapacity n).contains i = false := by
  rw [contains_eq_bit]
  have : (withCapacity n).words.getD (i / 64) 0 = 0 := by
    simp only [withCapacity, Array.getD_eq_getD_getElem?, Array.getElem?_replicate]
    split <;> rfl
  rw [this, bit_zero]

theorem getD_reach (s : BitSet) (k j : Nat) : (s.reach k).words.getD j 0 = s.words.getD j 0 := by
  unfold reach
  split
  · rfl
  · simp only [Array.getD_eq_getD_getElem?, Array.getElem?_append, Array.getElem?_replicate]
    split
    · rfl
    · have : s.words[j]? = none := by simp; omega
      rw [this]
      split <;> rfl

theorem lt_size_reach (s : BitSet) (k : Nat) : k < (s.reach k).words.size := by
  unfold reach
  split
  · assumption
  · simp; omega

/-- An added element was new exactly when the set did not have it. -/
theorem fst_add (s : BitSet) (i : Nat) : (s.add i).1 = !s.contains i := by
  simp only [add, getD_reach, contains_eq_bit]

/-- After an insertion the set has the inserted element and those it had. -/
theorem contains_insert (s : BitSet) (i j : Nat) :
    (s.insert i).contains j = (decide (j = i) || s.contains j) := by
  have hlt := lt_size_reach s (i / 64)
  simp only [insert, add, getD_reach, contains_eq_bit]
  by_cases hw : j / 64 = i / 64
  · have hget : (setIfInBounds (s.reach (i / 64)).words (i / 64)
        (s.words.getD (i / 64) 0 ||| mask i)).getD (j / 64) 0
        = s.words.getD (i / 64) 0 ||| mask i := by
      rw [getD_eq_getD_getElem?, hw]
      simp [hlt]
    rw [hget, bit_or_mask, hw, Bool.or_comm]
    congr 1
    rw [decide_eq_decide]
    omega
  · have hget : (setIfInBounds (s.reach (i / 64)).words (i / 64)
        (s.words.getD (i / 64) 0 ||| mask i)).getD (j / 64) 0 = s.words.getD (j / 64) 0 := by
      rw [← getD_reach s (i / 64) (j / 64), getD_eq_getD_getElem?,
        getElem?_setIfInBounds_ne (fun h => hw h.symm),
        getD_eq_getD_getElem?]
    have hne : j ≠ i := fun h => hw (by rw [h])
    rw [hget]
    simp [hne]

/-- After a removal the set has what it had, without the removed element. -/
theorem contains_remove (s : BitSet) (i j : Nat) :
    (s.remove i).contains j = (decide (j ≠ i) && s.contains j) := by
  unfold contains remove
  rw [Array.getElem?_modify]
  by_cases hw : i / 64 = j / 64
  · rw [if_pos hw]
    cases s.words[j / 64]? with
    | none => simp
    | some w =>
      simp only [Option.map_some, bit_andNot_mask]
      rw [Bool.and_comm]
      congr 1
      rw [decide_eq_decide]
      omega
  · have hne : j ≠ i := fun h => hw (by rw [h])
    rw [if_neg hw]
    simp [hne]

theorem mem_insert {s : BitSet} {i j : Nat} : j ∈ s.insert i ↔ j = i ∨ j ∈ s := by
  show (s.insert i).contains j = true ↔ _
  rw [contains_insert]
  simp [Membership.mem]

theorem mem_remove {s : BitSet} {i j : Nat} : j ∈ s.remove i ↔ j ≠ i ∧ j ∈ s := by
  show (s.remove i).contains j = true ↔ _
  rw [contains_remove]
  simp [Membership.mem]

/-! ## The least element -/

/-- A word that is not zero has a bit set. -/
theorem exists_bit {w : UInt64} (h : w ≠ 0) : ∃ j < 64, bit w j = true := by
  refine Classical.byContradiction fun hnone => h ?_
  rw [← UInt64.toBitVec_inj]
  apply BitVec.eq_of_getLsbD_eq
  intro j hj
  have hbit : bit w j = false := by
    cases hb : bit w j with
    | false => rfl
    | true => exact absurd ⟨j, hj, hb⟩ hnone
  rw [bit_eq, Nat.mod_eq_of_lt hj] at hbit
  simp [hbit]

/-- The lowest bit set in a word. -/
theorem head?_bits {w : UInt64} {j : Nat} :
    (bits w).head? = some j ↔ bit w j = true ∧ j < 64 ∧ ∀ k < j, bit w k = false := by
  simp [bits, List.head?_filter, List.find?_range_eq_some]

theorem mem_iff_bit {s : BitSet} {i : Nat} :
    i ∈ s ↔ ∃ w, s.words[i / 64]? = some w ∧ bit w (i % 64) = true := by
  have hmod : ∀ w, bit w (i % 64) = bit w i := fun w => by
    rw [bit_eq, bit_eq, mod_mod]
  show s.contains i = true ↔ _
  unfold contains
  cases s.words[i / 64]? <;> simp [hmod]

/-- The first word that is not zero, and its lowest bit. -/
theorem first?_cases (s : BitSet) :
    (s.first? = none ∧ ∀ (k : Nat) w, s.words[k]? = some w → w = 0) ∨
      ∃ (k : Nat) (w : UInt64) (j : Nat), s.first? = some (k * 64 + j) ∧ s.words[k]? = some w ∧
        (bits w).head? = some j ∧ ∀ l < k, s.words[l]? = some 0 := by
  unfold first?
  cases hk : s.words.findIdx? (· != 0) with
  | none =>
    refine .inl ⟨rfl, fun k w hw => ?_⟩
    have hzero := findIdx?_eq_none_iff.1 hk w (mem_of_getElem? hw)
    simpa using hzero
  | some k =>
    obtain ⟨hlt, hne, hzero⟩ := findIdx?_eq_some_iff_getElem.1 hk
    have hw : s.words[k]? = some s.words[k] := getElem?_eq_getElem hlt
    obtain ⟨j, hj⟩ : ∃ j, (bits s.words[k]).head? = some j := by
      obtain ⟨i, hi, hbit⟩ := exists_bit (w := s.words[k]) (by simpa using hne)
      refine Option.isSome_iff_exists.1 ?_
      rw [isSome_head?]
      exact ne_nil_of_mem (mem_filter.2 ⟨mem_range.2 hi, hbit⟩)
    refine .inr ⟨k, s.words[k], j, ?_, hw, hj, fun l hl => ?_⟩
    · simp [hw, hj]
    · rw [Array.getElem?_eq_getElem (Nat.lt_trans hl hlt)]
      simpa using hzero l hl

/-- Nothing is found in an empty set only. -/
theorem first?_eq_none {s : BitSet} : s.first? = none ↔ ∀ i, i ∉ s := by
  rcases s.first?_cases with ⟨hnone, hzero⟩ | ⟨k, w, j, hsome, hw, hj, -⟩
  · refine iff_of_true hnone fun i hi => ?_
    obtain ⟨w, hw, hbit⟩ := mem_iff_bit.1 hi
    rw [hzero _ w hw, bit_zero] at hbit
    cases hbit
  · obtain ⟨hbit, hlt, -⟩ := head?_bits.1 hj
    refine iff_of_false (by rw [hsome]; nofun) fun hnone => hnone (k * 64 + j) (mem_iff_bit.2 ?_)
    have hdiv : (k * 64 + j) / 64 = k := by omega
    have hmod : (k * 64 + j) % 64 = j := by omega
    rw [hdiv, hmod]
    exact ⟨w, hw, hbit⟩

/-- What is found is the least element. -/
theorem first?_eq_some {s : BitSet} {i : Nat} :
    s.first? = some i ↔ i ∈ s ∧ ∀ j ∈ s, i ≤ j := by
  rcases s.first?_cases with ⟨hnone, -⟩ | ⟨k, w, j, hsome, hw, hj, hbefore⟩
  · refine iff_of_false (by rw [hnone]; nofun) fun h => first?_eq_none.1 hnone i h.1
  · obtain ⟨hbit, hlt, hlow⟩ := head?_bits.1 hj
    have hmem : k * 64 + j ∈ s := by
      refine mem_iff_bit.2 ⟨w, ?_, ?_⟩
      · rwa [show (k * 64 + j) / 64 = k by omega]
      · rwa [show (k * 64 + j) % 64 = j by omega]
    have hleast : ∀ l ∈ s, k * 64 + j ≤ l := by
      intro l hl
      obtain ⟨v, hv, hset⟩ := mem_iff_bit.1 hl
      -- the element is in no word before this one, and in this one at no lower bit
      have hword : k ≤ l / 64 := by
        refine Nat.le_of_not_lt fun hlt => ?_
        rw [hbefore _ hlt] at hv
        cases hv
        rw [bit_zero] at hset
        cases hset
      by_cases hsame : l / 64 = k
      · rw [hsame, hw] at hv
        cases hv
        have hle : j ≤ l % 64 := by
          refine Nat.le_of_not_lt fun hlt => ?_
          rw [hlow _ hlt] at hset
          cases hset
        omega
      · omega
    rw [hsome, Option.some.injEq]
    constructor
    · rintro rfl
      exact ⟨hmem, hleast⟩
    · rintro ⟨hi, hmin⟩
      exact Nat.le_antisymm (hleast i hi) (hmin _ hmem)

end BitSet
end MethodGraph
