import MethodGraph.Fault
/-!
  Arithmetic with a width.

  Sizes and offsets are unsigned 32-bit quantities and register steps are signed 64-bit ones; a
  result that does not fit is a fault.  Sizes are natural numbers here, so that only the bound
  needs saying.
-/

namespace MethodGraph.Checked

/-- The first natural number that is no size. -/
def sizeBound : Nat := 4294967296

/-- A size, if it fits. -/
def size (n : Nat) : Except Fault Nat :=
  if n < sizeBound then .ok n else .error .arithmeticOverflow

/-- The signed 64-bit number `i`, if it fits. -/
def word (i : Int) : Except Fault Int64 :=
  if Int64.minValue.toInt ≤ i ∧ i ≤ Int64.maxValue.toInt then .ok (Int64.ofInt i)
  else .error .arithmeticOverflow

def addWord (a b : Int64) : Except Fault Int64 := word (a.toInt + b.toInt)

def mulWord (a b : Int64) : Except Fault Int64 := word (a.toInt * b.toInt)

/-- The least multiple of `a` that is not below `n`. -/
def roundUp (n a : Nat) : Nat := if n % a = 0 then n else n + (a - n % a)

theorem le_roundUp (n a : Nat) : n ≤ roundUp n a := by
  unfold roundUp; split <;> omega

theorem dvd_roundUp (n : Nat) {a : Nat} (h : 0 < a) : a ∣ roundUp n a := by
  unfold roundUp
  split
  · exact Nat.dvd_of_mod_eq_zero ‹_›
  · have hlt := Nat.mod_lt n h
    refine ⟨n / a + 1, ?_⟩
    have := Nat.div_add_mod n a
    rw [Nat.mul_add]
    omega

end MethodGraph.Checked
