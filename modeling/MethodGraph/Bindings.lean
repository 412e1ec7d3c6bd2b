/-!
  Bindings: a finite table from keys to values, kept as the list of its pairs.

  The first pair of a key counts.  Writing a bound key replaces its value in place, writing a new
  key adds a pair at the end, so keys keep the order in which they were first written.
-/

namespace MethodGraph

/-- A finite table. -/
structure Bindings (κ α : Type) where
  pairs : List (κ × α) := []
  deriving Repr, Inhabited

namespace Bindings

variable {κ α : Type} [DecidableEq κ]

def empty : Bindings κ α := ⟨[]⟩

/-- The value bound to `k` in a list of pairs. -/
def lookup (k : κ) : List (κ × α) → Option α
  | [] => none
  | (k', x) :: rest => if k' = k then some x else lookup k rest

/-- Bind `k` to `x` in a list of pairs. -/
def write (k : κ) (x : α) : List (κ × α) → List (κ × α)
  | [] => [(k, x)]
  | (k', y) :: rest => if k' = k then (k, x) :: rest else (k', y) :: write k x rest

def get? (b : Bindings κ α) (k : κ) : Option α := lookup k b.pairs

def contains (b : Bindings κ α) (k : κ) : Bool := (b.get? k).isSome

def insert (b : Bindings κ α) (k : κ) (x : α) : Bindings κ α := ⟨write k x b.pairs⟩

def keys (b : Bindings κ α) : List κ := b.pairs.map (·.1)

/-- Keep the pairs whose value has an image, with that image. -/
def filterMap {β : Type} (b : Bindings κ α) (f : α → Option β) : Bindings κ β :=
  ⟨b.pairs.filterMap fun p => (f p.2).map fun y => (p.1, y)⟩

theorem lookup_write (k j : κ) (x : α) (ps : List (κ × α)) :
    lookup j (write k x ps) = if k = j then some x else lookup j ps := by
  induction ps with
  | nil => simp [write, lookup]
  | cons p ps ih =>
    obtain ⟨k', y⟩ := p
    simp only [write]
    split
    · subst_vars
      simp only [lookup]
      split <;> rfl
    · simp only [lookup, ih]
      grind

@[simp] theorem get?_empty (k : κ) : (empty : Bindings κ α).get? k = none := rfl

theorem get?_insert (b : Bindings κ α) (k j : κ) (x : α) :
    (b.insert k x).get? j = if k = j then some x else b.get? j :=
  lookup_write k j x b.pairs

end Bindings
end MethodGraph
