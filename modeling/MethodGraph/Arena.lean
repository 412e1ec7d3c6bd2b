import MethodGraph.Fault
/-!
  Stores whose items are named by the order of their arrival.

  Blocks, values, symbols, types and builders are kept in an `Arena` and named by the position at
  which they were added; nothing is ever taken out, so a name stays good.  A `SideTable` holds
  facts about the items of another arena and grows, filled with a default, when a name beyond its
  end is written.

  The view of both is `get?`; every operation is described by what it does to it.
-/

namespace MethodGraph

/-- Items named by the order of their arrival. -/
structure Arena (α : Type) where
  items : Array α := #[]
  deriving Repr, Inhabited

namespace Arena

variable {α : Type}

def empty : Arena α := ⟨#[]⟩

def ofList (xs : List α) : Arena α := ⟨xs.toArray⟩

def size (a : Arena α) : Nat := a.items.size

def isEmpty (a : Arena α) : Bool := a.items.isEmpty

/-- The item called `i`. -/
def get? (a : Arena α) (i : Nat) : Option α := a.items[i]?

/-- The item called `i`, whose absence is a fault. -/
def fetch (a : Arena α) (i : Nat) : Except Fault α :=
  match a.get? i with
  | some x => .ok x
  | none => .error .indexOutOfBounds

/-- The name the next item will get. -/
def nextId (a : Arena α) : Nat := a.size

/-- Add an item; the first component is its name. -/
def alloc (a : Arena α) (x : α) : Nat × Arena α := (a.nextId, ⟨a.items.push x⟩)

/-- Change the item called `i`, if there is one. -/
def modify (a : Arena α) (i : Nat) (f : α → α) : Arena α := ⟨a.items.modify i f⟩

/-- Replace the item called `i`, if there is one. -/
def set (a : Arena α) (i : Nat) (x : α) : Arena α := a.modify i fun _ => x

/-- All names, in order. -/
def ids (a : Arena α) : List Nat := List.range a.size

def toList (a : Arena α) : List α := a.items.toList

/-- All items with their names, in order. -/
def entries (a : Arena α) : List (Nat × α) := a.ids.zip a.toList

/-- The name of an item, as diagnostics write it. -/
def label (i : Nat) : String := s!"#{i}"

theorem get?_isSome {a : Arena α} {i : Nat} : (a.get? i).isSome ↔ i < a.size := by
  simp [get?, size]

theorem get?_eq_none {a : Arena α} {i : Nat} : a.get? i = none ↔ a.size ≤ i := by
  simp [get?, size]

@[simp] theorem size_empty : (empty : Arena α).size = 0 := rfl

@[simp] theorem size_alloc (a : Arena α) (x : α) : (a.alloc x).2.size = a.size + 1 := by
  simp [alloc, size]

theorem get?_alloc (a : Arena α) (x : α) (i : Nat) :
    (a.alloc x).2.get? i = if i = a.size then some x else a.get? i :=
  Array.getElem?_push

@[simp] theorem size_modify (a : Arena α) (i : Nat) (f : α → α) :
    (a.modify i f).size = a.size := by
  simp [modify, size]

theorem get?_modify (a : Arena α) (i j : Nat) (f : α → α) :
    (a.modify i f).get? j = if i = j then (a.get? j).map f else a.get? j := by
  simp [modify, get?, Array.getElem?_modify]

theorem fetch_eq_ok {a : Arena α} {i : Nat} {x : α} : a.fetch i = .ok x ↔ a.get? i = some x := by
  unfold fetch
  cases a.get? i <;> simp

end Arena

/-- Facts about the items of some arena, with a default for those not written yet. -/
structure SideTable (α : Type) where
  items : Array α := #[]
  deriving Repr, Inhabited

namespace SideTable

variable {α : Type}

def empty : SideTable α := ⟨#[]⟩

/-- A table with the default for the first `n` names. -/
def filled [Inhabited α] (n : Nat) : SideTable α := ⟨Array.replicate n default⟩

def get? (t : SideTable α) (i : Nat) : Option α := t.items[i]?

/-- The fact at `i`, whose absence is a fault. -/
def fetch (t : SideTable α) (i : Nat) : Except Fault α :=
  match t.get? i with
  | some x => .ok x
  | none => .error .indexOutOfBounds

/-- The table grown to hold the name `i`. -/
def reach [Inhabited α] (t : SideTable α) (i : Nat) : SideTable α :=
  if i < t.items.size then t
  else ⟨t.items ++ Array.replicate (i + 1 - t.items.size) default⟩

/-- Write the fact at `i`, growing the table to hold it. -/
def set [Inhabited α] (t : SideTable α) (i : Nat) (x : α) : SideTable α :=
  ⟨(t.reach i).items.setIfInBounds i x⟩

/-- Change the fact at `i` only if the table already holds it. -/
def modify (t : SideTable α) (i : Nat) (f : α → α) : SideTable α := ⟨t.items.modify i f⟩

/-- The fact at `i`, where an unwritten one counts as the default. -/
def getD [Inhabited α] (t : SideTable α) (i : Nat) : α := (t.get? i).getD default

theorem getD_filled [Inhabited α] (n i : Nat) : (filled n : SideTable α).getD i = default := by
  simp only [getD, get?, filled, Array.getElem?_replicate]
  split <;> rfl

theorem getD_reach [Inhabited α] (t : SideTable α) (i j : Nat) :
    (t.reach i).getD j = t.getD j := by
  unfold reach
  split
  · rfl
  · simp only [getD, get?, Array.getElem?_append, Array.getElem?_replicate]
    split
    · rfl
    · have : t.items[j]? = none := by simp; omega
      rw [this]
      split <;> rfl

theorem lt_size_reach [Inhabited α] (t : SideTable α) (i : Nat) : i < (t.reach i).items.size := by
  unfold reach
  split
  · assumption
  · simp; omega

/-- After writing at `i`, that fact reads back and every other one is as before. -/
theorem getD_set [Inhabited α] (t : SideTable α) (i j : Nat) (x : α) :
    (t.set i x).getD j = if i = j then x else t.getD j := by
  have hlt := lt_size_reach t i
  by_cases h : i = j
  · subst h
    simp [set, getD, get?, hlt]
  · have := getD_reach t i j
    simp only [getD, get?] at this
    simp [set, getD, get?, h, this]

end SideTable
end MethodGraph
