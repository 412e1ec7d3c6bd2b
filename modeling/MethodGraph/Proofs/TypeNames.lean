import Mathlib
import MethodGraph.TypeTable
import MethodGraph.Proofs.Layout
/-!
  What the names of a table of types stand for.

  A structure or union is begun under a name that stands for nothing yet, but a pointer is
  registered under the name of its target with a star, whatever that name stands for.  So a name
  always stands for a type that is registered under it, namely for the latest; whether it stands
  for the same type for ever, and whether every type is found by its name, depends on the pointers.

  All that a request can do to a table is said once (`TypeTable.Step`), and what follows for names
  is proved for one step and then for a history of requests.

  Main statement: both laws hold exactly if no pointer was made under a name that stood for a type
  (`TypeTable.names_stable_iff`).  A client that gives no structure or union a name ending in a
  star is safe.
-/

namespace MethodGraph

open List Option

variable {l l' : Layout} {rs : List TypeRequest} {a : Option Nat} {n name : String} {e : TypeEntry}
  {id target : TypeId} {r : TypeRequest} {shape : TypeShape}

variable {α : Type} {t t₁ t' : TypeTable}

/-! ## Requests -/

/-- Where a new field goes. -/
inductive Placement where
  /-- Behind the fields of a structure. -/
  | next
  /-- To a given offset of a structure. -/
  | fixed (offset : Nat)
  /-- To the beginning of a union. -/
  | start
  deriving DecidableEq, Repr

namespace Placement

def kind : Placement → AggregateKind
  | next | fixed _ => .struct
  | start => .union

/-- The offset of a field with an alignment, for what the layout is so far. -/
def offset : Placement → Layout → Nat → Except Fault Nat
  | next, l, align => Checked.size (Checked.roundUp l.size (max align 1))
  | fixed n, _, _ => .ok n
  | start, _, _ => .ok 0

/-- Add a field to an aggregate. -/
def add (aggregate field : String) (ty : TypeId) (t : TypeTable) :
    Placement → Except Fault (Option Nat × TypeTable)
  | next => t.defineField aggregate field ty
  | fixed n => t.defineFieldAt aggregate field ty n
  | start => t.unionField aggregate field ty

theorem add_eq (p : Placement) (aggregate field : String) (ty : TypeId) :
    p.add aggregate field ty t = t.addField p.kind aggregate field ty p.offset := by
  cases p <;> rfl

end Placement

/-- What a caller can ask of a table of types, apart from questions. -/
inductive TypeRequest where
  | define (kind : AggregateKind) (name : String)
  | pointerTo (target : TypeId)
  | field (place : Placement) (aggregate field : String) (ty : TypeId)
  | close (kind : AggregateKind) (name : String)
  deriving DecidableEq, Repr

namespace TypeRequest

/-- The table after a request. -/
def apply (t : TypeTable) : TypeRequest → Except Fault TypeTable
  | define kind name => return (← t.defineAggregate kind name).2
  | pointerTo target => return (← t.pointerTo target).2
  | field place aggregate name ty => return (← place.add aggregate name ty t).2
  | close kind name => return (← t.close kind name).2

/-- The request makes a pointer under a name that stands for a type. -/
def shadows (t : TypeTable) : TypeRequest → Bool
  | pointerTo target =>
    (t.types.items.findIdx? (·.shape == .pointer target)).isNone &&
      (t.types.get? target).any fun e => (t.lookup (e.name ++ "*")).isSome
  | _ => false

end TypeRequest

/-- A layout with one more field. -/
def Layout.placed (l : Layout) (f : Field) (shape : TypeShape) : Layout :=
  { l with
    fields := l.fields ++ [f]
    size := max l.size (f.offset + shape.size)
    align := max l.align shape.align }

/-- A layout when it is closed. -/
def Layout.sealed (l : Layout) : Layout :=
  { l with size := Checked.roundUp l.size l.alignment, closed := true }

theorem Checked.size_eq_ok {n k : Nat} : size n = .ok k ↔ n < sizeBound ∧ n = k := by
  unfold size
  split
  · next h => simp [h]
  · next h => simp [h]

theorem Checked.size_bind_eq_ok {β : Type} {n : Nat} {f : Nat → β} {y : β} :
    (do return f (← size n)) = Except.ok y ↔ n < sizeBound ∧ y = f n := by
  cases h : size n with
  | error e =>
    constructor
    · intro hok
      cases hok
    · rintro ⟨hlt, -⟩
      cases h.symm.trans (size_eq_ok.2 ⟨hlt, rfl⟩)
  | ok k =>
    obtain ⟨hlt, rfl⟩ := size_eq_ok.1 h
    show Except.ok (f n) = .ok y ↔ _
    simp [hlt, eq_comm]

theorem Layout.addField_eq_ok {f : Field} : l.addField f shape.size shape.align = .ok l' ↔
      f.offset + shape.size < Checked.sizeBound ∧ l' = l.placed f shape :=
  Checked.size_bind_eq_ok

theorem Layout.close_eq_ok : l.close = .ok l' ↔
    Checked.roundUp l.size l.alignment < Checked.sizeBound ∧ l' = l.sealed :=
  Checked.size_bind_eq_ok

variable {kind : AggregateKind}

theorem TypeShape.layoutOf?_eq_some : shape.layoutOf? kind = some l ↔ shape = .ofLayout kind l := by
  cases shape <;> cases kind <;> simp [layoutOf?, ofLayout]

namespace TypeTable

/-! ## What a request can do -/

/-- All that a request can do to a table. -/
inductive Step (t : TypeTable) : TypeRequest → TypeTable → Prop where
  | idle {r : TypeRequest} (hr : r.shadows t = false) : Step t r t
  | define {kind : AggregateKind} {name : String} (hfree : t.lookup name = none) :
    Step t (.define kind name) (t.register name (.ofLayout kind {})).2
  | point {target : TypeId} {e : TypeEntry}
    (hnew : t.types.items.findIdx? (·.shape == .pointer target) = none)
    (htarget : t.types.get? target = some e) :
    Step t (.pointerTo target) (t.register (e.name ++ "*") (.pointer target)).2
  | place {place : Placement} {aggregate : String} {f : Field} {id : TypeId} {l : Layout}
    {e : TypeEntry} (hname : t.lookup aggregate = some id)
    (hid : t.types.get? id = some ⟨aggregate, .ofLayout place.kind l⟩) (hopen : l.closed = false)
    (hty : t.types.get? f.ty = some e) (hoffset : place.offset l e.shape.align = .ok f.offset)
    (hsize : f.offset + e.shape.size < Checked.sizeBound) :
    Step t (.field place aggregate f.name f.ty) (t.setLayout place.kind id (l.placed f e.shape))
  | close {kind : AggregateKind} {name : String} {id : TypeId} {l : Layout}
    (hname : t.lookup name = some id)
    (hid : t.types.get? id = some ⟨name, .ofLayout kind l⟩) (hopen : l.closed = false)
    (hsize : Checked.roundUp l.size l.alignment < Checked.sizeBound) :
    Step t (.close kind name) (t.setLayout kind id l.sealed)

/-- The table after several requests. -/
def serve (t : TypeTable) : List TypeRequest → Except Fault TypeTable
  | [] => .ok t
  | r :: rs => do (← r.apply t).serve rs

theorem serve_cons :
    t.serve (r :: rs) = .ok t' ↔ ∃ t₁, r.apply t = .ok t₁ ∧ t₁.serve rs = .ok t' := by
  rw [serve]
  cases r.apply t with
  | error e => simp [bind, Except.bind]
  | ok t₁ => simp [bind, Except.bind]

theorem serve_append {rs' : List TypeRequest} :
    t.serve (rs ++ rs') = .ok t' ↔ ∃ t₁, t.serve rs = .ok t₁ ∧ t₁.serve rs' = .ok t' := by
  induction rs generalizing t with
  | nil => simp [serve]
  | cons r rs ih =>
    rw [cons_append, serve_cons]
    simp only [serve_cons, ih]
    constructor
    · rintro ⟨t₁, h1, t2, h2, h3⟩
      exact ⟨t2, ⟨t₁, h1, h2⟩, h3⟩
    · rintro ⟨t2, ⟨t₁, h1, h2⟩, h3⟩
      exact ⟨t₁, h1, t2, h2, h3⟩

/-- Some request of a history meets a test, which is made of the request and the table that it
    comes to. -/
def meets (test : TypeTable → TypeRequest → Bool) (t : TypeTable) : List TypeRequest → Bool
  | [] => false
  | r :: rs => test t r || match r.apply t with
    | .ok t₁ => t₁.meets test rs
    | .error _ => false

theorem meets_cons {test : TypeTable → TypeRequest → Bool} (h : r.apply t = .ok t₁) :
    t.meets test (r :: rs) = false ↔ test t r = false ∧ t₁.meets test rs = false := by
  rw [meets, h, Bool.or_eq_false_iff]

/-! ## What a name stands for -/

/-- A name stands for the latest type that is registered under it. -/
theorem lookup_eq_some : t.lookup n = some id ↔ ∃ e, t.types.get? id = some e ∧ e.name = n ∧
      ∀ j e', id < j → t.types.get? j = some e' → e'.name ≠ n := by
  have hlatest : ∀ {id}, t.lookup n = some id → ∃ e, t.types.get? id = some e ∧ e.name = n ∧
      ∀ j e', id < j → t.types.get? j = some e' → e'.name ≠ n := by
    intro id h
    obtain ⟨⟨i, e⟩, hfind, rfl⟩ := map_eq_some_iff.1 h
    obtain ⟨hname, before, after, hentries, hbefore⟩ := find?_eq_some_iff_append.1 hfind
    have hmem : (i, e) ∈ t.types.entries := by
      rw [← mem_reverse, hentries]
      simp
    refine ⟨e, Arena.mem_entries.1 hmem, by simpa using hname, fun j e' hj he' hn => ?_⟩
    -- what is registered later comes first in the reversed list
    have hsorted : t.types.entries.reverse.Pairwise fun p q => q.1 < p.1 := by
      rw [pairwise_reverse, ← pairwise_map (f := Prod.fst)]
      have hfst : t.types.entries.map Prod.fst = range t.types.size := by
        unfold Arena.entries Arena.ids Arena.toList
        rw [map_fst_zip]
        simp [Arena.size]
      rw [hfst]
      exact pairwise_lt_range
    have hlater : (j, e') ∈ before ++ (i, e) :: after := by
      rw [← hentries, mem_reverse]
      exact Arena.mem_entries.2 he'
    rw [hentries, pairwise_append, pairwise_cons] at hsorted
    rcases mem_append.1 hlater with hin | hin
    · have := hbefore _ hin
      simp [hn] at this
    · rcases mem_cons.1 hin with heq | hin
      · cases heq
        exact absurd hj (Nat.lt_irrefl _)
      · exact absurd hj (Nat.lt_asymm (hsorted.2.1.1 _ hin))
  refine ⟨hlatest, ?_⟩
  rintro ⟨e, he, hn, hmax⟩
  cases hlookup : t.lookup n with
  | none =>
    have hfind := find?_eq_none.1 (map_eq_none_iff.1 hlookup) (id, e)
    simp [Arena.mem_entries.2 he, hn] at hfind
  | some id' =>
    obtain ⟨e', he', hn', hmax'⟩ := hlatest hlookup
    rcases Nat.lt_trichotomy id id' with hlt | rfl | hlt
    · exact absurd hn' (hmax _ _ hlt he')
    · rfl
    · exact absurd hn (hmax' _ _ hlt he)

/-- What a name stands for depends on the names of the types. -/
theorem lookup_congr (h : ∀ j, (t'.types.get? j).map (·.name) = some n ↔
      (t.types.get? j).map (·.name) = some n) : t'.lookup n = t.lookup n := by
  have hlatest : ∀ (t : TypeTable) i, t.lookup n = some i ↔
      (t.types.get? i).map (·.name) = some n ∧
        ∀ j, i < j → (t.types.get? j).map (·.name) ≠ some n := by
    intro t i
    simp only [lookup_eq_some, map_eq_some_iff, ne_eq, not_exists, not_and]
    exact ⟨fun ⟨e, he, hn, hmax⟩ => ⟨⟨e, he, hn⟩, fun j hj e' => hmax j e' hj⟩,
      fun ⟨⟨e, he, hn⟩, hmax⟩ => ⟨e, he, hn, fun j e' hj => hmax j hj e'⟩⟩
  refine ext fun i => ?_
  simp only [hlatest, h, ne_eq]

theorem lookup_isSome : (t.lookup n).isSome = true ↔
    ∃ id e, t.types.get? id = some e ∧ e.name = n := by
  unfold lookup
  rw [isSome_map, find?_isSome]
  constructor
  · rintro ⟨⟨id, e⟩, hmem, hn⟩
    exact ⟨id, e, Arena.mem_entries.1 (mem_reverse.1 hmem), by simpa using hn⟩
  · rintro ⟨id, e, he, hn⟩
    exact ⟨(id, e), mem_reverse.2 (Arena.mem_entries.2 he), by simpa using hn⟩

theorem exists_free_name (t : TypeTable) : ∃ n, t.lookup n = none := by
  obtain ⟨n, hn⟩ := Infinite.exists_notMem_finset (t.types.toList.map (·.name)).toFinset
  refine ⟨n, not_isSome_iff_eq_none.1 fun hsome => hn ?_⟩
  obtain ⟨id, e, he, rfl⟩ := lookup_isSome.1 hsome
  rw [List.mem_toFinset]
  exact mem_map_of_mem (Array.mem_toList_iff.2 (Array.mem_of_getElem? he))

theorem get?_register (name : String) (shape : TypeShape) (id : TypeId) :
    (t.register name shape).2.types.get? id =
      if id = t.types.size then some ⟨name, shape⟩ else t.types.get? id :=
  Arena.get?_alloc ..

theorem size_register (name : String) (shape : TypeShape) :
    (t.register name shape).2.types.size = t.types.size + 1 :=
  Arena.size_alloc ..

theorem lt_size (h : t.types.get? id = some e) : id < t.types.size :=
  Arena.get?_isSome.1 (by rw [h]; rfl)

theorem get?_register_of_some (h : t.types.get? id = some e) (name : String) (shape : TypeShape) :
    (t.register name shape).2.types.get? id = some e := by
  rw [get?_register, if_neg (lt_size h).ne]
  exact h

theorem lookup_register (name : String) (shape : TypeShape) (n : String) :
    (t.register name shape).2.lookup n = if n = name then some t.types.size else t.lookup n := by
  split
  · next hn =>
    subst hn
    refine lookup_eq_some.2 ⟨⟨n, shape⟩, ?_, rfl, fun j e hj he => ?_⟩
    · rw [get?_register, if_pos rfl]
    · have hlt := lt_size he
      rw [size_register] at hlt
      exact absurd hj (Nat.not_lt.2 (Nat.le_of_lt_succ hlt))
  · next hn =>
    -- the new type has another name
    refine lookup_congr fun j => ?_
    rw [get?_register]
    split
    · next hj => simp [hj, Ne.symm hn, Arena.get?_eq_none.2 le_rfl]
    · rfl

theorem get?_setLayout (kind : AggregateKind) (id : TypeId) (l : Layout) (j : TypeId) :
    (t.setLayout kind id l).types.get? j =
      if id = j then (t.types.get? j).map fun e => { e with shape := .ofLayout kind l }
      else t.types.get? j :=
  Arena.get?_modify ..

/-- A layout is no part of a name. -/
theorem names_setLayout (kind : AggregateKind) (id : TypeId) (l : Layout) (j : TypeId) :
    ((t.setLayout kind id l).types.get? j).map (·.name) = (t.types.get? j).map (·.name) := by
  rw [get?_setLayout]
  split
  · rw [Option.map_map]
    rfl
  · rfl

theorem lookup_setLayout (kind : AggregateKind) (id : TypeId) (l : Layout) (n : String) :
    (t.setLayout kind id l).lookup n = t.lookup n :=
  lookup_congr fun j => by rw [names_setLayout]

/-! ## Requests are steps -/

/-- What an aggregate that is found open is. -/
theorem openLayout_eq_ok (h : t.openLayout kind name = .ok (some (id, l)))
    : t.lookup name = some id ∧
      t.types.get? id = some ⟨name, .ofLayout kind l⟩ ∧ l.closed = false := by
  unfold openLayout at h
  cases hname : t.lookup name with
  | none =>
    rw [hname] at h
    cases h
  | some id' =>
    simp only [hname] at h
    cases hlayout : (t.types.get? id').bind (·.shape.layoutOf? kind) with
    | none =>
      rw [hlayout] at h
      cases h
    | some l' =>
      simp only [hlayout] at h
      split at h
      · cases h
      · next hopen =>
        cases h
        obtain ⟨e, he, hshape⟩ := bind_eq_some_iff.1 hlayout
        obtain ⟨e', he', hn, -⟩ := lookup_eq_some.1 hname
        cases he.symm.trans he'
        refine ⟨rfl, ?_, by simpa using hopen⟩
        rw [he, ← hn, ← TypeShape.layoutOf?_eq_some.1 hshape]

end TypeTable

namespace TypeRequest

/-- What a request that succeeds answers with is the table it makes. -/
theorem of_apply {x : Except Fault (α × TypeTable)} (h : (do return (← x).2) = Except.ok t') :
    ∃ a, x = .ok (a, t') := by
  cases x with
  | error e => cases h
  | ok p =>
    obtain ⟨a, t₁⟩ := p
    cases h
    exact ⟨a, rfl⟩

theorem pointerTo_step (h : t.pointerTo target = .ok (id, t')) : t.Step (.pointerTo target) t' := by
  unfold TypeTable.pointerTo at h
  cases hold : t.types.items.findIdx? (·.shape == .pointer target) with
  | some id' =>
    simp only [hold] at h
    cases h
    exact .idle (by simp [shadows, hold])
  | none =>
    simp only [hold] at h
    obtain ⟨e, hget, h⟩ := ok_of_bind h
    cases h
    exact .point hold (Arena.fetch_eq_ok.1 hget)

theorem field_step {place : Placement} {aggregate name : String} {ty : TypeId} {a : Option Nat}
    (h : t.addField place.kind aggregate name ty place.offset = .ok (a, t')) :
    t.Step (.field place aggregate name ty) t' := by
  unfold TypeTable.addField at h
  obtain ⟨e, hget, h⟩ := ok_of_bind h
  obtain ⟨found, hlayout, h⟩ := ok_of_bind h
  cases found with
  | none =>
    cases h
    exact .idle rfl
  | some p =>
    obtain ⟨id, l⟩ := p
    obtain ⟨hname, hid, hopen⟩ := TypeTable.openLayout_eq_ok hlayout
    obtain ⟨offset, hoffset, h⟩ := ok_of_bind h
    obtain ⟨l', hplaced, h⟩ := ok_of_bind h
    cases h
    obtain ⟨hsize, rfl⟩ := Layout.addField_eq_ok.1 hplaced
    exact .place (f := ⟨name, ty, offset⟩) hname hid hopen (Arena.fetch_eq_ok.1 hget)
      hoffset hsize

theorem close_step (h : t.close kind name = .ok (a, t')) : t.Step (.close kind name) t' := by
  unfold TypeTable.close at h
  obtain ⟨found, hlayout, h⟩ := ok_of_bind h
  cases found with
  | none =>
    cases h
    exact .idle rfl
  | some p =>
    obtain ⟨id, l⟩ := p
    obtain ⟨hname, hid, hopen⟩ := TypeTable.openLayout_eq_ok hlayout
    obtain ⟨l', hsealed, h⟩ := ok_of_bind h
    cases h
    obtain ⟨hsize, rfl⟩ := Layout.close_eq_ok.1 hsealed
    exact .close hname hid hopen hsize

/-- A request that succeeds is a step. -/
theorem apply_step (h : r.apply t = .ok t') : t.Step r t' := by
  cases r with
  | define kind name =>
    obtain ⟨id, h⟩ := of_apply h
    unfold TypeTable.defineAggregate at h
    split at h
    · cases h
    · next hfree =>
      cases h
      exact .define (by simpa using hfree)
  | pointerTo target =>
    obtain ⟨id, h⟩ := of_apply h
    exact pointerTo_step h
  | field place aggregate name ty =>
    obtain ⟨a, h⟩ := of_apply h
    rw [Placement.add_eq] at h
    exact field_step h
  | close kind name =>
    obtain ⟨a, h⟩ := of_apply h
    exact close_step h

end TypeRequest

/-! ## What becomes of names -/

namespace TypeTable

variable {r : TypeRequest} {rs : List TypeRequest}

/-- Every type is found by its name. -/
def Found (t : TypeTable) : Prop := ∀ id e, t.types.get? id = some e → t.lookup e.name = some id

/-- What names stand for, they stand for in the other table too. -/
def Binds (t t' : TypeTable) : Prop := ∀ n id, t.lookup n = some id → t'.lookup n = some id

theorem binds_register (name : String) (shape : TypeShape) :
    t.Binds (t.register name shape).2 ↔ t.lookup name = none := by
  constructor
  · intro h
    cases hname : t.lookup name with
    | none => rfl
    | some id =>
      obtain ⟨e, he, -⟩ := lookup_eq_some.1 hname
      have hnew := h name id hname
      rw [lookup_register, if_pos rfl] at hnew
      cases hnew
      exact absurd (lt_size he) (Nat.lt_irrefl _)
  · intro hfree n id h
    rw [lookup_register, if_neg]
    · exact h
    · rintro rfl
      cases hfree.symm.trans h

theorem found_register (name : String) (shape : TypeShape) :
    (t.register name shape).2.Found ↔ t.Found ∧ t.lookup name = none := by
  constructor
  · intro h
    have hother : ∀ id e, t.types.get? id = some e → e.name ≠ name := by
      rintro id e he rfl
      have hfound := h id e (get?_register_of_some he ..)
      rw [lookup_register, if_pos rfl] at hfound
      cases hfound
      exact Nat.lt_irrefl _ (lt_size he)
    refine ⟨fun id e he => ?_, ?_⟩
    · have hfound := h id e (get?_register_of_some he ..)
      rw [lookup_register, if_neg (hother id e he)] at hfound
      exact hfound
    · cases hname : t.lookup name with
      | none => rfl
      | some id =>
        obtain ⟨e, he, hn, -⟩ := lookup_eq_some.1 hname
        exact absurd hn (hother id e he)
  · rintro ⟨h, hfree⟩ id e he
    rw [get?_register] at he
    rw [lookup_register]
    split at he
    · next hid =>
      cases he
      rw [if_pos rfl, hid]
    · rw [if_neg]
      · exact h id e he
      · intro hn
        rw [← hn, h id e he] at hfree
        cases hfree

theorem binds_setLayout (kind : AggregateKind) (id : TypeId) (l : Layout) :
    t.Binds (t.setLayout kind id l) := by
  intro n i h
  rw [lookup_setLayout]
  exact h

theorem found_setLayout (kind : AggregateKind) (id : TypeId) (l : Layout) :
    (t.setLayout kind id l).Found ↔ t.Found := by
  have hfound : ∀ t : TypeTable,
      t.Found ↔ ∀ i n, (t.types.get? i).map (·.name) = some n → t.lookup n = some i := by
    intro t
    constructor
    · intro h i n hn
      obtain ⟨e, he, rfl⟩ := map_eq_some_iff.1 hn
      exact h i e he
    · intro h i e he
      exact h i e.name (by rw [he]; rfl)
  simp only [hfound, names_setLayout, lookup_setLayout]

/-- What a pointer that is made finds under its name. -/
theorem shadows_pointerTo (hnew : t.types.items.findIdx? (·.shape == .pointer target) = none)
    (htarget : t.types.get? target = some e) :
    (TypeRequest.pointerTo target).shadows t = false ↔ t.lookup (e.name ++ "*") = none := by
  simp [TypeRequest.shadows, hnew, htarget]

/-- What names stand for is kept by a step exactly if the step does not make a pointer under a name
    that stands for a type. -/
theorem Step.binds_iff (h : t.Step r t') : t.Binds t' ↔ r.shadows t = false := by
  cases h with
  | idle hr => exact ⟨fun _ => hr, fun _ _ _ h => h⟩
  | define hfree => exact ⟨fun _ => rfl, fun _ => (binds_register ..).2 hfree⟩
  | point hnew htarget => rw [binds_register, shadows_pointerTo hnew htarget]
  | place => exact ⟨fun _ => rfl, fun _ => binds_setLayout _ _ _⟩
  | close => exact ⟨fun _ => rfl, fun _ => binds_setLayout _ _ _⟩

theorem Step.found_iff (h : t.Step r t') : t'.Found ↔ t.Found ∧ r.shadows t = false := by
  cases h with
  | idle hr => exact ⟨fun h => ⟨h, hr⟩, fun h => h.1⟩
  | define hfree =>
    rw [found_register]
    exact ⟨fun h => ⟨h.1, rfl⟩, fun h => ⟨h.1, hfree⟩⟩
  | point hnew htarget => rw [found_register, shadows_pointerTo hnew htarget]
  | place =>
    rw [found_setLayout]
    exact ⟨fun h => ⟨h, rfl⟩, fun h => h.1⟩
  | close =>
    rw [found_setLayout]
    exact ⟨fun h => ⟨h, rfl⟩, fun h => h.1⟩

/-- A name that stands for a type stands for one ever after, never for an earlier one. -/
theorem Step.lookup_le (h : t.Step r t') (hn : t.lookup n = some id) :
    ∃ id', t'.lookup n = some id' ∧ id ≤ id' := by
  have hregister : ∀ name shape, ∃ id', (t.register name shape).2.lookup n = some id' ∧
      id ≤ id' := by
    intro name shape
    rw [lookup_register]
    split
    · obtain ⟨e, he, -⟩ := lookup_eq_some.1 hn
      exact ⟨_, rfl, (lt_size he).le⟩
    · exact ⟨id, hn, le_rfl⟩
  cases h with
  | idle => exact ⟨id, hn, le_rfl⟩
  | define => exact hregister ..
  | point => exact hregister ..
  | place => exact ⟨id, binds_setLayout _ _ _ n id hn, le_rfl⟩
  | close => exact ⟨id, binds_setLayout _ _ _ n id hn, le_rfl⟩

theorem serve_found_iff (h : t.serve rs = .ok t') :
    t'.Found ↔ t.Found ∧ t.meets TypeRequest.shadows rs = false := by
  induction rs generalizing t with
  | nil =>
    cases h
    simp [meets]
  | cons r rs ih =>
    obtain ⟨t₁, h1, h⟩ := serve_cons.1 h
    rw [ih h, (TypeRequest.apply_step h1).found_iff, meets_cons h1, and_assoc]

theorem serve_binds (h : t.serve rs = .ok t') (hrs : t.meets TypeRequest.shadows rs = false) :
    t.Binds t' := by
  induction rs generalizing t with
  | nil =>
    cases h
    exact fun _ _ hn => hn
  | cons r rs ih =>
    obtain ⟨t₁, h1, h⟩ := serve_cons.1 h
    obtain ⟨hr, hrs⟩ := (meets_cons h1).1 hrs
    exact fun n id hn => ih h hrs n id ((TypeRequest.apply_step h1).binds_iff.2 hr n id hn)

/-- All that was found under a name at some time of a history is still found at its end, exactly
    if no request made a pointer under a name that stood for a type. -/
theorem serve_binds_iff (h : t.serve rs = .ok t') :
    (∀ pre post t₁, rs = pre ++ post → t.serve pre = .ok t₁ → t₁.Binds t') ↔
      t.meets TypeRequest.shadows rs = false := by
  induction rs generalizing t with
  | nil =>
    cases h
    refine ⟨fun _ => rfl, fun _ pre post t₁ hrs hpre => ?_⟩
    obtain ⟨rfl, -⟩ := append_eq_nil_iff.1 hrs.symm
    cases hpre
    exact fun _ _ hn => hn
  | cons r rs ih =>
    have hall := h
    obtain ⟨t₁, h1, h⟩ := serve_cons.1 h
    have hstep := TypeRequest.apply_step h1
    constructor
    · intro hkept
      refine (meets_cons h1).2 ⟨hstep.binds_iff.1 fun n id hn => ?_, (ih h).1 ?_⟩
      · -- the next table finds what the last one finds, which is what this one finds
        obtain ⟨id1, hn1, -⟩ := hstep.lookup_le hn
        have hlast := hkept [] (r :: rs) t rfl rfl n id hn
        have hlast1 := hkept [r] rs t₁ rfl (serve_cons.2 ⟨t₁, h1, rfl⟩) n id1 hn1
        rw [hn1, ← hlast1, hlast]
      · rintro pre post t2 rfl hpre
        exact hkept (r :: pre) post t2 rfl (serve_cons.2 ⟨t₁, h1, hpre⟩)
    · intro hrs pre post t2 heq hpre
      cases pre with
      | nil =>
        cases hpre
        exact serve_binds hall hrs
      | cons r' pre =>
        obtain ⟨rfl, rfl⟩ := cons_eq_cons.1 heq
        obtain ⟨t₁', h1', hpre⟩ := serve_cons.1 hpre
        cases h1.symm.trans h1'
        exact (ih h).2 ((meets_cons h1).1 hrs).2 pre post t2 rfl hpre

/-! ## Names with a star -/

/-- The name ends in a star. -/
def starred (n : String) : Bool := n.toList.getLast? == some '*'

/-- Only pointers have names that end in a star, and such a name is that of the target with the
    star. -/
def Pointed (t : TypeTable) : Prop := ∀ id e, t.types.get? id = some e → starred e.name = true →
  ∃ target d, e.shape = .pointer target ∧ t.types.get? target = some d ∧ e.name = d.name ++ "*"

/-- Where every type is found by its name and only pointers have names that end in a star, a
    pointer gets a name that stands for nothing. -/
theorem Pointed.shadows_eq_false (hp : t.Pointed) (hf : t.Found) (r : TypeRequest) :
    r.shadows t = false := by
  cases r with
  | pointerTo target =>
    by_contra hr
    simp only [TypeRequest.shadows, Bool.and_eq_true, Option.isNone_iff_eq_none,
      Option.any_eq_true, Bool.not_eq_false] at hr
    obtain ⟨hnew, e, he, hname⟩ := hr
    obtain ⟨id, d, hd, hdn⟩ := lookup_isSome.1 hname
    obtain ⟨target', e', hshape, he', hen⟩ := hp id d hd (by simp [starred, hdn])
    -- the names of the two targets are the same, so they are the same type
    have hnames : e'.name = e.name := by
      have hlists := congrArg String.toList (hen.symm.trans hdn)
      exact String.toList_inj.1 (by simpa using hlists)
    have htarget : target' = target := by
      have hfound := hf target' e' he'
      rw [hnames, hf target e he] at hfound
      exact (Option.some.inj hfound).symm
    subst htarget
    have hnone := Array.findIdx?_eq_none_iff.1 hnew d (Array.mem_of_getElem? hd)
    simp [hshape] at hnone
  | _ => rfl

theorem Pointed.register (hp : t.Pointed)
    (hname : starred name = true → ∃ target d, shape = .pointer target ∧
      t.types.get? target = some d ∧ name = d.name ++ "*") : (t.register name shape).2.Pointed := by
  intro id e he hstar
  rw [get?_register] at he
  split at he
  · cases he
    obtain ⟨target, d, hshape, hd, hn⟩ := hname hstar
    exact ⟨target, d, hshape, get?_register_of_some hd .., hn⟩
  · obtain ⟨target, d, hshape, hd, hn⟩ := hp id e he hstar
    exact ⟨target, d, hshape, get?_register_of_some hd .., hn⟩

theorem Pointed.setLayout (hp : t.Pointed) (hid : t.types.get? id = some ⟨name, .ofLayout kind l⟩) :
    (t.setLayout kind id l').Pointed := by
  intro j e he hstar
  rw [get?_setLayout] at he
  split at he
  · next hj =>
    -- an aggregate is no pointer
    subst hj
    rw [hid] at he
    cases he
    obtain ⟨target, d, hshape, -⟩ := hp id _ hid hstar
    cases kind <;> cases hshape
  · obtain ⟨target, d, hshape, hd, hn⟩ := hp j e he hstar
    have hname : ((t.setLayout kind id l').types.get? target).map (·.name) = some d.name := by
      rw [names_setLayout, hd]
      rfl
    obtain ⟨d', hd', hdn⟩ := map_eq_some_iff.1 hname
    exact ⟨target, d', hshape, hd', hdn ▸ hn⟩

theorem Step.pointed (h : t.Step r t') (hp : t.Pointed)
    (hr : ∀ kind name, r = .define kind name → starred name = false) : t'.Pointed := by
  cases h with
  | idle => exact hp
  | @define kind name hfree =>
    refine hp.register fun hstar => ?_
    rw [hr kind name rfl] at hstar
    cases hstar
  | @point target e hnew htarget => exact hp.register fun _ => ⟨target, e, rfl, htarget, rfl⟩
  | place hname hid => exact hp.setLayout hid
  | close hname hid => exact hp.setLayout hid

theorem serve_unstarred (hp : t.Pointed) (hf : t.Found) (h : t.serve rs = .ok t')
    (hrs : ∀ kind name, .define kind name ∈ rs → starred name = false) :
    t.meets TypeRequest.shadows rs = false := by
  induction rs generalizing t with
  | nil => rfl
  | cons r rs ih =>
    obtain ⟨t₁, h1, h⟩ := serve_cons.1 h
    have hstep := TypeRequest.apply_step h1
    have hr := hp.shadows_eq_false hf r
    refine (meets_cons h1).2 ⟨hr, ih (hstep.pointed hp ?_) (hstep.found_iff.2 ⟨hf, hr⟩) h ?_⟩
    · rintro kind name rfl
      exact hrs kind name mem_cons_self
    · exact fun kind name hmem => hrs kind name (mem_cons_of_mem _ hmem)

/-! ## All histories -/

theorem found_initial : initial.Found := by
  intro id e he
  have hall : ∀ i : Fin 14, ∀ e, initial.types.get? i = some e →
      initial.lookup e.name = some i.val := by decide
  exact hall ⟨id, lt_size he⟩ e he

theorem pointed_initial : initial.Pointed := by
  intro id e he hstar
  have hall : ∀ i : Fin 14, ∀ e, initial.types.get? i = some e → starred e.name = false := by decide
  rw [hall ⟨id, lt_size he⟩ e he] at hstar
  cases hstar

/-- A name stands for a type that is registered under it.  Every type is found by its name, and
    whatever a name stood for at some time it stands for at the end, exactly if no request made a
    pointer under a name that stood for a type; no request does so if no structure or union is
    given a name that ends in a star. -/
theorem names_stable_iff (h : initial.serve rs = .ok t) :
    (∀ n id, t.lookup n = some id → ∃ e, t.get id = .ok e ∧ e.name = n) ∧
    ((∀ id e, t.get id = .ok e → t.lookup e.name = some id) ↔
      initial.meets TypeRequest.shadows rs = false) ∧
    ((∀ pre post t₁ n id, rs = pre ++ post → initial.serve pre = .ok t₁ →
      t₁.lookup n = some id → t.lookup n = some id) ↔
      initial.meets TypeRequest.shadows rs = false) ∧
    ((∀ kind name, .define kind name ∈ rs → starred name = false) →
      initial.meets TypeRequest.shadows rs = false) := by
  refine ⟨fun n id hn => ?_, ?_, ?_, serve_unstarred pointed_initial found_initial h⟩
  · obtain ⟨e, he, hname, -⟩ := lookup_eq_some.1 hn
    exact ⟨e, Arena.fetch_eq_ok.2 he, hname⟩
  · have hiff := serve_found_iff h
    simp only [found_initial, true_and] at hiff
    rw [← hiff]
    exact ⟨fun hget id e he => hget id e (Arena.fetch_eq_ok.2 he),
      fun hfound id e he => hfound id e (Arena.fetch_eq_ok.1 he)⟩
  · rw [← serve_binds_iff h]
    exact ⟨fun hkept pre post t₁ hrs hpre n id hn => hkept pre post t₁ n id hrs hpre hn,
      fun hkept pre post t₁ n id hrs hpre hn => hkept pre post t₁ hrs hpre n id hn⟩

/-- A case of it: a structure with a pointer to itself, and a union over it. -/
theorem names_stable_node : ∃ t, initial.serve
      [.define .struct "Node", .pointerTo 14, .field .next "Node" "next" 15, .close .struct "Node",
        .define .union "Cell", .field .start "Cell" "node" 14, .pointerTo 15] = .ok t ∧
    t.lookup "Node**" = some 17 ∧
    (∀ id e, t.get id = .ok e → t.lookup e.name = some id) := by
  have hpasses : passes (initial.serve [.define .struct "Node", .pointerTo 14,
      .field .next "Node" "next" 15, .close .struct "Node", .define .union "Cell",
      .field .start "Cell" "node" 14, .pointerTo 15]) (fun t => decide (t.lookup "Node**" = some 17)) = true := by cbv
  obtain ⟨t, ht, htest⟩ := of_passes_decide hpasses
  obtain ⟨-, hfound, -, hunstarred⟩ := names_stable_iff ht
  refine ⟨t, ht, htest, hfound.2 (hunstarred fun kind name hmem => ?_)⟩
  simp only [List.mem_cons, TypeRequest.define.injEq, reduceCtorEq, false_or, or_false,
    List.not_mem_nil] at hmem
  rcases hmem with ⟨-, rfl⟩ | ⟨-, rfl⟩
  · decide
  · decide

/-- A structure is given the name of a pointer that is made afterwards.  The name then stands for
    the pointer, and the structure is found no more. -/
theorem pointer_takes_name : ∃ t₁ t, initial.serve [.define .struct "Int32*"] = .ok t₁ ∧
    t₁.lookup "Int32*" = some 14 ∧
    initial.serve [.define .struct "Int32*", .pointerTo 3] = .ok t ∧
    t.lookup "Int32*" = some 15 ∧ (t.get 14).map (·.name) = .ok "Int32*" := by
  have hfirst : passes (initial.serve [.define .struct "Int32*"])
      (fun t => decide (t.lookup "Int32*" = some 14)) = true := by cbv
  have hsecond : passes (initial.serve [.define .struct "Int32*", .pointerTo 3])
      (fun t => decide (t.lookup "Int32*" = some 15 ∧
        (t.types.get? 14).map (·.name) = some "Int32*")) = true := by cbv
  obtain ⟨t₁, ht₁, htest₁⟩ := of_passes_decide hfirst
  obtain ⟨t, ht, htest⟩ := of_passes_decide hsecond
  obtain ⟨e, he, hname⟩ := Option.map_eq_some_iff.1 htest.2
  refine ⟨t₁, t, ht₁, htest₁, ht, htest.1, ?_⟩
  rw [TypeTable.get, Arena.fetch_eq_ok.2 he, ← hname]
  rfl

end TypeTable
end MethodGraph
