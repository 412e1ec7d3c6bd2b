import MethodGraph.Arena
import MethodGraph.Checked
import MethodGraph.Ty
/-!
  The table of types: primitives, pointers, structures and unions.

  A type is registered under a name and found by it; registering a name again makes the name stand
  for the newer type.  All primitives are there from the start, and the pointer to a type is made
  once.  A structure or union grows field by field while it is open: a field of a structure goes to
  the next offset that suits its alignment (or where it is told to), a field of a union to the
  beginning.  Closing rounds the size up to the alignment and forbids further fields.

  A field takes the size and alignment that its type has at that moment.
-/

namespace MethodGraph

/-- The name of a registered type. -/
abbrev TypeId := Nat

/-- A named part of a structure or union. -/
structure Field where
  name : String
  ty : TypeId
  offset : Nat
  deriving DecidableEq, Repr, Inhabited

/-- How a structure or union is laid out. -/
structure Layout where
  fields : List Field := []
  size : Nat := 0
  align : Nat := 0
  closed : Bool := false
  deriving DecidableEq, Repr, Inhabited

namespace Layout

/-- The alignment of values with this layout. -/
def alignment (l : Layout) : Nat := max l.align 1

/-- Add a field of a given size and alignment at an offset. -/
def addField (l : Layout) (f : Field) (size align : Nat) : Except Fault Layout := do
  let last ← Checked.size (f.offset + size)
  return { l with
    fields := l.fields ++ [f]
    size := max l.size last
    align := max l.align align }

/-- Round the size up to the alignment and admit no more fields. -/
def close (l : Layout) : Except Fault Layout := do
  let size ← Checked.size (Checked.roundUp l.size l.alignment)
  return { l with size, closed := true }

end Layout

/-- What a type is made of. -/
inductive TypeShape where
  | primitive (ty : Ty)
  | pointer (target : TypeId)
  | struct (layout : Layout)
  | union (layout : Layout)
  deriving DecidableEq, Repr, Inhabited

/-- The two kinds of types that have fields. -/
inductive AggregateKind where
  | struct
  | union
  deriving DecidableEq, Repr, Inhabited

namespace TypeShape

def layout? : TypeShape → Option Layout
  | struct l | union l => some l
  | _ => none

/-- The layout of an aggregate of a given kind. -/
def layoutOf? (kind : AggregateKind) : TypeShape → Option Layout
  | struct l => if kind = .struct then some l else none
  | union l => if kind = .union then some l else none
  | _ => none

def ofLayout : AggregateKind → Layout → TypeShape
  | .struct, l => struct l
  | .union, l => union l

def size : TypeShape → Nat
  | primitive t => t.size
  | pointer _ => Ty.address.size
  | struct l | union l => l.size

/-- Scalars are aligned to their size, vectors to half of it. -/
def align : TypeShape → Nat
  | primitive t => min (max t.size 1) 8
  | pointer _ => 8
  | struct l | union l => l.alignment

/-- The type of a value read from this type; an aggregate is not read as a whole. -/
def valueType : TypeShape → Ty
  | primitive t => t
  | pointer _ => .address
  | struct _ | union _ => .void

def pointer? : TypeShape → Option TypeId
  | pointer t => some t
  | _ => none

end TypeShape

/-- A registered type. -/
structure TypeEntry where
  name : String
  shape : TypeShape
  deriving DecidableEq, Repr, Inhabited

/-- Where a field is and what is read there. -/
structure FieldRef where
  offset : Nat
  ty : TypeId
  valueType : Ty
  deriving DecidableEq, Repr, Inhabited

/-- The registered types. -/
structure TypeTable where
  types : Arena TypeEntry
  deriving Repr, Inhabited

namespace TypeTable

/-- The table with all primitive types, in the order of their codes. -/
def initial : TypeTable := ⟨.ofList (Ty.all.map fun t => ⟨t.name, .primitive t⟩)⟩

def get (t : TypeTable) (id : TypeId) : Except Fault TypeEntry := t.types.fetch id

/-- The type that a name stands for: the one registered last. -/
def lookup (t : TypeTable) (name : String) : Option TypeId :=
  (t.types.entries.reverse.find? (·.2.name == name)).map (·.1)

def register (t : TypeTable) (name : String) (shape : TypeShape) : TypeId × TypeTable :=
  let (id, types) := t.types.alloc ⟨name, shape⟩
  (id, ⟨types⟩)

/-- The primitive type of a value type. -/
def primitive (t : TypeTable) (ty : Ty) : Except Fault TypeId :=
  match t.types.items.findIdx? (·.shape == .primitive ty) with
  | some id => .ok id
  | none => .error .indexOutOfBounds

/-- The pointer to a type, made on first request. -/
def pointerTo (t : TypeTable) (target : TypeId) : Except Fault (TypeId × TypeTable) :=
  match t.types.items.findIdx? (·.shape == .pointer target) with
  | some id => .ok (id, t)
  | none => do
    let entry ← t.get target
    return t.register (entry.name ++ "*") (.pointer target)

/-! ## Aggregates -/

/-- Begin a structure or union under a name that stands for nothing yet. -/
def defineAggregate (t : TypeTable) (kind : AggregateKind) (name : String) :
    Except Fault (TypeId × TypeTable) :=
  if (t.lookup name).isSome then .error (.typeDefined name)
  else .ok (t.register name (.ofLayout kind {}))

/-- The open aggregate that a name stands for; nothing if it stands for something else, and a fault
    if it is closed. -/
def openLayout (t : TypeTable) (kind : AggregateKind) (name : String) :
    Except Fault (Option (TypeId × Layout)) :=
  match t.lookup name with
  | none => .ok none
  | some id =>
    match (t.types.get? id).bind (·.shape.layoutOf? kind) with
    | none => .ok none
    | some l => if l.closed then .error (.typeClosed name) else .ok (some (id, l))

/-- Replace the layout of an aggregate. -/
def setLayout (t : TypeTable) (kind : AggregateKind) (id : TypeId) (l : Layout) : TypeTable :=
  ⟨t.types.modify id fun e => { e with shape := .ofLayout kind l }⟩

/-- Add a field to an open aggregate at an offset that may depend on the layout so far and the
    alignment of the field; the answer is the offset, or nothing if there is no such aggregate. -/
def addField (t : TypeTable) (kind : AggregateKind) (aggregate field : String) (ty : TypeId)
    (place : Layout → Nat → Except Fault Nat) : Except Fault (Option Nat × TypeTable) := do
  let entry ← t.get ty
  match ← t.openLayout kind aggregate with
  | none => return (none, t)
  | some (id, l) =>
    let offset ← place l entry.shape.align
    let l ← l.addField ⟨field, ty, offset⟩ entry.shape.size entry.shape.align
    return (some offset, t.setLayout kind id l)

/-- Append a field to a structure at the next offset that suits its alignment. -/
def defineField (t : TypeTable) (aggregate field : String) (ty : TypeId) :
    Except Fault (Option Nat × TypeTable) :=
  t.addField .struct aggregate field ty fun l align =>
    Checked.size (Checked.roundUp l.size (max align 1))

/-- Add a field to a structure at a given offset. -/
def defineFieldAt (t : TypeTable) (aggregate field : String) (ty : TypeId) (offset : Nat) :
    Except Fault (Option Nat × TypeTable) :=
  t.addField .struct aggregate field ty fun _ _ => .ok offset

/-- Add a field to a union. -/
def unionField (t : TypeTable) (aggregate field : String) (ty : TypeId) :
    Except Fault (Option Nat × TypeTable) :=
  t.addField .union aggregate field ty fun _ _ => .ok 0

/-- Close an aggregate; the answer is its size, or nothing if there is no such aggregate. -/
def close (t : TypeTable) (kind : AggregateKind) (name : String) :
    Except Fault (Option Nat × TypeTable) := do
  match ← t.openLayout kind name with
  | none => return (none, t)
  | some (id, l) =>
    let l ← l.close
    return (some l.size, t.setLayout kind id l)

/-! ## Questions -/

def sizeOf (t : TypeTable) (id : TypeId) : Except Fault Nat := do
  return (← t.get id).shape.size

def valueType (t : TypeTable) (id : TypeId) : Except Fault Ty := do
  return (← t.get id).shape.valueType

/-- What a pointer points to; other types point to nothing. -/
def pointee (t : TypeTable) (id : TypeId) : Except Fault (Option TypeId) := do
  return (← t.get id).shape.pointer?

/-- The layout of the aggregate that a name stands for. -/
def layout? (t : TypeTable) (name : String) : Option Layout := do
  let id ← t.lookup name
  let entry ← t.types.get? id
  entry.shape.layout?

/-- The first field of an aggregate with a given name. -/
def field? (t : TypeTable) (aggregate field : String) : Option FieldRef := do
  let l ← t.layout? aggregate
  let f ← l.fields.find? (·.name == field)
  let entry ← t.types.get? f.ty
  return ⟨f.offset, f.ty, entry.shape.valueType⟩

end TypeTable
end MethodGraph
