import MethodGraph.Proofs.Pages
/-!
  Instructions of a script, and what is on a page after them.

  An `Instr` is one request of a builder that makes no new builder; values that it needs are named
  by the steps that answered with them.  What it adds to the page of its builder (`Instr.pieces`)
  depends on what was declared beforehand and on the types of the values it names, and on nothing
  else.

  Main statement `Instr.performed`: whenever an instruction is carried out without a fault, whatever
  was done for other builders before, these are the pieces that are performed.  An instruction
  fails, if it does, before anything is emitted.
-/

namespace MethodGraph

open Emit Build Option Function

variable {target u : BuilderId} {c : Cmp} {aggregate part : String}

/-! ## Instructions -/

/-- One thing that is asked of a builder, with names for the values that it needs. -/
inductive Instr (α : Type) where
  -- values and locals
  | constInt (ty : Ty) (v : Int64)
  | constFloat (x : Binary64)
  | constDouble (x : Binary64)
  | zero (ty : Ty)
  | load (name : String)
  | store (name : String) (v : α)
  | storeOver (dest v : α)
  | binary (op : Arith) (v w : α)
  | negate (v : α)
  | compare (c : Cmp) (v w : α)
  | convertTo (ty : Ty) (v : α)
  | unsignedConvertTo (ty : Ty) (v : α)
  -- memory and functions
  | loadAt (ty : Ty) (address : α)
  | storeAt (address v : α)
  | indexAt (element : Ty) (base index : α)
  | fieldAddress (aggregate part : String) (object : α)
  | loadIndirect (aggregate part : String) (object : α)
  | storeIndirect (aggregate part : String) (object v : α)
  | localArray (count : Nat) (element : Ty)
  | localStruct (ty : TypeId)
  | atomicAdd (address v : α)
  | function (name : String) (args : List α)
  -- sequences and transfers
  | append (child : BuilderId)
  | gotoBuilder (target : BuilderId)
  | ifCmp (c : Cmp) (target : BuilderId) (v w : α)
  | ifCmpZero (c : Cmp) (target : BuilderId) (v : α)
  | returnVoid
  | returnValue (v : α)

namespace Instr

variable {α β : Type}

/-- The instruction with its values looked up, if all of them are there. -/
def mapM (f : α → Option β) : Instr α → Option (Instr β)
  | constInt ty v => some (.constInt ty v)
  | constFloat x => some (.constFloat x)
  | constDouble x => some (.constDouble x)
  | zero ty => some (.zero ty)
  | load name => some (.load name)
  | store name v => do return .store name (← f v)
  | storeOver dest v => do return .storeOver (← f dest) (← f v)
  | binary op v w => do return .binary op (← f v) (← f w)
  | negate v => do return .negate (← f v)
  | compare c v w => do return .compare c (← f v) (← f w)
  | convertTo ty v => do return .convertTo ty (← f v)
  | unsignedConvertTo ty v => do return .unsignedConvertTo ty (← f v)
  | loadAt ty address => do return .loadAt ty (← f address)
  | storeAt address v => do return .storeAt (← f address) (← f v)
  | indexAt element base index => do return .indexAt element (← f base) (← f index)
  | fieldAddress aggregate part object => do return .fieldAddress aggregate part (← f object)
  | loadIndirect aggregate part object => do return .loadIndirect aggregate part (← f object)
  | storeIndirect aggregate part object v => do
    return .storeIndirect aggregate part (← f object) (← f v)
  | localArray count element => some (.localArray count element)
  | localStruct ty => some (.localStruct ty)
  | atomicAdd address v => do return .atomicAdd (← f address) (← f v)
  | function name args => do return .function name (← args.mapM f)
  | append child => some (.append child)
  | gotoBuilder target => some (.gotoBuilder target)
  | ifCmp c target v w => do return .ifCmp c target (← f v) (← f w)
  | ifCmpZero c target v => do return .ifCmpZero c target (← f v)
  | returnVoid => some .returnVoid
  | returnValue v => do return .returnValue (← f v)

/-- A computation that answers with a value. -/
def answering (x : Build ValueId) : Build (Option ValueId) := do return some (← x)

/-- A computation that answers with no value. -/
def silent (x : Build α) : Build (Option ValueId) := do
  let _ ← x
  return none

/-- Carry out an instruction for a builder; the answer is the value it is about, if there is one. -/
def run (b : BuilderId) : Instr ValueId → Build (Option ValueId)
  | constInt ty v => answering (Emit.constInt b ty v)
  | constFloat x => answering (Emit.constFloat b x)
  | constDouble x => answering (Emit.constDouble b x)
  | zero ty => answering (Emit.zero b ty)
  | load name => answering (Build.load b name)
  | store name v => silent (Build.store b name v)
  | storeOver dest v => silent (liftM (Emit.storeOver b dest v))
  | binary op v w => answering (Emit.binary b op v w)
  | negate v => answering (Emit.negate b v)
  | compare c v w => answering (Emit.compare b c v w)
  | convertTo ty v => answering (Emit.convertTo b ty v)
  | unsignedConvertTo ty v => answering (Emit.unsignedConvertTo b ty v)
  | loadAt ty address => answering (Emit.loadAt b ty address)
  | storeAt address v => silent (liftM (Emit.storeAt b address v))
  | indexAt element base index => answering (Emit.indexAt b element base index)
  | fieldAddress aggregate part object => answering (Build.fieldAddress b aggregate part object)
  | loadIndirect aggregate part object => answering (Build.loadIndirect b aggregate part object)
  | storeIndirect aggregate part object v =>
    silent (Build.storeIndirect b aggregate part object v)
  | localArray count element => answering (Emit.localArray b count element)
  | localStruct ty => answering (Emit.localStruct b ty)
  | atomicAdd address v => answering (Build.atomicAdd b address v)
  | function name args => Build.call b name args
  | append child => silent (liftM (Emit.append b child))
  | gotoBuilder target => silent (liftM (Emit.gotoBuilder b target))
  | ifCmp c target v w => silent (liftM (Emit.ifCmp b c (some target) v w))
  | ifCmpZero c target v => silent (liftM (Emit.ifCmpZero b c (some target) v))
  | returnVoid => silent (liftM (Emit.returnVoid b))
  | returnValue v => silent (liftM (Emit.returnValue b v))

/-- The local that an instruction writes. -/
def stores? : Instr α → Option String
  | store name _ => some name
  | _ => none

end Instr

/-- The value that a step of a builder's script answered with. -/
structure Ref where
  builder : BuilderId
  step : Nat
  deriving DecidableEq

/-- The answer of a step is the first of its values. -/
def Ref.name (r : Ref) : Name := ⟨r.builder, r.step, 0⟩

namespace Method

/-- The field of an aggregate, if both are there. -/
def field? (m : Method) (aggregate part : String) : Option FieldRef :=
  if (m.types.lookup aggregate).isNone then none else m.types.field? aggregate part

/-- The symbol of a name and what is known of it. -/
def symbol? (m : Method) (name : String) : Option (SymbolId × Symbol) := do
  let s ← m.graph.lookup name
  let y ← m.graph.symbols.get? s
  return (s, y)

end Method

/-- The zero of a type, as a piece. -/
def Piece.zero (r : Name) (ty : Ty) : Piece :=
  .push (if ty.isFloating then .constFloat .zero else .constInt 0) [] (some (r, ty))

namespace Instr

/-- What an instruction adds to the page of its builder, where `τ` gives the types of values.  The
    value it answers with is its value number 0, and one that it makes on the way is number 1. -/
def pieces (base : Method) (τ : Name → Ty) (b : BuilderId) (n : Nat) : Instr Ref → List Piece
  | constInt ty v => [.push (.constInt v) [] (some (⟨b, n, 0⟩, ty))]
  | constFloat x => [.push (.constFloat x) [] (some (⟨b, n, 0⟩, .float))]
  | constDouble x => [.push (.constFloat x) [] (some (⟨b, n, 0⟩, .double))]
  | zero ty => [.zero ⟨b, n, 0⟩ ty]
  | load name =>
    match base.symbol? name with
    | some (s, y) => [.push (.load s) [] (some (⟨b, n, 0⟩, y.ty))]
    | none => []
  | store name v =>
    match base.graph.lookup name with
    | some s => [.push (.store s) [v.name] none]
    | none => []
  | storeOver dest v => [.push .storeOver [dest.name, v.name] none]
  | binary op v w =>
    match Emit.resultType op (τ v.name) (τ w.name) with
    | .ok ty => [.push (.arith op) [v.name, w.name] (some (⟨b, n, 0⟩, ty))]
    | .error _ => []
  | negate v => [.push (.arith .neg) [v.name] (some (⟨b, n, 0⟩, τ v.name))]
  | compare c v w => [.push (.compare c) [v.name, w.name] (some (⟨b, n, 0⟩, .int32))]
  | convertTo ty v => [.push (.convert false) [v.name] (some (⟨b, n, 0⟩, ty))]
  | unsignedConvertTo ty v => [.push (.convert true) [v.name] (some (⟨b, n, 0⟩, ty))]
  | loadAt ty address => [.push .loadAt [address.name] (some (⟨b, n, 0⟩, ty))]
  | storeAt address v => [.push .storeAt [address.name, v.name] none]
  | indexAt element base index =>
    [.push (.indexAt element.size) [base.name, index.name] (some (⟨b, n, 0⟩, .address))]
  | fieldAddress aggregate part object =>
    match base.field? aggregate part with
    | some f => [.push (.offsetAt f.offset) [object.name] (some (⟨b, n, 0⟩, .address))]
    | none => []
  | loadIndirect aggregate part object =>
    match base.field? aggregate part with
    | some f =>
      [.push (.offsetAt f.offset) [object.name] (some (⟨b, n, 1⟩, .address)),
        .push .loadAt [⟨b, n, 1⟩] (some (⟨b, n, 0⟩, f.valueType))]
    | none => []
  | storeIndirect aggregate part object v =>
    match base.field? aggregate part with
    | some f =>
      [.push (.offsetAt f.offset) [object.name] (some (⟨b, n, 1⟩, .address)),
        .push .storeAt [⟨b, n, 1⟩, v.name] none]
    | none => []
  | localArray count element =>
    match Checked.size (count * element.size) with
    | .ok size => [.push (.localAlloc size) [] (some (⟨b, n, 0⟩, .address))]
    | .error _ => []
  | localStruct ty =>
    match base.types.sizeOf ty with
    | .ok size => [.push (.localAlloc size) [] (some (⟨b, n, 0⟩, .address))]
    | .error _ => []
  | atomicAdd address v =>
    if base.config.capabilities.atomicAdd then
      [.push .atomicAdd [address.name, v.name] (some (⟨b, n, 0⟩, τ v.name))]
    else []
  | function name args => .ask name ::
    match (base.request name).functions.get? name with
    | some s =>
      [.push (.call name) (args.map Ref.name)
        (if s.returnType = .void then none else some (⟨b, n, 0⟩, s.returnType))]
    | none => []
  | append child => [.nest child]
  | gotoBuilder target => [.jump .goto [] [(base.doors target).1]]
  | ifCmp c target v w => [.jump (.branch c) [v.name, w.name] [(base.doors target).1]]
  | ifCmpZero c target v =>
    [.zero ⟨b, n, 1⟩ (τ v.name), .jump (.branch c) [v.name, ⟨b, n, 1⟩] [(base.doors target).1]]
  | returnVoid => [.jump .ret [] []]
  | returnValue v => [.jump .ret [v.name] []]

end Instr

variable {base m m' : Method} {b : BuilderId} {n : Nat} {L : Ledger}

/-! ## Looking things up -/

/-- What was declared beforehand stays. -/
theorem Method.Fills.declared (h : base.Fills m) : m.types = base.types ∧
    m.config = base.config ∧ m.graph.symbols = base.graph.symbols ∧
    m.localsDefined = base.localsDefined := by
  unfold Method.Fills at h
  rw [h]
  exact ⟨rfl, rfl, rfl, rfl⟩

variable {name : String}

namespace Build

variable {α β : Type} {m1 : Method} {o : Option α} {x : Build α}

/-- The computation gives `o`, or fails if that is nothing, and leaves the method as `m1`. -/
def Finds (m : Method) (x : Build α) (m1 : Method) (o : Option α) : Prop :=
  ∀ r m', x.run.run m = .ok (r, m') → m' = m1 ∧ r.toOption = o

theorem finds_throw (e : BuildError) : Finds m (throw e : Build α) m none := by
  intro r m' h
  obtain ⟨rfl, rfl⟩ := throw_eq_ok.1 h
  exact ⟨rfl, rfl⟩

theorem finds_pure (a : α) : Finds m (pure a : Build α) m (some a) := by
  intro r m' h
  obtain ⟨rfl, rfl⟩ := pure_eq_ok.1 h
  exact ⟨rfl, rfl⟩

theorem finds_get {f : Method → Build α} (h : Finds m (f m) m1 o) :
    Finds m (get >>= f) m1 o := by grind [bind_eq_ok, get_eq_ok, Finds]

theorem finds_refuse (e : BuildError) (k : PUnit → Build α) :
    Finds m (throw e >>= k) m none := by
  intro r m' h
  rcases bind_eq_ok.1 h with ⟨_, _, h1, -⟩ | ⟨e', _, h1, h⟩
  · obtain ⟨h1, -⟩ := throw_eq_ok.1 h1
    cases h1
  · obtain ⟨-, rfl⟩ := throw_eq_ok.1 h1
    cases h
    exact ⟨rfl, rfl⟩

variable {r : Except BuildError β}

/-- What comes after looking something up: nothing, if it was not there. -/
theorem Finds.bind (hx : Finds m x m1 o) {f : α → Build β} (h : (x >>= f).run.run m = .ok (r, m')) :
    (o = none ∧ m' = m1 ∧ ∃ e, r = .error e) ∨
      ∃ a, o = some a ∧ (f a).run.run m1 = .ok (r, m') := by
  rcases bind_eq_ok.1 h with ⟨a, m2, h1, h⟩ | ⟨e, m2, h1, h⟩
  · obtain ⟨rfl, rfl⟩ := hx _ _ h1
    exact .inr ⟨a, rfl, h⟩
  · obtain ⟨rfl, rfl⟩ := hx _ _ h1
    cases h
    exact .inl ⟨rfl, rfl, e, rfl⟩

theorem finds_definedSymbol (name : String) :
    Finds m (definedSymbol name) m (m.graph.lookup name) := by
  grind [finds_get, finds_throw, finds_pure, definedSymbol]

/-- A local that is written is there, or has to be. -/
theorem finds_localSymbol (ty : Ty) (h : m.graph.lookup name = none → m.localsDefined = true) :
    Finds m (localSymbol name ty) m (m.graph.lookup name) := by
  grind [finds_get, finds_refuse, finds_pure, localSymbol]

theorem finds_field (aggregate part : String) :
    Finds m (field aggregate part) m (m.field? aggregate part) := by
  grind [finds_get, finds_throw, finds_pure, field, Method.field?]

theorem finds_resolve (name : String) : Finds m (resolve name) (m.request name)
    ((m.request name).functions.get? name) := by
  intro r m' h
  rcases bind_eq_ok.1 h with ⟨_, _, h1, h⟩ | ⟨e, _, h1, -⟩
  · cases h1
    refine finds_get (m := m.request name) ?_ r m' h
    cases (m.request name).functions.get? name with
    | none => exact finds_throw _
    | some s => exact finds_pure s
  · cases h1

theorem of_lift_bind {x : Emit α} {f : α → Build β}
    (h : (liftM x >>= f : Build β).run.run m = .ok (r, m')) :
    ∃ a m1, x.run m = .ok (a, m1) ∧ (f a).run.run m1 = .ok (r, m') := by
  grind [bind_eq_ok, lift_eq_ok]

end Build

/-! ## Performing an instruction -/

/-- The types are those of the values that were made. -/
def Ledger.Agrees (L : Ledger) (τ : Name → Ty) : Prop :=
  ∀ r v ty, L.made r = some v → L.method.graph.values.get? v = some ty → τ r = ty

/-- The types of the values that were made. -/
def Ledger.typing (L : Ledger) (r : Name) : Ty :=
  ((L.made r).bind L.method.graph.values.get?).getD .void

theorem Ledger.agrees_typing (L : Ledger) : L.Agrees L.typing := by
  intro r v ty hr hty
  unfold typing
  rw [hr, bind_some, hty]
  rfl

/-- A step of a builder has performed some pieces, and its answer is recorded. -/
def Performed (b : BuilderId) (n : Nat) (ps : List Piece) (L : Ledger)
    (r : Except BuildError (Option ValueId)) (m' : Method) : Prop :=
  ∃ made, PerformsAll b ps L ⟨m', made⟩ ∧ made ⟨b, n, 0⟩ = r.toOption.join ∧
    ∀ k : Name, ¬ (k.builder = b ∧ k.step = n) → made k = L.made k

namespace Performed

variable {ps : List Piece} {r : Except BuildError (Option ValueId)} {opcode : Opcode}
  {names : List Name} {vs : List ValueId} {ty : Ty} {v : ValueId}

/-- A step that fails has done nothing. -/
theorem failed (hr : L.made ⟨b, n, 0⟩ = none) (e : BuildError) :
    Performed b n [] L (.error e) L.method := ⟨L.made, .nil L, hr, fun _ _ => rfl⟩

variable (hr : L.made ⟨b, n, 0⟩ = none) (hop : opcode.isTerminator = false)
  (hthrow : opcode.canThrow = false) (hvs : List.Forall₂ (fun r v => L.made r = some v) names vs)

include hr hop hthrow hvs in
/-- The answer is a new value. -/
theorem value (hrun : (Emit.emitValue b opcode vs ty).run L.method = .ok (v, m')) :
    Performed b n [.push opcode names (some (⟨b, n, 0⟩, ty))] L (.ok (some v)) m' :=
  ⟨_, .cons (.value hop hthrow hvs hr hrun) (.nil _), update_self .., fun k hk =>
    update_of_ne (by rintro rfl; exact hk ⟨rfl, rfl⟩) ..⟩

include hr hop hthrow hvs in
/-- There is no answer. -/
theorem effect (hrun : (Emit.emit b { opcode, operands := vs }).run L.method = .ok ((), m')) :
    Performed b n [.push opcode names none] L (.ok none) m' :=
  ⟨_, .cons (.effect hop hthrow hvs hrun) (.nil _), hr, fun _ _ => rfl⟩

theorem jump (hr : L.made ⟨b, n, 0⟩ = none) {targets : List BlockId}
    (hop : opcode.isTerminator = true)
    (hvs : List.Forall₂ (fun r v => L.made r = some v) names vs)
    (ht : ∀ t ∈ targets, Draft.IsTarget ⟨L.method, [], []⟩ t)
    (hrun : (Emit.transfer b opcode vs targets).run L.method = .ok ((), m')) :
    Performed b n [.jump opcode names targets] L (.ok none) m' :=
  ⟨_, .cons (.jump hop hvs ht hrun) (.nil _), hr, fun _ _ => rfl⟩

/-- A value is made on the way. -/
theorem before (hr : L.made ⟨b, n, 1⟩ = none) (hop : opcode.isTerminator = false)
    (hthrow : opcode.canThrow = false)
    (hvs : List.Forall₂ (fun r v => L.made r = some v) names vs)
    (hrun : (Emit.emitValue b opcode vs ty).run L.method = .ok (v, m))
    (hrest : Performed b n ps ⟨m, Function.update L.made ⟨b, n, 1⟩ (some v)⟩ r m') :
    Performed b n (.push opcode names (some (⟨b, n, 1⟩, ty)) :: ps) L r m' := by
  obtain ⟨made, hps, hanswer, hothers⟩ := hrest
  refine ⟨made, .cons (.value hop hthrow hvs hr hrun) hps, hanswer, fun k hk => ?_⟩
  rw [hothers k hk]
  exact update_of_ne (by rintro rfl; exact hk ⟨rfl, rfl⟩) ..

/-- A function is asked for first. -/
theorem ask (name : String) (hrest : Performed b n ps ⟨L.method.request name, L.made⟩ r m') :
    Performed b n (.ask name :: ps) L r m' := by
  obtain ⟨made, hps, hanswer, hothers⟩ := hrest
  exact ⟨made, .cons (.ask L name) hps, hanswer, hothers⟩

end Performed

namespace Instr

variable {α β : Type} {x : Build α} {r : Except BuildError (Option ValueId)}

theorem of_answering {x : Build ValueId} (h : (answering x).run.run m = .ok (r, m')) :
    ∃ r', x.run.run m = .ok (r', m') ∧ r = r'.map some := by
  rcases Build.bind_eq_ok.1 h with ⟨v, m1, hx, h⟩ | ⟨e, m1, hx, h⟩
  · obtain ⟨rfl, rfl⟩ := Build.pure_eq_ok.1 h
    exact ⟨_, hx, rfl⟩
  · cases h
    exact ⟨_, hx, rfl⟩

theorem of_silent (h : (silent x).run.run m = .ok (r, m')) :
    ∃ r', x.run.run m = .ok (r', m') ∧ r = r'.map fun _ => none := by
  rcases Build.bind_eq_ok.1 h with ⟨v, m1, hx, h⟩ | ⟨e, m1, hx, h⟩
  · obtain ⟨rfl, rfl⟩ := Build.pure_eq_ok.1 h
    exact ⟨_, hx, rfl⟩
  · cases h
    exact ⟨_, hx, rfl⟩

theorem of_answering_lift {x : Emit ValueId}
    (h : (answering (liftM x)).run.run m = .ok (r, m')) :
    ∃ v, x.run m = .ok (v, m') ∧ r = .ok (some v) := by
  obtain ⟨_, hx, rfl⟩ := of_answering h
  obtain ⟨v, hv, rfl⟩ := lift_eq_ok.1 hx
  exact ⟨v, hv, rfl⟩

theorem of_silent_lift {x : Emit α} (h : (silent (liftM x)).run.run m = .ok (r, m')) :
    ∃ a, x.run m = .ok (a, m') ∧ r = .ok none := by
  obtain ⟨_, hx, rfl⟩ := of_silent h
  obtain ⟨a, ha, rfl⟩ := lift_eq_ok.1 hx
  exact ⟨a, ha, rfl⟩

variable {f : α → Option β}

theorem mapM_one {g : β → Instr β} {v : α} {j : Instr β} (h : (do return g (← f v)) = some j)
    : ∃ a, f v = some a ∧ g a = j := by
  obtain ⟨a, ha, h⟩ := bind_eq_some_iff.1 h
  exact ⟨a, ha, some.inj h⟩

theorem mapM_two {g : β → β → Instr β} {v w : α} {j : Instr β}
    (h : (do return g (← f v) (← f w)) = some j) :
    ∃ a c, f v = some a ∧ f w = some c ∧ g a c = j := by grind [bind_eq_some_iff]

theorem forall₂_of_mapM {xs : List α} {ys : List β} (h : xs.mapM f = some ys)
    : List.Forall₂ (fun x y => f x = some y) xs ys := by
  induction xs generalizing ys with
  | nil =>
    cases h
    exact .nil
  | cons x xs ih =>
    rw [List.mapM_cons] at h
    obtain ⟨y, hy, h⟩ := bind_eq_some_iff.1 h
    obtain ⟨zs, hzs, h⟩ := bind_eq_some_iff.1 h
    cases h
    exact .cons hy (ih hzs)

section

variable {pages : BuilderId → Page} {τ : Name → Ty} {i : Instr Ref} {j : Instr ValueId}
  {v w : Ref} {x y : ValueId}

-- the equations of `pieces` are made here, once for all proofs of this section
attribute [local simp] pieces

/-- Types that are right for the values that were made are right for what an instruction names. -/
theorem pieces_typing (hL : L.Shows base pages) (hj : i.mapM (fun r => L.made r.name) = some j)
    (hτ : L.Agrees τ) : i.pieces base τ b n = i.pieces base L.typing b n := by
  have hsame : ∀ {v : Ref} {x : ValueId}, L.made v.name = some x → τ v.name = L.typing v.name := by
    grind [Ledger.typing, Ledger.Agrees, hL.typed]
  cases i with
  | binary op v w =>
    obtain ⟨x, y, hx, hy, -⟩ := mapM_two hj
    rw [pieces, pieces, hsame hx, hsame hy]
  | negate v =>
    obtain ⟨x, hx, -⟩ := mapM_one hj
    rw [pieces, pieces, hsame hx]
  | atomicAdd address v =>
    obtain ⟨x, y, -, hy, -⟩ := mapM_two hj
    rw [pieces, pieces, hsame hy]
  | ifCmpZero c target v =>
    obtain ⟨x, hx, -⟩ := mapM_one hj
    rw [pieces, pieces, hsame hx]
  | _ => rfl

/-! ### Transfers -/

/-- A builder that is there can be gone to. -/
theorem isTarget (hL : L.Shows base pages) {c : BuilderId} {d : Builder}
    (hd : L.method.builder? c = some d) : ∀ t ∈ [(base.doors c).1],
      Draft.IsTarget ⟨L.method, [], []⟩ t := by
  intro t ht
  rw [List.mem_singleton.1 ht, hL.doors_eq hd]
  exact .inr (.inl ⟨c, d, hd, rfl⟩)

theorem goto_performed (hL : L.Shows base pages) (hnone : L.made ⟨b, n, 0⟩ = none) {u : Unit}
    (hrun : (Emit.gotoBuilder b target).run L.method = .ok (u, m')) :
    Performed b n ((gotoBuilder target).pieces base τ b n) L (.ok none) m' := by
  obtain ⟨_, _, h1, hrun⟩ := bind_eq_ok.1 hrun
  obtain ⟨⟨d, hd, rfl⟩, rfl⟩ := entryOf_eq_ok.1 h1
  refine .jump hnone rfl .nil (isTarget hL hd) ?_
  rw [hL.doors_eq hd]
  exact hrun

/-- A comparison that control may leave at. -/
theorem branch_performed (hL : L.Shows base pages) (hnone : L.made ⟨b, n, 0⟩ = none)
    {names : List Name} (hvs : List.Forall₂ (fun r v => L.made r = some v) names [x, y])
    (hrun : (Emit.ifCmp b c (some target) x y).run L.method = .ok (u, m')) :
    Performed b n [.jump (.branch c) names [(base.doors target).1]] L (.ok none) m' := by
  obtain ⟨_, _, h1, hrun⟩ := bind_eq_ok.1 hrun
  obtain ⟨rfl, rfl⟩ := pure_eq_ok.1 h1
  obtain ⟨_, _, h2, hrun⟩ := bind_eq_ok.1 hrun
  obtain ⟨⟨d, hd, rfl⟩, rfl⟩ := entryOf_eq_ok.1 h2
  obtain ⟨_, _, h3, hrun⟩ := bind_eq_ok.1 hrun
  obtain ⟨-, rfl⟩ := pure_eq_ok.1 hrun
  refine .jump hnone rfl hvs (isTarget hL hd) ?_
  rw [hL.doors_eq hd]
  exact h3

theorem zero_eq (b : BuilderId) (ty : Ty) : Emit.zero b ty =
    Emit.emitValue b (if ty.isFloating then .constFloat .zero else .constInt 0) [] ty := by
  unfold Emit.zero Emit.constInt
  split <;> rfl

theorem zero_opcode (ty : Ty) :
    (if ty.isFloating then Opcode.constFloat .zero else .constInt 0).isTerminator = false ∧
      (if ty.isFloating then Opcode.constFloat .zero else .constInt 0).canThrow = false := by
  split <;> exact ⟨rfl, rfl⟩

/-- A value made on the way is none of those that were made before. -/
theorem made_kept (hnew : L.made ⟨b, n, 1⟩ = none) (u : ValueId) {k : Name}
    (hk : L.made k = some x) : Function.update L.made ⟨b, n, 1⟩ (some u) k = some x := by grind

/-- Nor is it the answer. -/
theorem answer_kept (hnone : L.made ⟨b, n, 0⟩ = none) (u : ValueId) :
    Function.update L.made ⟨b, n, 1⟩ (some u) ⟨b, n, 0⟩ = none :=
  (update_of_ne (by simp) ..).trans hnone

variable (hL : L.Shows base pages)

include hL

variable (hb : b < base.builders.size) (hfresh : ∀ k, L.made ⟨b, n, k⟩ = none)

include hb hfresh in
theorem ifCmpZero_performed (hx : L.made v.name = some x)
    (hrun : (Emit.ifCmpZero b c (some target) x).run L.method = .ok (u, m')) :
    Performed b n ((ifCmpZero c target v).pieces base L.typing b n) L (.ok none) m' := by
  obtain ⟨ty, _, h1, hrun⟩ := bind_eq_ok.1 hrun
  obtain ⟨hty, rfl⟩ := typeOf_eq_ok.1 h1
  obtain ⟨z, m1, h2, hrun⟩ := bind_eq_ok.1 hrun
  rw [zero_eq] at h2
  obtain ⟨hop, hthrow⟩ := zero_opcode ty
  have hL1 := (Performs.value hop hthrow .nil (hfresh 1) h2).shows hL hb
  rw [pieces, L.agrees_typing _ _ _ hx hty]
  exact .before (hfresh 1) hop hthrow .nil h2 (branch_performed hL1 (answer_kept (hfresh 0) z)
    (.cons (made_kept (hfresh 1) z hx) (.cons (update_self ..) .nil)) hrun)

/-! ### Locals, fields and functions -/

/-- What was declared beforehand is found. -/
theorem lookup_eq (name : String) :
    L.method.graph.lookup name = base.graph.lookup name := by
  obtain ⟨-, -, hsymbols, -⟩ := hL.fills.declared
  unfold Graph.lookup
  rw [hsymbols]

theorem finds_field (aggregate part : String) :
    Build.Finds L.method (Build.field aggregate part) L.method (base.field? aggregate part) := by
  obtain ⟨htypes, -⟩ := hL.fills.declared
  have hfinds := Build.finds_field (m := L.method) aggregate part
  unfold Method.field? at *
  rw [htypes] at hfinds
  exact hfinds

theorem load_performed (hnone : L.made ⟨b, n, 0⟩ = none) {r : Except BuildError ValueId}
    (hrun : (Build.load b name).run.run L.method = .ok (r, m')) :
    Performed b n ((load name).pieces base τ b n) L (r.map some) m' := by
  rw [pieces, Method.symbol?, ← lookup_eq hL]
  rcases (finds_definedSymbol name).bind hrun with ⟨hs, rfl, e, rfl⟩ | ⟨s, hs, hrun⟩
  · rw [hs]
    exact .failed hnone e
  · obtain ⟨u, hu, rfl⟩ := lift_eq_ok.1 hrun
    obtain ⟨y, _, h1, hu⟩ := bind_eq_ok.1 hu
    obtain ⟨_, _, h2, h1⟩ := bind_eq_ok.1 h1
    obtain ⟨rfl, rfl⟩ := get_eq_ok.1 h2
    obtain ⟨hy, rfl⟩ := lift_eq_ok.1 h1
    rw [hL.fills.declared.2.2.1, Arena.fetch_eq_ok] at hy
    rw [hs, bind_eq_bind, bind_some, hy]
    exact .value hnone rfl rfl .nil hu

theorem store_performed (hnone : L.made ⟨b, n, 0⟩ = none) (hx : L.made v.name = some x)
    {r : Except BuildError Unit}
    (hlocal : base.graph.lookup name = none → base.localsDefined = true)
    (hrun : (Build.store b name x).run.run L.method = .ok (r, m')) :
    Performed b n ((store name v).pieces base τ b n) L (r.map fun _ => none) m' := by
  obtain ⟨ty, _, h1, hrun⟩ := of_lift_bind hrun
  obtain ⟨-, rfl⟩ := typeOf_eq_ok.1 h1
  rw [← lookup_eq hL, ← hL.fills.declared.2.2.2] at hlocal
  rw [pieces, ← lookup_eq hL]
  rcases (finds_localSymbol ty hlocal).bind hrun with ⟨hs, rfl, e, rfl⟩ | ⟨s, hs, hrun⟩
  · rw [hs]
    exact .failed hnone e
  · obtain ⟨u, hu, rfl⟩ := lift_eq_ok.1 hrun
    rw [hs]
    exact .effect hnone rfl rfl (.cons hx .nil) hu

theorem fieldAddress_performed (hnone : L.made ⟨b, n, 0⟩ = none) (hx : L.made v.name = some x)
    {r : Except BuildError ValueId}
    (hrun : (Build.fieldAddress b aggregate part x).run.run L.method = .ok (r, m')) :
    Performed b n ((fieldAddress aggregate part v).pieces base τ b n) L (r.map some) m' := by
  rw [pieces]
  rcases (finds_field hL aggregate part).bind hrun with ⟨hf, rfl, e, rfl⟩ | ⟨f, hf, hrun⟩
  · rw [hf]
    exact .failed hnone e
  · obtain ⟨u, hu, rfl⟩ := lift_eq_ok.1 hrun
    rw [hf]
    exact .value hnone rfl rfl (.cons hx .nil) hu

variable (hfresh : ∀ k, L.made ⟨b, n, k⟩ = none) (hx : L.made v.name = some x)

include hfresh hx in
theorem loadIndirect_performed {r : Except BuildError ValueId}
    (hrun : (Build.loadIndirect b aggregate part x).run.run L.method = .ok (r, m')) :
    Performed b n ((loadIndirect aggregate part v).pieces base τ b n) L (r.map some) m' := by
  rw [pieces]
  rcases (finds_field hL aggregate part).bind hrun with ⟨hf, rfl, e, rfl⟩ | ⟨f, hf, hrun⟩
  · rw [hf]
    exact .failed (hfresh 0) e
  · obtain ⟨address, m1, h1, hrun⟩ := of_lift_bind hrun
    obtain ⟨u, hu, rfl⟩ := lift_eq_ok.1 hrun
    rw [hf]
    exact .before (hfresh 1) rfl rfl (.cons hx .nil) h1
      (.value (answer_kept (hfresh 0) _) rfl rfl (.cons (update_self ..) .nil) hu)

include hfresh hx in
theorem storeIndirect_performed (hy : L.made w.name = some y) {r : Except BuildError Unit}
    (hrun : (Build.storeIndirect b aggregate part x y).run.run L.method = .ok (r, m')) :
    Performed b n ((storeIndirect aggregate part v w).pieces base τ b n) L (r.map fun _ => none)
      m' := by
  rw [pieces]
  rcases (finds_field hL aggregate part).bind hrun with ⟨hf, rfl, e, rfl⟩ | ⟨f, hf, hrun⟩
  · rw [hf]
    exact .failed (hfresh 0) e
  · obtain ⟨address, m1, h1, hrun⟩ := of_lift_bind hrun
    obtain ⟨u, hu, rfl⟩ := lift_eq_ok.1 hrun
    rw [hf]
    exact .before (hfresh 1) rfl rfl (.cons hx .nil) h1 (.effect (answer_kept (hfresh 0) _) rfl rfl
      (.cons (update_self ..) (.cons (made_kept (hfresh 1) _ hy) .nil)) hu)

theorem atomicAdd_performed (hnone : L.made ⟨b, n, 0⟩ = none)
    (hx : L.made v.name = some x) (hy : L.made w.name = some y) {r : Except BuildError ValueId}
    (hrun : (Build.atomicAdd b x y).run.run L.method = .ok (r, m')) :
    Performed b n ((atomicAdd v w).pieces base L.typing b n) L (r.map some) m' := by
  obtain ⟨-, hconfig, -⟩ := hL.fills.declared
  rcases bind_eq_ok.1 hrun with ⟨_, _, h1, hrun⟩ | ⟨e, _, h1, -⟩
  · obtain ⟨h1, rfl⟩ := get_eq_ok.1 h1
    cases h1
    rw [hconfig] at hrun
    rw [pieces]
    cases hcan : base.config.capabilities.atomicAdd with
    | false =>
      rw [hcan] at hrun
      obtain ⟨rfl, hr⟩ := finds_refuse _ _ _ _ hrun
      cases r with
      | ok a => cases hr
      | error e => exact .failed hnone e
    | true =>
      rw [hcan] at hrun
      obtain ⟨ty, _, h2, hrun⟩ := of_lift_bind hrun
      obtain ⟨hty, rfl⟩ := typeOf_eq_ok.1 h2
      obtain ⟨u, hu, rfl⟩ := lift_eq_ok.1 hrun
      rw [if_pos rfl, L.agrees_typing _ _ _ hy hty]
      exact .value hnone rfl rfl (.cons hx (.cons hy .nil)) hu
  · obtain ⟨h1, -⟩ := get_eq_ok.1 h1
    cases h1

theorem function_performed (hnone : L.made ⟨b, n, 0⟩ = none) {args : List Ref} {xs : List ValueId}
    (hxs : List.Forall₂ (fun r v => L.made r.name = some v) args xs)
    {r : Except BuildError (Option ValueId)}
    (hrun : (Build.call b name xs).run.run L.method = .ok (r, m')) :
    Performed b n ((function name args).pieces base τ b n) L r m' := by
  have hnamed : List.Forall₂ (fun k v => L.made k = some v) (args.map Ref.name) xs :=
    List.forall₂_map_left_iff.2 hxs
  have hknown : (L.method.request name).functions.get? name =
      (base.request name).functions.get? name :=
    ((hL.inquired.request name).after name (.inr rfl)).1
  rw [pieces, ← hknown]
  refine .ask name ?_
  rcases (Build.finds_resolve name).bind hrun with ⟨hs, rfl, e, rfl⟩ | ⟨s, hs, hrun⟩
  · rw [hs]
    exact .failed (L := ⟨L.method.request name, L.made⟩) hnone e
  · rw [hs]
    dsimp only at hrun ⊢
    split at hrun
    · rcases Build.bind_eq_ok.1 hrun with ⟨_, _, h, -⟩ | ⟨_, _, h, -⟩ <;> cases h
    · split at hrun
      · next hvoid =>
        obtain ⟨_, _, h1, hrun⟩ := Build.of_lift_bind hrun
        obtain ⟨rfl, rfl⟩ := Build.pure_eq_ok.1 hrun
        rw [if_pos hvoid]
        exact .effect hnone rfl rfl hnamed h1
      · next hvoid =>
        obtain ⟨_, _, h1, hrun⟩ := Build.of_lift_bind hrun
        obtain ⟨rfl, rfl⟩ := Build.pure_eq_ok.1 hrun
        rw [if_neg hvoid]
        exact .value hnone rfl rfl hnamed h1

/-! ### All instructions -/

include hb hfresh in
/-- Whenever an instruction is carried out, its pieces are performed. -/
theorem performed (hj : i.mapM (fun r => L.made r.name) = some j)
    (hlocal : ∀ name, i.stores? = some name → base.graph.lookup name = none →
      base.localsDefined = true) (hrun : (j.run b).run.run L.method = .ok (r, m')) :
    Performed b n (i.pieces base L.typing b n) L r m' := by
  have hnone := hfresh 0
  cases i with
  | constInt | constFloat | constDouble =>
    cases hj
    obtain ⟨u, hu, rfl⟩ := of_answering_lift hrun
    exact .value hnone rfl rfl .nil hu
  | zero ty =>
    cases hj
    obtain ⟨u, hu, rfl⟩ := of_answering_lift hrun
    rw [zero_eq] at hu
    exact .value hnone (zero_opcode ty).1 (zero_opcode ty).2 .nil hu
  | load name =>
    cases hj
    obtain ⟨_, hu, rfl⟩ := of_answering hrun
    exact load_performed hL hnone hu
  | store name v =>
    obtain ⟨x, hx, rfl⟩ := mapM_one hj
    obtain ⟨_, hu, rfl⟩ := of_silent hrun
    exact store_performed hL hnone hx (hlocal name rfl) hu
  | storeOver dest v =>
    obtain ⟨x, y, hx, hy, rfl⟩ := mapM_two hj
    obtain ⟨_, hu, rfl⟩ := of_silent_lift hrun
    obtain ⟨_, _, h1, hu⟩ := bind_eq_ok.1 hu
    obtain ⟨-, rfl⟩ := typeOf_eq_ok.1 h1
    obtain ⟨_, _, h2, hu⟩ := bind_eq_ok.1 hu
    obtain ⟨-, rfl⟩ := typeOf_eq_ok.1 h2
    obtain ⟨-, hu⟩ := guard_eq_ok.1 hu
    exact .effect hnone rfl rfl (.cons hx (.cons hy .nil)) hu
  | binary op v w =>
    obtain ⟨x, y, hx, hy, rfl⟩ := mapM_two hj
    obtain ⟨u, hu, rfl⟩ := of_answering_lift hrun
    obtain ⟨vt, _, h1, hu⟩ := bind_eq_ok.1 hu
    obtain ⟨hvt, rfl⟩ := typeOf_eq_ok.1 h1
    obtain ⟨wt, _, h2, hu⟩ := bind_eq_ok.1 hu
    obtain ⟨hwt, rfl⟩ := typeOf_eq_ok.1 h2
    obtain ⟨ty, _, h3, hu⟩ := bind_eq_ok.1 hu
    obtain ⟨hty, rfl⟩ := lift_eq_ok.1 h3
    rw [pieces, L.agrees_typing _ _ _ hx hvt, L.agrees_typing _ _ _ hy hwt, hty]
    exact .value hnone rfl rfl (.cons hx (.cons hy .nil)) hu
  | negate v =>
    obtain ⟨x, hx, rfl⟩ := mapM_one hj
    obtain ⟨u, hu, rfl⟩ := of_answering_lift hrun
    obtain ⟨ty, _, h1, hu⟩ := bind_eq_ok.1 hu
    obtain ⟨hty, rfl⟩ := typeOf_eq_ok.1 h1
    rw [pieces, L.agrees_typing _ _ _ hx hty]
    exact .value hnone rfl rfl (.cons hx .nil) hu
  | convertTo ty v | unsignedConvertTo ty v | loadAt ty v =>
    obtain ⟨x, hx, rfl⟩ := mapM_one hj
    obtain ⟨u, hu, rfl⟩ := of_answering_lift hrun
    exact .value hnone rfl rfl (.cons hx .nil) hu
  | compare c v w | indexAt c v w =>
    obtain ⟨x, y, hx, hy, rfl⟩ := mapM_two hj
    obtain ⟨u, hu, rfl⟩ := of_answering_lift hrun
    exact .value hnone rfl rfl (.cons hx (.cons hy .nil)) hu
  | storeAt address v =>
    obtain ⟨x, y, hx, hy, rfl⟩ := mapM_two hj
    obtain ⟨_, hu, rfl⟩ := of_silent_lift hrun
    exact .effect hnone rfl rfl (.cons hx (.cons hy .nil)) hu
  | fieldAddress aggregate part object =>
    obtain ⟨x, hx, rfl⟩ := mapM_one hj
    obtain ⟨_, hu, rfl⟩ := of_answering hrun
    exact fieldAddress_performed hL hnone hx hu
  | loadIndirect aggregate part object =>
    obtain ⟨x, hx, rfl⟩ := mapM_one hj
    obtain ⟨_, hu, rfl⟩ := of_answering hrun
    exact loadIndirect_performed hL hfresh hx hu
  | storeIndirect aggregate part object v =>
    obtain ⟨x, y, hx, hy, rfl⟩ := mapM_two hj
    obtain ⟨_, hu, rfl⟩ := of_silent hrun
    exact storeIndirect_performed hL hfresh hx hy hu
  | localArray count element =>
    cases hj
    obtain ⟨u, hu, rfl⟩ := of_answering_lift hrun
    obtain ⟨size, _, h1, hu⟩ := bind_eq_ok.1 hu
    obtain ⟨hsize, rfl⟩ := lift_eq_ok.1 h1
    rw [pieces, hsize]
    exact .value hnone rfl rfl .nil hu
  | localStruct ty =>
    cases hj
    obtain ⟨u, hu, rfl⟩ := of_answering_lift hrun
    obtain ⟨_, _, h1, hu⟩ := bind_eq_ok.1 hu
    obtain ⟨rfl, rfl⟩ := get_eq_ok.1 h1
    obtain ⟨size, _, h2, hu⟩ := bind_eq_ok.1 hu
    obtain ⟨hsize, rfl⟩ := lift_eq_ok.1 h2
    rw [hL.fills.declared.1] at hsize
    rw [pieces, hsize]
    exact .value hnone rfl rfl .nil hu
  | atomicAdd address v =>
    obtain ⟨x, y, hx, hy, rfl⟩ := mapM_two hj
    obtain ⟨_, hu, rfl⟩ := of_answering hrun
    exact atomicAdd_performed hL hnone hx hy hu
  | function name args =>
    obtain ⟨xs, hxs, hj⟩ := bind_eq_some_iff.1 hj
    cases hj
    exact function_performed hL hnone (forall₂_of_mapM hxs) hrun
  | append child =>
    cases hj
    obtain ⟨_, hu, rfl⟩ := of_silent_lift hrun
    exact ⟨L.made, .cons (.nest hu) (.nil _), hnone, fun _ _ => rfl⟩
  | gotoBuilder target =>
    cases hj
    obtain ⟨_, hu, rfl⟩ := of_silent_lift hrun
    exact goto_performed hL hnone hu
  | ifCmp c target v w =>
    obtain ⟨x, y, hx, hy, rfl⟩ := mapM_two hj
    obtain ⟨_, hu, rfl⟩ := of_silent_lift hrun
    exact branch_performed hL hnone (.cons hx (.cons hy .nil)) hu
  | ifCmpZero c target v =>
    obtain ⟨x, hx, rfl⟩ := mapM_one hj
    obtain ⟨_, hu, rfl⟩ := of_silent_lift hrun
    exact ifCmpZero_performed hL hb hfresh hx hu
  | returnVoid =>
    cases hj
    obtain ⟨_, hu, rfl⟩ := of_silent_lift hrun
    exact .jump hnone rfl .nil nofun hu
  | returnValue v =>
    obtain ⟨x, hx, rfl⟩ := mapM_one hj
    obtain ⟨_, hu, rfl⟩ := of_silent_lift hrun
    obtain ⟨_, _, h1, hu⟩ := bind_eq_ok.1 hu
    obtain ⟨-, rfl⟩ := typeOf_eq_ok.1 h1
    obtain ⟨_, _, h2, hu⟩ := bind_eq_ok.1 hu
    obtain ⟨rfl, rfl⟩ := get_eq_ok.1 h2
    obtain ⟨-, hu⟩ := guard_eq_ok.1 hu
    exact .jump hnone rfl (.cons hx .nil) nofun hu

end

end Instr
end MethodGraph
