import MethodGraph.Proofs.Drawn
import MethodGraph.Proofs.Structured
/-!
  The code of a structured program.

  Building a statement at the end of a builder adds text to that builder, and makes further
  builders whose texts stay as they are from then on.  `Stmt.Code` says what the text of a
  statement is: which operations stand one behind the other, which builders were appended, and what
  the texts of those are.  It is said of a sketch that comes later than the building, since the
  texts of the builders of a path or a loop may be filled in before or after the construct.

  A value is written by the code of one statement only.  `keep` is a set of values that a piece of
  code leaves alone; the end and the increment of a counting loop are among them in its rounds.

  The main statement is `Stmt.build_draws`: building a well-typed statement succeeds and gives its
  code.
-/

namespace MethodGraph

open List Emit Function Arena

variable {y : BlockId} {early : Bool} {body p : BuilderId} {e : Expr} {ts : List Token} {j : Nat}
  {op : Operation} {x : String} {s : SymbolId} {ty : Ty} {α : Type} {v : ValueId}
  {fill : BuilderId → Build Unit}

/-! ## What building adds -/

/-- Everything in one arena is in the other under the same name. -/
def Arena.Below {α : Type} (a a' : Arena α) : Prop := ∀ i x, a.get? i = some x → a'.get? i = some x

namespace Arena.Below

variable {α : Type} {a a' a'' : Arena α}

theorem refl (a : Arena α) : a.Below a := fun _ _ h => h

theorem trans (h : a.Below a') (h' : a'.Below a'') : a.Below a'' :=
  fun i x hx => h' i x (h i x hx)

theorem alloc (a : Arena α) (x : α) : a.Below (a.alloc x).2 :=
  fun _ _ h => get?_alloc_of_some h

theorem size (h : a.Below a') : a.size ≤ a'.size := by
  refine Nat.le_of_not_lt fun hlt => ?_
  obtain ⟨x, hx⟩ := Option.isSome_iff_exists.1 (get?_isSome.2 hlt)
  have hx' := h _ x hx
  rw [get?_eq_none.2 le_rfl] at hx'
  cases hx'

end Arena.Below

/-- Things added one behind the other. -/
def Arena.allocs {α : Type} (a : Arena α) (xs : List α) : Arena α :=
  xs.foldl (fun a x => (a.alloc x).2) a

theorem Arena.below_allocs (a : Arena α) (xs : List α) : a.Below (a.allocs xs) := by
  induction xs generalizing a with
  | nil => exact .refl a
  | cons x xs ih => exact .trans (.alloc a x) (ih _)

theorem Arena.get?_allocs {a : Arena α} {xs : List α} {x : α}
    (h : xs[j]? = some x) : (a.allocs xs).get? (a.size + j) = some x := by
  induction xs generalizing a j with
  | nil => cases h
  | cons y xs ih =>
    cases j with
    | zero =>
      obtain rfl : y = x := Option.some.inj h
      exact below_allocs _ xs _ _ ((get?_alloc ..).trans (if_pos rfl))
    | succ j =>
      have hget : ((a.alloc y).2.allocs xs).get? ((a.alloc y).2.size + j) = some x := ih h
      rw [size_alloc, Nat.succ_add_eq_add_succ] at hget
      exact hget

/-- Text for one builder. -/
def only (b : BuilderId) (ts : List Token) (c : BuilderId) : List Token := if c = b then ts else []

@[simp] theorem only_self (b : BuilderId) (ts : List Token) : only b ts b = ts := if_pos rfl

theorem only_of_ne {b c : BuilderId} (h : c ≠ b) (ts : List Token) : only b ts c = [] := if_neg h

namespace Sketch

variable {k k1 k2 F : Sketch} {added added' : BuilderId → List Token} {used used' : List BuilderId}
  {keep : ValueId → Prop} {b c : BuilderId}

/-- Between the two sketches text was added to builders, those in `used` became part of a sequence,
    and so did all new ones. -/
structure Adds (k k' : Sketch) (added : BuilderId → List Token) (used : List BuilderId) :
    Prop where
  count : k.count ≤ k'.count
  stream : ∀ c < k.count, k'.stream c = k.stream c ++ added c
  entry : ∀ c < k.count, k'.entry c = k.entry c
  free : ∀ c < k.count, c ∉ used → k'.placed c = k.placed c
  taken : ∀ c < k.count, c ∈ used → k'.placed c = true
  fresh : ∀ c < k'.count, k.count ≤ c → k'.placed c = true
  loose : k'.loose = k.loose
  values : k.values.Below k'.values
  symbols : k'.symbols = k.symbols
  returnType : k'.returnType = k.returnType

/-- A later sketch, in which the builders made between two others are what they were then. -/
structure Follows (F k k' : Sketch) : Prop where
  stream : ∀ c < k'.count, k.count ≤ c → F.stream c = k'.stream c
  entry : ∀ c < k'.count, F.entry c = k'.entry c
  values : k'.values.Below F.values
  symbols : F.symbols = k'.symbols

/-- None of the values made between the two sketches is among those to keep. -/
def Spares (k k' : Sketch) (keep : ValueId → Prop) : Prop :=
  ∀ v, keep v → v < k.values.size ∨ k'.values.size ≤ v

namespace Adds

theorem refl (k : Sketch) : k.Adds k (fun _ => []) [] where
  count := le_rfl
  stream _ _ := (append_nil _).symm
  entry _ _ := rfl
  free _ _ _ := rfl
  taken _ _ h := absurd h not_mem_nil
  fresh _ hlt hle := absurd hlt (Nat.not_lt.2 hle)
  loose := rfl
  values := .refl _
  symbols := rfl
  returnType := rfl

theorem trans (h : k.Adds k1 added used) (h' : k1.Adds k2 added' used') :
    k.Adds k2 (fun c => added c ++ added' c) (used ++ used') where
  count := h.count.trans h'.count
  stream c hc := by
    rw [h'.stream c (hc.trans_le h.count), h.stream c hc, append_assoc]
  entry c hc := (h'.entry c (hc.trans_le h.count)).trans (h.entry c hc)
  free c hc hfree := by grind [h'.free, h.count, h.free]
  taken c hc hin := by grind [h.count, h'.taken, h'.free, h.taken]
  fresh c hlt hle := by grind [h'.taken, h'.free, h.fresh, h'.fresh]
  loose := h'.loose.trans h.loose
  values := h.values.trans h'.values
  symbols := h'.symbols.trans h.symbols
  returnType := h'.returnType.trans h.returnType

theorem congr (h : k.Adds k1 added used) (heq : ∀ c < k.count, added c = added' c)
    (hused : ∀ c, c ∈ used ↔ c ∈ used') : k.Adds k1 added' used' :=
  { h with
    stream := fun c hc => heq c hc ▸ h.stream c hc
    free := fun c hc hfree => h.free c hc fun hin => hfree ((hused c).1 hin)
    taken := fun c hc hin => h.taken c hc ((hused c).2 hin) }

/-- Text added to one builder in two pieces. -/
theorem append {us : List Token} (h : k.Adds k1 (only b ts) used)
    (h' : k1.Adds k2 (only b us) used') : k.Adds k2 (only b (ts ++ us)) (used ++ used') := by
  refine (h.trans h').congr (fun c _ => ?_) fun _ => Iff.rfl
  unfold only
  by_cases hc : c = b
  · simp only [if_pos hc]
  · simp only [if_neg hc, append_nil]

theorem put (k : Sketch) (b : BuilderId) (ts : List Token) : k.Adds (k.put b ts) (only b ts) [] :=
  { refl k with
    stream := fun c _ => by
      rw [put_stream, update_apply, only]
      by_cases hc : c = b
      · rw [if_pos hc, if_pos hc, hc]
      · rw [if_neg hc, if_neg hc, append_nil] }

theorem value (k : Sketch) (ty : Ty) : k.Adds (k.value ty) (fun _ => []) [] :=
  { refl k with values := Arena.Below.alloc k.values ty }

theorem nest (k : Sketch) (b c : BuilderId) : k.Adds (k.nest b c) (only b [.child c]) [c] :=
  { put k b [.child c] with
    free := fun x _ hx => by
      have hne : x ≠ c := fun heq => hx (mem_singleton.2 heq)
      rw [nest_placed, update_of_ne hne]
    taken := fun x _ hx => by
      rw [nest_placed, mem_singleton.1 hx, update_self]
    fresh := fun _ hlt hle => absurd hlt (Nat.not_lt.2 hle) }

theorem emit (k : Sketch) (b : BuilderId) (ty : Ty) (ts : List Token) :
    k.Adds ((k.value ty).put b ts) (only b ts) [] :=
  ((value k ty).trans (put _ b ts)).congr (fun _ _ => nil_append _) fun _ => Iff.rfl

/-- A builder that was made just before and was used counts as new. -/
theorem ofGrow {x : BlockId} (h : (k.grow x y).Adds k1 added (k.count :: used)) :
    k.Adds k1 added used := by
  have hlt : ∀ {c}, c < k.count → c < (k.grow x y).count := fun hc => Nat.lt_succ_of_lt hc
  have hne : ∀ {c}, c < k.count → c ≠ k.count := fun hc => hc.ne
  refine ⟨Nat.le_of_succ_le h.count, fun c hc => ?_, fun c hc => ?_, fun c hc hfree => ?_,
    fun c hc hin => h.taken c (hlt hc) (mem_cons_of_mem _ hin), fun c hlt' hle => ?_, h.loose,
    h.values, h.symbols, h.returnType⟩
  · rw [h.stream c (hlt hc), grow_stream, update_of_ne (hne hc)]
  · rw [h.entry c (hlt hc), grow_entry, update_of_ne (hne hc)]
  · grind [grow_placed, h.free]
  · grind [grow, h.taken, h.fresh]

end Adds

namespace Follows

/-- What follows two pieces of building follows the first, if the second adds nothing to the
    builders of the first. -/
theorem first (h : F.Follows k k2) (h2 : k1.Adds k2 added used)
    (hadded : ∀ c, k.count ≤ c → added c = []) : F.Follows k k1 where
  stream c hlt hle := by
    rw [h.stream c (hlt.trans_le h2.count) hle, h2.stream c hlt, hadded c hle,
      append_nil]
  entry c hlt := (h.entry c (hlt.trans_le h2.count)).trans (h2.entry c hlt)
  values := h2.values.trans h.values
  symbols := h.symbols.trans h2.symbols

theorem second (h : F.Follows k k2) (h1 : k.count ≤ k1.count) : F.Follows k1 k2 where
  stream c hlt hle := h.stream c hlt (h1.trans hle)
  entry := h.entry
  values := h.values
  symbols := h.symbols

/-- A builder made in between holds the text that was added since then. -/
theorem made {k0 : Sketch} {x : BlockId} (hF : F.Follows k0 k1) (c : BuilderId)
    (h : (k.grow x y).Adds k1 added used) (hc : k.count = c) (hle : k0.count ≤ c) :
    F.entry c = x ∧ F.stream c = .label (F.entry c) :: added c := by
  subst hc
  have hlt : k.count < (k.grow x y).count := Nat.lt_succ_self _
  have hentry : F.entry k.count = x := by
    rw [hF.entry _ (hlt.trans_le h.count), h.entry _ hlt]
    exact update_self ..
  refine ⟨hentry, ?_⟩
  rw [hF.stream _ (hlt.trans_le h.count) hle, h.stream _ hlt, hentry, grow_stream,
    update_self]
  rfl

end Follows

namespace Spares

theorem first (h : k.Spares k2 keep) (h2 : k1.values.Below k2.values) : k.Spares k1 keep :=
  fun v hv => (h v hv).imp id (Nat.le_trans h2.size)

theorem second (h : k.Spares k2 keep) (h1 : k.values.Below k1.values) : k1.Spares k2 keep :=
  fun v hv => (h v hv).imp (fun hlt => hlt.trans_le h1.size) id

end Spares

theorem Free.adds (h : k.Free b c) (hadds : k.Adds k1 added []) : k1.Free b c :=
  h.congr hadds.count (hadds.free c h.lt' not_mem_nil)

end Sketch

namespace Structured

/-! ## Code -/

variable {Γ : Decls} {k k' F : Sketch} {keep : ValueId → Prop} {b : BuilderId}

/-- The declared names are symbols of the declared types. -/
def Declared (Γ : Decls) (k : Sketch) : Prop :=
  ∀ x ty, Γ.lookup x = some ty → ∃ s y, k.lookup x = some s ∧ k.symbols.get? s = some y ∧ y.ty = ty

/-- A value of a type that code may write. -/
def Yields (F : Sketch) (keep : ValueId → Prop) (v : ValueId) (ty : Ty) : Prop :=
  F.values.get? v = some ty ∧ ¬ keep v

/-- The text of an expression, and the value that it leaves its scalar in. -/
def Expr.Code (F : Sketch) (Γ : Decls) :
    Expr → (ValueId → Prop) → List Token → ValueId → Prop
  | const ty n, keep, ts, v => Operation.Emits ⟨.constInt n, [], some v, []⟩ ts ∧ Yields F keep v ty
  | var x, keep, ts, v => Yields F keep v ((var x).ty Γ) ∧
      ∃ s, F.lookup x = some s ∧ Operation.Emits ⟨.load s, [], some v, []⟩ ts
  | neg e, keep, ts, v => Yields F keep v (e.ty Γ) ∧ ∃ w t1 t2, ts = t1 ++ t2 ∧
      e.Code F Γ keep t1 w ∧ Operation.Emits ⟨.arith .neg, [w], some v, []⟩ t2
  | binary op l r, keep, ts, v => Yields F keep v (l.ty Γ) ∧ ∃ w1 w2 t1 t2 t3,
      ts = t1 ++ t2 ++ t3 ∧ l.Code F Γ keep t1 w1 ∧ r.Code F Γ (fun u => keep u ∨ u = w1) t2 w2 ∧
        Operation.Emits ⟨.arith op, [w1, w2], some v, []⟩ t3
  | compare c l r, keep, ts, v => Yields F keep v .int32 ∧ ∃ w1 w2 t1 t2 t3,
      ts = t1 ++ t2 ++ t3 ∧ l.Code F Γ keep t1 w1 ∧ r.Code F Γ (fun u => keep u ∨ u = w1) t2 w2 ∧
        Operation.Emits ⟨.compare c, [w1, w2], some v, []⟩ t3
  | convert unsigned ty e, keep, ts, v => Yields F keep v ty ∧ ∃ w t1 t2, ts = t1 ++ t2 ∧
      e.Code F Γ keep t1 w ∧ Operation.Emits ⟨.convert unsigned, [w], some v, []⟩ t2

/-- The whole text of a builder, behind the label of its first block. -/
def Holds (F : Sketch) (c : BuilderId) (code : List Token → Prop) : Prop :=
  ∃ ts, F.stream c = .label (F.entry c) :: ts ∧ code ts

/-- The text that evaluates an expression and goes elsewhere if it compares to zero as given. -/
def TestCode (F : Sketch) (Γ : Decls) (keep : ValueId → Prop) (cmp : Cmp) (e : Expr)
    (target : BlockId) (ts : List Token) : Prop :=
  ∃ v z t1 t2, ts = t1 ++ t2 ∧ e.Code F Γ keep t1 v ∧ Emit.ZeroTest cmp v z target t2 ∧
    Yields F (fun u => keep u ∨ u = v) z (e.ty Γ)

/-- The text that gives a variable a value. -/
def StoreCode (F : Sketch) (x : String) (v : ValueId) (ts : List Token) : Prop :=
  ∃ s, F.lookup x = some s ∧ Operation.Emits ⟨.store s, [v], none, []⟩ ts

/-- The text that skips a counting loop whose variable is not within its end. -/
def EnterCode (F : Sketch) (Γ : Decls) (keep : ValueId → Prop) (up : Bool) (x : String)
    (last : ValueId) (target : BlockId) (ts : List Token) : Prop :=
  ∃ v w z t1 t2 t3, ts = t1 ++ t2 ++ t3 ∧ (Expr.var x).Code F Γ keep t1 v ∧
    Operation.Emits ⟨.compare (Build.loopCmp up), [v, last], some w, []⟩ t2 ∧
    Yields F keep w .int32 ∧ Emit.ZeroTest .eq w z target t3 ∧
    Yields F (fun u => keep u ∨ u = w) z .int32

/-- The text that counts and goes to the next round of a counting loop. -/
def CountCode (F : Sketch) (Γ : Decls) (keep : ValueId → Prop) (up : Bool) (x : String)
    (last increment : ValueId) (round : BlockId) (ts : List Token) : Prop :=
  ∃ v w v' t1 t2 t3 t4 t5, ts = t1 ++ t2 ++ t3 ++ t4 ++ t5 ∧
    (Expr.var x).Code F Γ keep t1 v ∧
    Operation.Emits ⟨.arith (Build.loopOp up), [v, increment], some w, []⟩ t2 ∧
    Yields F keep w ((Expr.var x).ty Γ) ∧ StoreCode F x w t3 ∧
    (Expr.var x).Code F Γ keep t4 v' ∧
    Operation.Emits ⟨.branch (Build.loopCmp up), [v', last], none, [round]⟩ t5

/-- The values that the rounds of a counting loop must leave alone. -/
def keeping (keep : ValueId → Prop) (last increment : ValueId) (v : ValueId) : Prop :=
  keep v ∨ v = last ∨ v = increment

/-- The text of a statement. -/
def Stmt.Code (F : Sketch) (Γ : Decls) : Stmt → (ValueId → Prop) → List Token → Prop
  | skip, _, ts => ts = []
  | assign x e, keep, ts => ∃ v t1 t2, ts = t1 ++ t2 ∧ e.Code F Γ keep t1 v ∧ StoreCode F x v t2
  | seq s t, keep, ts => ∃ t1 t2, ts = t1 ++ t2 ∧ s.Code F Γ keep t1 ∧ t.Code F Γ keep t2
  | ret none, _, ts => Operation.Emits ⟨.ret, [], none, []⟩ ts
  | ret (some e), keep, ts => ∃ v t1 t2, ts = t1 ++ t2 ∧ e.Code F Γ keep t1 v ∧
      Operation.Emits ⟨.ret, [v], none, []⟩ t2
  | ifThen c s, keep, ts => ∃ path merge t, ts = t ++ [.child path, .label merge] ∧
      TestCode F Γ keep .eq c merge t ∧ Holds F path (s.Code F Γ keep)
  | ifElse c s, keep, ts => ∃ path merge t, ts = t ++ [.child path, .label merge] ∧
      TestCode F Γ keep .ne c merge t ∧ Holds F path (s.Code F Γ keep)
  | ifBoth c s t, keep, ts => ∃ p q merge t1 t2,
      ts = t1 ++ [.child q] ++ t2 ++ [.child p, .label merge] ∧
      TestCode F Γ keep .ne c (F.entry p) t1 ∧ Operation.Emits ⟨.goto, [], none, [merge]⟩ t2 ∧
      Holds F p (s.Code F Γ keep) ∧ Holds F q (t.Code F Γ keep)
  | whileDo x s, keep, ts => ∃ body again leave t1,
      ts = [.child again, .child body] ++ t1 ++ [.child leave] ∧
      Operation.Emits ⟨.goto, [], none, [F.entry again]⟩ t1 ∧
      Holds F again (TestCode F Γ keep .eq (.var x) (F.entry leave)) ∧ Holds F leave (· = []) ∧
      Holds F body (s.Code F Γ keep)
  | doWhile x s, keep, ts => ∃ body again leave,
      ts = [.child body, .child again, .child leave] ∧
      Holds F again (TestCode F Γ keep .ne (.var x) (F.entry body)) ∧ Holds F leave (· = []) ∧
      Holds F body (s.Code F Γ keep)
  | forLoop up x initial last increment s, keep, ts => ∃ i z d body again round merge leave,
      ∃ t1 t2 t3 t4 t5,
      ts = t1 ++ t2 ++ t3 ++ t4 ++ t5 ++ [.child round, .label merge, .child leave] ∧
      initial.Code F Γ keep t1 i ∧ last.Code F Γ (fun u => keep u ∨ u = i) t2 z ∧
      increment.Code F Γ (fun u => (keep u ∨ u = i) ∨ u = z) t3 d ∧ StoreCode F x i t4 ∧
      EnterCode F Γ (keeping keep z d) up x z merge t5 ∧
      Holds F round (· = [.child body, .child again]) ∧
      Holds F again (CountCode F Γ (keeping keep z d) up x z d (F.entry round)) ∧
      Holds F leave (· = []) ∧ Holds F body (s.Code F Γ (keeping keep z d))

/-! ## Drawing -/

variable {k1 k2 : Sketch} {A B : Sketch → (ValueId → Prop) → List Token → Prop}
  {used used' : List BuilderId}

/-- Between the two sketches text was added to one builder, and it is code of the given kind for
    whatever follows and whatever is to be kept. -/
def Draws (b : BuilderId) (used : List BuilderId) (k k' : Sketch)
    (code : Sketch → (ValueId → Prop) → List Token → Prop) : Prop :=
  ∃ ts, k.Adds k' (only b ts) used ∧ ∀ F keep, F.Follows k k' → k.Spares k' keep → code F keep ts

/-- A value that was made in between may be written. -/
theorem yields_of_spares (h : k.Spares k' keep)
    (hF : F.Follows k k') (hle : k.values.size ≤ v) (hv : k'.values.get? v = some ty) :
    Yields F keep v ty := by
  refine ⟨hF.values v ty hv, fun hkeep => ?_⟩
  rcases h v hkeep with hlt | hge
  · exact Nat.not_lt.2 hle hlt
  · rw [get?_eq_none.2 hge] at hv
    cases hv

theorem yields_of_allocs {tys : List Ty} (h : k.Spares k' keep)
    (hF : F.Follows k k') (hvalues : k'.values = k.values.allocs tys) (hj : tys[j]? = some ty) :
    Yields F keep (k.values.size + j) ty := by
  refine yields_of_spares h hF (Nat.le_add_right ..) ?_
  rw [hvalues]
  exact get?_allocs hj

/-- A value that there is comes before all new ones. -/
theorem lt_of_eq_value (hv : k.values.get? v = some ty) : ∀ u, u = v → u < k.values.size := by
  rintro _ rfl
  exact get?_isSome.1 (Option.isSome_of_eq_some hv)

namespace Draws

theorem adds (h : Draws b used k k' A) : ∃ added, k.Adds k' added used := by
  obtain ⟨ts, hadds, -⟩ := h
  exact ⟨_, hadds⟩

theorem imp (h : Draws b used k k' A)
    (himp : ∀ F keep ts, F.Follows k k' → A F keep ts → B F keep ts) : Draws b used k k' B := by
  grind [Draws]

theorem append (h : Draws b used k k1 A) (h' : Draws b used' k1 k2 B) (hb : b < k.count) :
    Draws b (used ++ used') k k2
      fun F keep ts => ∃ t1 t2, ts = t1 ++ t2 ∧ A F keep t1 ∧ B F keep t2 := by
  obtain ⟨t1, hadds1, hcode1⟩ := h
  obtain ⟨t2, hadds2, hcode2⟩ := h'
  refine ⟨t1 ++ t2, hadds1.append hadds2, fun F keep hF hkeep => ⟨t1, t2, rfl, ?_, ?_⟩⟩
  · grind [only_of_ne, hF.first, hkeep.first, hadds2.values]
  · exact hcode2 F keep (hF.second hadds1.count) (hkeep.second hadds1.values)

/-- Code leaves alone what there was before it. -/
theorem also {extra : ValueId → Prop} (h : Draws b used k k' A)
    (hextra : ∀ v, extra v → v < k.values.size) :
    Draws b used k k' fun F keep => A F fun u => keep u ∨ extra u := by
  obtain ⟨ts, hadds, hcode⟩ := h
  refine ⟨ts, hadds, fun F keep hF hkeep => hcode F _ hF ?_⟩
  rintro u (hu | hu)
  · exact hkeep u hu
  · exact .inl (hextra u hu)

theorem emit (k : Sketch) (b : BuilderId) (h : op.Emits ts) :
    Draws b [] k (k.put b ts) fun _ _ => op.Emits :=
  ⟨ts, .put k b ts, fun _ _ _ _ => h⟩

theorem emitValue (k : Sketch) (b : BuilderId) (ty : Ty)
    (h : op.Emits ts) : Draws b [] k ((k.value ty).put b ts)
      fun F keep ts => Yields F keep k.values.size ty ∧ op.Emits ts :=
  ⟨ts, .emit k b ty ts, fun _ _ hF hkeep =>
    ⟨yields_of_spares hkeep hF le_rfl (k.get?_value_self ty), h⟩⟩

end Draws

/-! ## Expressions -/

variable {added : BuilderId → List Token}

theorem Declared.adds (h : Declared Γ k) (hadds : k.Adds k' added used) : Declared Γ k' := by
  grind [Sketch.lookup, Declared, hadds.symbols]

theorem lookup_of_follows (hF : F.Follows k k') (hadds : k.Adds k' added used)
    (hs : k.lookup x = some s) : F.lookup x = some s := by
  unfold Sketch.lookup
  rw [hF.symbols, hadds.symbols]
  exact hs

namespace Expr

/-- What building an expression does: its code is added, and its value is a new one of its type. -/
def Drawn (Γ : Decls) (e : Expr) (b : BuilderId) (k : Sketch) (v : ValueId) (k' : Sketch) : Prop :=
  Draws b [] k k' (fun F keep ts => e.Code F Γ keep ts v) ∧ k.values.size ≤ v ∧
    k'.values.get? v = some (e.ty Γ)

theorem ty_var (h : Γ.lookup x = some ty) : (var x).ty Γ = ty := by
  unfold Expr.ty
  rw [h]
  rfl

/-- A well-typed variable is declared. -/
theorem exists_ty (h : (var x).wellTyped Γ = true) :
    ∃ ty, Γ.lookup x = some ty ∧ ty.isInteger = true := by
  unfold wellTyped at h
  cases hx : Γ.lookup x with
  | none =>
    rw [hx] at h
    cases h
  | some ty =>
    rw [hx] at h
    exact ⟨ty, rfl, h⟩

theorem isInteger_ty (he : e.wellTyped Γ = true) : (e.ty Γ).isInteger = true := by
  induction e with
  | const ty n => exact he
  | var x =>
    obtain ⟨ty, hty, hint⟩ := exists_ty he
    rw [ty_var hty]
    exact hint
  | neg e ih => exact ih he
  | binary op l r ihl _ =>
    simp only [wellTyped, Bool.and_eq_true] at he
    exact ihl he.1.1.1
  | compare c l r => rfl
  | convert unsigned ty e =>
    simp only [wellTyped, Bool.and_eq_true] at he
    exact he.2

theorem resultType_eq {op : Arith} {lt rt : Ty} (hl : lt.isInteger = true)
    (hr : rt.isInteger = true) (hop : op.isShift = true ∨ lt = rt) :
    Emit.resultType op lt rt = .ok lt := by
  have hint : lt.element.isFloating = false := by
    obtain ⟨hfloat, helement⟩ := Ty.isFloating_of_isInteger hl
    rw [helement, hfloat]
  unfold resultType
  rcases hop with hshift | rfl
  · simp only [hshift, hr, if_true, pure_bind, hint, Bool.and_false]
    rfl
  · unfold Ty.join?
    simp only [hr, if_true, pure_bind, hint, Bool.and_false, ite_self]
    rfl

/-- The last operation of an expression behind the code of its operands. -/
theorem Drawn.operation (h : Draws b [] k k1 A) (hb : b < k.count) (hop : op.Emits ts)
    (hcode : ∀ F keep ts, (Yields F keep k1.values.size (e.ty Γ) ∧ ∃ t1 t2, ts = t1 ++ t2 ∧
      A F keep t1 ∧ op.Emits t2) → e.Code F Γ keep ts k1.values.size) :
    e.Drawn Γ b k k1.values.size ((k1.value (e.ty Γ)).put b ts) := by
  obtain ⟨_, hadds⟩ := h.adds
  refine ⟨(h.append (.emitValue k1 b (e.ty Γ) hop) hb).imp ?_, hadds.values.size,
    k1.get?_value_self _⟩
  rintro F keep _ - ⟨t1, t2, rfl, hA, hy, ht2⟩
  exact hcode F keep _ ⟨hy, t1, t2, rfl, hA, ht2⟩

theorem build_drawn (e : Expr) (hΓ : Declared Γ k) (hb : b < k.count) (he : e.wellTyped Γ = true) :
    Build.Makes (e.build b) k fun v k' => e.Drawn Γ b k v k' := by
  induction e generalizing k with
  | const ty n =>
    refine (Build.Makes.lift (emitValue_makes hb [] ty rfl rfl)).imp ?_
    rintro v _ ⟨rfl, ts, hts, rfl⟩
    refine ⟨(Draws.emitValue k b ty hts).imp fun F keep ts _ h => ⟨h.2, h.1⟩, le_rfl, ?_⟩
    exact k.get?_value_self ty
  | var x =>
    obtain ⟨ty, hx, -⟩ := exists_ty he
    obtain ⟨s, y, hs, hy, rfl⟩ := hΓ x ty hx
    have hty := ty_var hx
    refine (Build.load_makes hb hs hy).imp ?_
    rintro v _ ⟨rfl, ts, hts, rfl⟩
    rw [← hty]
    refine ⟨(Draws.emitValue k b _ hts).imp fun F keep ts hF h => ⟨h.1, s, ?_, h.2⟩,
      le_rfl, k.get?_value_self _⟩
    exact lookup_of_follows hF (.emit ..) hs
  | neg e ih =>
    refine (ih hΓ hb he).bind ?_
    rintro w k1 ⟨hdraw, -, hw⟩
    obtain ⟨_, hadds⟩ := hdraw.adds
    refine (Build.Makes.lift (negate_makes (hb.trans_le hadds.count) hw)).imp ?_
    rintro v _ ⟨rfl, ts, hts, rfl⟩
    exact .operation hdraw hb hts fun F keep _ ⟨hy, t1, t2, heq, ht1, ht2⟩ =>
      ⟨hy, w, t1, t2, heq, ht1, ht2⟩
  | binary op l r ihl ihr =>
    simp only [wellTyped, Bool.and_eq_true, Bool.or_eq_true, decide_eq_true_eq] at he
    obtain ⟨⟨⟨hl, hr⟩, -⟩, hop⟩ := he
    refine (ihl hΓ hb hl).bind ?_
    rintro w1 k1 ⟨hdraw1, -, hw1⟩
    obtain ⟨_, hadds1⟩ := hdraw1.adds
    refine (ihr (hΓ.adds hadds1) (hb.trans_le hadds1.count) hr).bind ?_
    rintro w2 k2 ⟨hdraw2, -, hw2⟩
    obtain ⟨_, hadds2⟩ := hdraw2.adds
    have hb2 := hb.trans_le (hadds1.count.trans hadds2.count)
    refine (Build.Makes.lift (binary_makes hb2 (hadds2.values _ _ hw1) hw2
      (resultType_eq (isInteger_ty hl) (isInteger_ty hr) hop))).imp ?_
    rintro v _ ⟨rfl, ts, hts, rfl⟩
    have hdraw := hdraw1.append (hdraw2.also (lt_of_eq_value hw1)) hb
    refine .operation hdraw hb hts ?_
    rintro F keep _ ⟨hy, _, t3, rfl, ⟨t1, t2, rfl, ht1, ht2⟩, ht3⟩
    exact ⟨hy, w1, w2, t1, t2, t3, rfl, ht1, ht2, ht3⟩
  | compare c l r ihl ihr =>
    simp only [wellTyped, Bool.and_eq_true] at he
    refine (ihl hΓ hb he.1.1).bind ?_
    rintro w1 k1 ⟨hdraw1, -, hw1⟩
    obtain ⟨_, hadds1⟩ := hdraw1.adds
    refine (ihr (hΓ.adds hadds1) (hb.trans_le hadds1.count) he.1.2).bind ?_
    rintro w2 k2 ⟨hdraw2, -, hw2⟩
    obtain ⟨_, hadds2⟩ := hdraw2.adds
    have hb2 := hb.trans_le (hadds1.count.trans hadds2.count)
    refine (Build.Makes.lift (emitValue_makes hb2 [w1, w2] .int32 rfl rfl)).imp ?_
    rintro v _ ⟨rfl, ts, hts, rfl⟩
    have hdraw := hdraw1.append (hdraw2.also (lt_of_eq_value hw1)) hb
    refine .operation (e := .compare c l r) hdraw hb hts ?_
    rintro F keep _ ⟨hy, _, t3, rfl, ⟨t1, t2, rfl, ht1, ht2⟩, ht3⟩
    exact ⟨hy, w1, w2, t1, t2, t3, rfl, ht1, ht2, ht3⟩
  | convert unsigned ty e ih =>
    simp only [wellTyped, Bool.and_eq_true] at he
    refine (ih hΓ hb he.1).bind ?_
    rintro w k1 ⟨hdraw, -, hw⟩
    obtain ⟨_, hadds⟩ := hdraw.adds
    have hb1 := hb.trans_le hadds.count
    have hconvert : Build.Makes (if unsigned then (unsignedConvertTo b ty w : Build ValueId)
        else convertTo b ty w) k1 fun v k' => v = k1.values.size ∧ ∃ ts,
        Operation.Emits ⟨.convert unsigned, [w], some v, []⟩ ts ∧
          k' = (k1.value ty).put b ts := by
      cases unsigned <;> exact .lift (emitValue_makes hb1 [w] ty rfl rfl)
    refine hconvert.imp ?_
    rintro v _ ⟨rfl, ts, hts, rfl⟩
    exact .operation (e := .convert unsigned ty e) hdraw hb hts
      fun F keep _ ⟨hy, t1, t2, heq, ht1, ht2⟩ => ⟨hy, w, t1, t2, heq, ht1, ht2⟩

end Expr

/-! ## Paths and loops -/

/-- The zero of a test is made behind the value that is tested. -/
theorem yields_of_test {ty' : Ty} (hv : k.values.get? v = some ty)
    (hF : F.Follows k k') (hkeep : k.Spares k' keep)
    (hz : k'.values.get? k.values.size = some ty') :
    Yields F (fun u => keep u ∨ u = v) k.values.size ty' := by
  obtain ⟨hget, hfree⟩ := yields_of_spares hkeep hF le_rfl hz
  exact ⟨hget, not_or.2 ⟨hfree, (lt_of_eq_value hv v rfl).ne'⟩⟩

theorem ifNot_draws (h : k.Free b p) (cmp : Cmp)
    (hv : k.values.get? v = some ty) (hty : ty.isInteger = true) :
    Emit.Makes (Emit.ifNot b cmp (some p) v) k fun _ k' => Draws b [p] k k' fun F keep ts =>
      ∃ merge z t, ts = t ++ [.child p, .label merge] ∧ Emit.ZeroTest cmp v z merge t ∧
        Yields F (fun u => keep u ∨ u = v) z ty := by
  refine (ifNot_makes h cmp hv
    (Ty.isFloating_of_isInteger hty).1).imp ?_
  rintro - _ ⟨merge, t, ht, rfl⟩
  have hadds := ((Sketch.Adds.emit k b ty t).append (.nest _ b p)).append (.put _ b [.label merge])
  refine ⟨_, hadds, fun F keep hF hkeep => ⟨merge, k.values.size, t, ?_, ht, ?_⟩⟩
  · rw [append_assoc]
    rfl
  · exact yields_of_test hv hF hkeep (k.get?_value_self ty)

theorem ifBoth_draws {q : BuilderId} (hp : k.Free b p) (hq : k.Free b q) (hpq : p ≠ q)
    (hv : k.values.get? v = some ty) (hty : ty.isInteger = true) :
    Emit.Makes (Emit.ifBoth b (some p) (some q) v) k fun _ k' => Draws b [q, p] k k'
      fun F keep ts => ∃ merge z t u, ts = t ++ [.child q] ++ u ++ [.child p, .label merge] ∧
        Emit.ZeroTest .ne v z (F.entry p) t ∧ Operation.Emits ⟨.goto, [], none, [merge]⟩ u ∧
        Yields F (fun u => keep u ∨ u = v) z ty := by
  refine (ifBoth_makes hp hq hpq hv (Ty.isFloating_of_isInteger hty).1).imp ?_
  rintro - _ ⟨merge, t, u, ht, hu, rfl⟩
  have hadds := ((((Sketch.Adds.emit k b ty t).append (.nest _ b q)).append (.put _ b u)).append
    (.nest _ b p)).append (.put _ b [.label merge])
  refine ⟨_, hadds, fun F keep hF hkeep => ⟨merge, k.values.size, t, u, ?_, ?_, hu, ?_⟩⟩
  · rw [append_assoc _ [Token.child p]]
    rfl
  · rw [hF.entry p hp.lt']
    exact ht
  · exact yields_of_test hv hF hkeep (k.get?_value_self ty)

/-- The test of a loop, whose two values are made one behind the other. -/
theorem testCode_var {y : Symbol} {cmp : Cmp} {target : BlockId}
    {t1 t2 : List Token} (hx : Γ.lookup x = some y.ty) (hs : F.lookup x = some s)
    (hF : F.Follows k k') (hkeep : k.Spares k' keep) (hvalues : k'.values = k.values.allocs [y.ty, y.ty])
    (ht1 : Operation.Emits ⟨.load s, [], some k.values.size, []⟩ t1)
    (ht2 : Emit.ZeroTest cmp k.values.size (k.values.size + 1) target t2) :
    TestCode F Γ keep cmp (.var x) target (t1 ++ t2) := by
  rw [← Expr.ty_var hx] at hvalues
  have hz := yields_of_allocs (j := 1) hkeep hF hvalues rfl
  refine ⟨k.values.size, k.values.size + 1, t1, t2, rfl, ⟨?_, s, hs, ht1⟩, ht2, hz.1, ?_⟩
  · exact yields_of_allocs (j := 0) hkeep hF hvalues rfl
  · exact not_or.2 ⟨hz.2, Nat.succ_ne_self _⟩

variable (h : k.Free b body) (hΓ : Declared Γ k) (hx : (Expr.var x).wellTyped Γ = true)

include h hΓ hx in
theorem whileDo_draws :
    Build.Makes (Build.whileDo b x (some body)) k fun _ k' => Draws b [body] k k'
      fun F keep ts => ∃ again leave t, ts = [.child again, .child body] ++ t ++ [.child leave] ∧
        Operation.Emits ⟨.goto, [], none, [F.entry again]⟩ t ∧
        Holds F again (TestCode F Γ keep .eq (.var x) (F.entry leave)) ∧
        Holds F leave (· = []) := by
  obtain ⟨ty, hty, hint⟩ := Expr.exists_ty hx
  obtain ⟨s, y, hs, hy, rfl⟩ := hΓ x ty hty
  refine (Build.whileDo_makes h hs hy
    (Ty.isFloating_of_isInteger hint).1).imp ?_
  rintro - _ ⟨x1, y1, x2, y2, t1, t2, t3, ht1, ht2, ht3, rfl⟩
  have hb : b ≠ k.count ∧ b ≠ k.count + 1 :=
    ⟨h.lt.ne, (Nat.lt_succ_of_lt h.lt).ne⟩
  have hadds := (((((Sketch.Adds.nest ((k.grow x1 y1).grow x2 y2) b (k.count + 1)).trans
    (.emit _ (k.count + 1) y.ty t1)).trans (.emit _ (k.count + 1) y.ty t2)).trans
    (.nest _ b body)).trans (.put _ b t3)).trans (.nest _ b k.count)
  have hused : ∀ c, c ∈ [k.count + 1] ++ [] ++ [] ++ [body] ++ [] ++ [k.count] ↔
      c ∈ (k.count + 1) :: k.count :: [body] := by
    intro c
    simp only [append_nil, mem_append, mem_cons]
    tauto
  have hagain := hadds.congr (fun _ _ => rfl) hused
  have hleave := hagain.ofGrow
  refine ⟨[.child (k.count + 1), .child body] ++ t3 ++ [.child k.count],
    hleave.ofGrow.congr (fun c hc => ?_) fun _ => Iff.rfl, fun F keep hF hkeep =>
    ⟨k.count + 1, k.count, t3, rfl, ?_, ?_, ?_⟩⟩
  · simp only [only, if_neg (Nat.lt_succ_of_lt hc).ne, append_nil]
    split <;> rfl
  · rw [(hF.made (k.count + 1) hagain rfl (Nat.le_succ _)).1]
    exact ht3
  · refine ⟨t1 ++ t2, ?_, ?_⟩
    · rw [(hF.made (k.count + 1) hagain rfl (Nat.le_succ _)).2]
      simp [only, hb.2.symm]
    · rw [(hF.made k.count hleave rfl le_rfl).1]
      exact testCode_var hty (lookup_of_follows hF hleave.ofGrow hs) hF hkeep rfl ht1 ht2
  · grind [only, Holds, hF.made]

include h hΓ hx in
theorem doWhile_draws :
    Build.Makes (Build.doWhile b x (some body)) k fun _ k' => Draws b [body] k k'
      fun F keep ts => ∃ again leave, ts = [.child body, .child again, .child leave] ∧
        Holds F again (TestCode F Γ keep .ne (.var x) (F.entry body)) ∧
        Holds F leave (· = []) := by
  obtain ⟨ty, hty, hint⟩ := Expr.exists_ty hx
  obtain ⟨s, y, hs, hy, rfl⟩ := hΓ x ty hty
  refine (Build.doWhile_makes h hs hy
    (Ty.isFloating_of_isInteger hint).1).imp ?_
  rintro - _ ⟨x1, y1, x2, y2, t1, t2, ht1, ht2, rfl⟩
  have hb : b ≠ k.count ∧ b ≠ k.count + 1 :=
    ⟨h.lt.ne, (Nat.lt_succ_of_lt h.lt).ne⟩
  have hbody := Sketch.Adds.nest k b body
  have htest := ((Sketch.Adds.nest ((k.nest b body).grow x1 y1) b k.count).trans
    (.emit _ k.count y.ty t1)).trans (.emit _ k.count y.ty t2)
  have hleave := Sketch.Adds.nest
    ((((((((k.nest b body).grow x1 y1).nest b k.count).value y.ty).put k.count t1).value
      y.ty).put k.count t2).grow x2 y2) b (k.count + 1)
  have hagain := htest.trans hleave.ofGrow
  have hall := hbody.trans hagain.ofGrow
  refine ⟨[.child body, .child k.count, .child (k.count + 1)], hall.congr (fun c hc => ?_)
    fun _ => Iff.rfl, fun F keep hF hkeep => ⟨k.count, k.count + 1, rfl, ?_, ?_⟩⟩
  · simp only [only, if_neg hc.ne, append_nil]
    split <;> rfl
  · refine ⟨t1 ++ t2, ?_, ?_⟩
    · rw [(hF.made k.count hagain rfl le_rfl).2]
      simp [only, hb.1.symm]
    · rw [hF.entry body (h.lt'.trans_le hall.count), hall.entry body h.lt']
      exact testCode_var hty (lookup_of_follows hF hall hs) hF hkeep rfl ht1 ht2
  · refine ⟨[], ?_, rfl⟩
    rw [(hF.made (k.count + 1) hleave rfl (Nat.le_succ _)).2]
    simp [only, hb.2.symm]

theorem forLoop_draws (h : k.Free b body) (hΓ : Declared Γ k) (up : Bool)
    {i z d : ValueId} (hx : Γ.lookup x = some ty)
    (hi : k.values.get? i = some ty) (hz : k.values.get? z = some ty)
    (hd : k.values.get? d = some ty) :
    Build.Makes (Build.forLoop b up x (some body) i z d) k fun _ k' => Draws b [body] k k'
      fun F keep ts => ∃ again round merge leave t1 t2,
        ts = t1 ++ t2 ++ [.child round, .label merge, .child leave] ∧ StoreCode F x i t1 ∧
        EnterCode F Γ (keeping keep z d) up x z merge t2 ∧
        Holds F round (· = [.child body, .child again]) ∧
        Holds F again (CountCode F Γ (keeping keep z d) up x z d (F.entry round)) ∧
        Holds F leave (· = []) := by
  obtain ⟨s, y, hs, hy, rfl⟩ := hΓ x ty hx
  refine (Build.forLoop_makes h up hs hy hi hd).imp ?_
  rintro - k' ⟨x1, y1, x2, y2, x3, y3, merge, t1, t2, t3, t4, u1, u2, u3, u4, u5, k1, k2, ht1, ht2,
    ht3, ht4, hu1, hu2, hu3, hu4, hu5, hk1, hk2, hk'⟩
  have henter : ((k.put b t1).grow x1 y1).Adds k1 _ _ := hk1 ▸
    ((((Sketch.Adds.emit ((k.put b t1).grow x1 y1) b y.ty t2).trans (.emit _ b .int32 t3)).trans
      (.emit _ b .int32 t4)).trans (.nest _ b k.count)).trans (.put _ b [.label merge])
  have hcount : (k1.grow x2 y2).Adds k2 _ _ := hk2 ▸
    ((((((Sketch.Adds.nest (k1.grow x2 y2) k.count body).trans
      (.nest _ k.count (k.count + 1))).trans (.emit _ (k.count + 1) y.ty u1)).trans
      (.emit _ (k.count + 1) y.ty u2)).trans (.put _ (k.count + 1) u3)).trans
      (.emit _ (k.count + 1) y.ty u4)).trans (.put _ (k.count + 1) u5)
  have hleave : (k2.grow x3 y3).Adds k' _ _ := hk' ▸
    Sketch.Adds.nest (k2.grow x3 y3) b (k.count + 2)
  have hk1' : k.count + 1 = k1.count := by rw [hk1]; rfl
  have hk2' : k.count + 2 = k2.count := by rw [hk2]; exact congrArg Nat.succ hk1'
  rw [hk2'] at hleave
  have hused : ∀ c, c ∈ [body] ++ [k.count + 1] ++ [] ++ [] ++ [] ++ [] ++ [] ++ [] ↔
      c ∈ k1.count :: [body] := by
    intro c
    simp only [append_nil, mem_append, mem_cons, ← hk1']
    tauto
  have hagain := (hcount.trans hleave.ofGrow).congr (fun _ _ => rfl) hused
  have hround := henter.trans hagain.ofGrow
  have hall := (Sketch.Adds.put k b t1).trans hround.ofGrow
  have hb : b ≠ k.count ∧ b ≠ k.count + 1 ∧ b ≠ k2.count :=
    ⟨h.lt.ne, (Nat.lt_succ_of_lt h.lt).ne,
      hk2' ▸ (Nat.lt_add_right 2 h.lt).ne⟩
  have hvalues : k'.values = k.values.allocs [y.ty, .int32, .int32, y.ty, y.ty, y.ty] := by
    rw [hk', hk2, hk1]
    rfl
  rw [← Expr.ty_var hx] at hvalues
  -- the end and the increment were there before the loop
  have hspares : ∀ {keep}, k.Spares k' keep → k.Spares k' (keeping keep z d) := by
    grind [Sketch.Spares, keeping, Arena.get?, Arena.size]
  have hyields : ∀ {F keep}, F.Follows k k' → k.Spares k' keep → ∀ j ty,
      [(Expr.var x).ty Γ, .int32, .int32, (Expr.var x).ty Γ, (Expr.var x).ty Γ,
        (Expr.var x).ty Γ][j]? = some ty → Yields F (keeping keep z d) (k.values.size + j) ty :=
    fun hF hkeep j ty hj => yields_of_allocs (hspares hkeep) hF hvalues hj
  refine ⟨t1 ++ (t2 ++ t3 ++ t4) ++ [.child k.count, .label merge, .child k2.count],
    hall.congr (fun c hc => ?_) fun _ => Iff.rfl, fun F keep hF hkeep =>
    ⟨k.count + 1, k.count, merge, k2.count, t1, t2 ++ t3 ++ t4, rfl, ?_, ?_, ?_, ?_, ?_⟩⟩
  · have h1 : c ≠ k.count := hc.ne
    have h2 : c ≠ k.count + 1 := (Nat.lt_succ_of_lt hc).ne
    simp only [only, if_neg h1, if_neg h2, append_nil, nil_append]
    by_cases hcb : c = b
    · simp [hcb]
    · simp [hcb]
  · exact ⟨s, lookup_of_follows hF hall hs, ht1⟩
  · have hyields := hyields hF hkeep
    refine ⟨k.values.size, k.values.size + 1, k.values.size + 2, t2, t3, t4, rfl,
      ⟨hyields 0 _ rfl, s, lookup_of_follows hF hall hs, ht2⟩, ht3, hyields 1 _ rfl, ht4,
      (hyields 2 _ rfl).1, not_or.2 ⟨(hyields 2 _ rfl).2, ?_⟩⟩
    exact Nat.succ_ne_self _
  · refine ⟨_, (hF.made k.count hround rfl le_rfl).2, ?_⟩
    simp [only, hb.1.symm]
  · refine ⟨u1 ++ u2 ++ u3 ++ u4 ++ u5, ?_, ?_⟩
    · grind [only, hF.made]
    · have hyields := hyields hF hkeep
      rw [(hF.made k.count hround rfl le_rfl).1]
      exact ⟨k.values.size + 3, k.values.size + 4, k.values.size + 5, u1, u2, u3, u4, u5, rfl,
        ⟨hyields 3 _ rfl, s, lookup_of_follows hF hall hs, hu1⟩, hu2, hyields 4 _ rfl,
        ⟨s, lookup_of_follows hF hall hs, hu3⟩,
        ⟨hyields 5 _ rfl, s, lookup_of_follows hF hall hs, hu4⟩, hu5⟩
  · grind [only, Holds, hF.made]

/-! ## Statements -/

variable {C : Sketch → (ValueId → Prop) → List Token → Prop}

/-- Builders are filled in before or after their use, and the texts are the same. -/
theorem inOrder_makes {fill use : Build Unit} {ps : List BuilderId}
    {A : Sketch → (ValueId → Prop) → (BuilderId → List Token) → Prop} (hb : b < k.count)
    (hps : ∀ p ∈ ps, p < k.count ∧ p ≠ b)
    (hfill : ∀ k1 added used, k.Adds k1 added used → Build.Makes fill k1 fun _ k2 =>
      ∃ added, (∀ c ∉ ps, added c = []) ∧ k1.Adds k2 added [] ∧
        ∀ F keep, F.Follows k1 k2 → k1.Spares k2 keep → A F keep added)
    (huse : ∀ k1 added, k.Adds k1 added [] → Build.Makes use k1 fun _ k2 => Draws b ps k1 k2 C) :
    Build.Makes (inOrder early fill use) k fun _ k' => ∃ added ts, (∀ c ∉ ps, added c = []) ∧
      k.Adds k' (fun c => only b ts c ++ added c) ps ∧
      ∀ F keep, F.Follows k k' → k.Spares k' keep → A F keep added ∧ C F keep ts := by
  have hold : ∀ {c}, k.count ≤ c → c ∉ ps ∧ c ≠ b := fun hc =>
    ⟨fun hin => Nat.not_lt.2 hc (hps _ hin).1, (hb.trans_le hc).ne'⟩
  cases early with
  | true =>
    refine (hfill k _ _ (.refl k)).bind ?_
    rintro - k1 ⟨added, hnil, hadds1, hA⟩
    refine (huse k1 added hadds1).imp ?_
    rintro - k2 ⟨ts, hadds2, hC⟩
    refine ⟨added, ts, hnil, (hadds1.trans hadds2).congr (fun c _ => ?_) fun _ => Iff.rfl,
      fun F keep hF hkeep => ⟨?_, ?_⟩⟩
    · grind [only_of_ne]
    · exact hA F keep (hF.first hadds2 fun c hc => only_of_ne (hold hc).2 ts)
        (hkeep.first hadds2.values)
    · exact hC F keep (hF.second hadds1.count) (hkeep.second hadds1.values)
  | false =>
    refine (huse k _ (.refl k)).bind ?_
    rintro - k1 ⟨ts, hadds1, hC⟩
    refine (hfill k1 _ _ hadds1).imp ?_
    rintro - k2 ⟨added, hnil, hadds2, hA⟩
    refine ⟨added, ts, hnil, (hadds1.trans hadds2).congr (fun _ _ => rfl) fun c => ?_,
      fun F keep hF hkeep => ⟨?_, ?_⟩⟩
    · rw [append_nil]
    · exact hA F keep (hF.second hadds1.count) (hkeep.second hadds1.values)
    · exact hC F keep (hF.first hadds2 fun c hc => hnil c (hold hc).1)
        (hkeep.first hadds2.values)

/-- A construct with one path or body, which goes into a new builder. -/
theorem body_makes {use : BuilderId → Build Unit} (hb : b < k.count)
    (hfill : ∀ {k1}, Declared Γ k1 → k1.returnType = k.returnType → k.count < k1.count →
      k.values.Below k1.values →
        Build.Makes (fill k.count) k1 fun _ k2 => Draws k.count [] k1 k2 A)
    (huse : ∀ {k1}, Declared Γ k1 → k1.Free b k.count → k.values.Below k1.values →
      Build.Makes (use k.count) k1 fun _ k2 => Draws b [k.count] k1 k2 C) (hΓ : Declared Γ k) :
    Build.Makes (do
      let body ← Emit.orphan
      inOrder early (fill body) (use body)) k fun _ k' => Draws b [] k k' fun F keep ts =>
        C F keep ts ∧ Holds F k.count (A F keep) := by
  refine (Build.Makes.lift orphan_makes).bind ?_
  rintro body _ ⟨rfl, x, y, rfl⟩
  have hΓ' : Declared Γ (k.grow x y) := hΓ
  have hne : ∀ {c}, c ∉ [k.count] → c ≠ k.count := fun h heq => h (mem_singleton.2 heq)
  have hbody : ∀ p ∈ [k.count], p < (k.grow x y).count ∧ p ≠ b :=
    forall_mem_singleton.2 ⟨Nat.lt_succ_self _, hb.ne'⟩
  refine (inOrder_makes (A := fun F keep added => A F keep (added k.count)) (C := C)
    (Nat.lt_succ_of_lt hb) hbody ?_ ?_).imp ?_
  · intro k1 added used hadds
    refine (hfill (hΓ'.adds hadds) hadds.returnType hadds.count hadds.values).imp ?_
    rintro - k2 ⟨ts, hadds', hcode⟩
    refine ⟨only k.count ts, fun c hc => only_of_ne (hne hc) ts, hadds', fun F keep hF hkeep => ?_⟩
    rw [only_self]
    exact hcode F keep hF hkeep
  · intro k1 added hadds
    exact huse (hΓ'.adds hadds) ((Sketch.Free.made k hb x y).adds hadds) hadds.values
  · rintro - k' ⟨added, ts, hnil, hadds, hcode⟩
    refine ⟨ts, hadds.ofGrow.congr (fun c hc => ?_) fun _ => Iff.rfl, fun F keep hF hkeep => ?_⟩
    · rw [hnil c fun hin => hc.ne (mem_singleton.1 hin), append_nil]
    · grind [Holds, Sketch.grow, only, Sketch.Spares, hF.second, hF.made]

/-- A condition and one path, which is skipped if the condition compares to zero as given. -/
theorem path_makes {use : BuilderId → ValueId → Build Unit} (cmp : Cmp) {c : Expr}
    (hΓ : Declared Γ k) (hb : b < k.count) (hc : c.wellTyped Γ = true)
    (hfill : ∀ {k1 p}, Declared Γ k1 → k1.returnType = k.returnType → p < k1.count →
      Build.Makes (fill p) k1 fun _ k2 => Draws p [] k1 k2 A)
    (huse : ∀ {k1 p v R}, Emit.Makes (Emit.ifNot b cmp (some p) v) k1 (fun _ => R) →
      Build.Makes (use p v) k1 fun _ => R) : Build.Makes (do
      let v ← c.build b let path ← Emit.orphan
      inOrder early (fill path) (use path v)) k fun _ k' => Draws b [] k k' fun F keep ts =>
        ∃ path merge t, ts = t ++ [.child path, .label merge] ∧ TestCode F Γ keep cmp c merge t ∧
          Holds F path (A F keep) := by
  refine (c.build_drawn hΓ hb hc).bind ?_
  rintro v k1 ⟨hdraw, -, hv⟩
  obtain ⟨_, hadds⟩ := hdraw.adds
  refine Build.Makes.imp (body_makes (hb.trans_le hadds.count)
    (fun hΓ' hr hlt _ => hfill hΓ' (hr.trans hadds.returnType) hlt) (fun _ hfree hle =>
      huse (ifNot_draws hfree cmp (hle _ _ hv) (Expr.isInteger_ty hc))) (hΓ.adds hadds)) ?_
  intro _ k2 hdraw'
  refine (hdraw.append hdraw' hb).imp ?_
  rintro F keep _ - ⟨t1, _, rfl, ht1, ⟨merge, z, t2, rfl, ht2, hz⟩, hbody⟩
  exact ⟨_, merge, t1 ++ t2, (append_assoc ..).symm, ⟨v, z, t1, t2, rfl, ht1, ht2, hz⟩,
    hbody⟩

/-- Two paths, each in a new builder. -/
theorem paths_makes {early : Bool} {fill' : BuilderId → Build Unit} (hΓ : Declared Γ k)
    (hb : b < k.count) {v : ValueId} {ty : Ty} (hv : k.values.get? v = some ty)
    (hty : ty.isInteger = true)
    (hfill : ∀ {k1 p}, Declared Γ k1 → k1.returnType = k.returnType → p < k1.count →
      Build.Makes (fill p) k1 fun _ k2 => Draws p [] k1 k2 A)
    (hfill' : ∀ {k1 p}, Declared Γ k1 → k1.returnType = k.returnType → p < k1.count →
      Build.Makes (fill' p) k1 fun _ k2 => Draws p [] k1 k2 B) : Build.Makes (do
      let p ← Emit.orphan
      let q ← Emit.orphan
      inOrder early (do fill p; fill' q) do
        let _ ← Emit.ifThenElse b (some (some p)) (some (some q)) v) k
      fun _ k' => Draws b [] k k' fun F keep ts => ∃ p q merge z t u,
        ts = t ++ [.child q] ++ u ++ [.child p, .label merge] ∧
        Emit.ZeroTest .ne v z (F.entry p) t ∧ Operation.Emits ⟨.goto, [], none, [merge]⟩ u ∧
        Yields F (fun u => keep u ∨ u = v) z ty ∧ Holds F p (A F keep) ∧ Holds F q (B F keep) := by
  refine (Build.Makes.lift orphan_makes).bind ?_
  rintro p _ ⟨rfl, x1, y1, rfl⟩
  refine (Build.Makes.lift orphan_makes).bind ?_
  rintro q _ ⟨rfl, x2, y2, rfl⟩
  have hΓ' : Declared Γ ((k.grow x1 y1).grow x2 y2) := hΓ
  have hne : k.count ≠ k.count + 1 := (Nat.lt_succ_self _).ne
  have hb1 : b ≠ k.count := hb.ne
  have hb2 : b ≠ k.count + 1 := (Nat.lt_succ_of_lt hb).ne
  have hpaths : ∀ p ∈ [k.count + 1, k.count], p < k.count + 2 ∧ p ≠ b := by
    intro p hp
    rcases mem_pair.1 hp with rfl | rfl
    · exact ⟨Nat.lt_succ_self _, hb2.symm⟩
    · exact ⟨Nat.lt_succ_of_lt (Nat.lt_succ_self _), hb1.symm⟩
  have hp := (Sketch.Free.made k hb x1 y1).grow x2 y2
  have hq : ((k.grow x1 y1).grow x2 y2).Free b (k.count + 1) :=
    .made (k.grow x1 y1) (Nat.lt_succ_of_lt hb) x2 y2
  refine Build.Makes.imp (inOrder_makes
    (A := fun F keep added => A F keep (added k.count) ∧ B F keep (added (k.count + 1)))
    (Nat.lt_succ_of_lt (Nat.lt_succ_of_lt hb)) hpaths ?_ (fun k1 added hadds =>
      (Build.Makes.lift ((ifBoth_draws (hp.adds hadds) (hq.adds hadds) hne (hadds.values _ _ hv)
        hty).bind fun _ _ h => .pure h)).bind fun _ _ h => .pure h)) ?_
  · intro k1 added used hadds
    have hp : k.count < k1.count := hp.lt'.trans_le hadds.count
    have hq : k.count + 1 < k1.count := hq.lt'.trans_le hadds.count
    refine (hfill (hΓ'.adds hadds) hadds.returnType hp).bind ?_
    rintro - k2 ⟨ts, hadds1, hA⟩
    have hadds' := hadds.trans hadds1
    refine (hfill' (hΓ'.adds hadds') hadds'.returnType (hq.trans_le hadds1.count)).imp ?_
    rintro - k3 ⟨us, hadds2, hB⟩
    refine ⟨_, fun c hc => ?_, hadds1.trans hadds2, fun F keep hF hkeep => ⟨?_, ?_⟩⟩
    · grind [only_of_ne]
    · grind [only_self, only_of_ne, hF.first, hkeep.first, hadds2.values]
    · rw [only_self, only_of_ne hne.symm, nil_append]
      exact hB F keep (hF.second hadds1.count) (hkeep.second hadds1.values)
  · rintro - k' ⟨added, ts, hnil, hadds, hcode⟩
    have hadds1 := hadds.ofGrow
    refine ⟨ts, hadds1.ofGrow.congr (fun c hc => ?_) fun _ => Iff.rfl, fun F keep hF hkeep => ?_⟩
    · rw [hnil c fun hin => ?_, append_nil]
      rcases mem_pair.1 hin with rfl | rfl
      · exact Nat.not_lt.2 (Nat.le_succ _) hc
      · exact Nat.lt_irrefl _ hc
    · obtain ⟨⟨hA, hB⟩, merge, z, t, u, hts, ht, hu, hz⟩ :=
        hcode F keep (hF.second (Nat.le_succ_of_le (Nat.le_succ _))) hkeep
      refine ⟨k.count, k.count + 1, merge, z, t, u, hts, ht, hu, hz, ⟨_, ?_, hA⟩, _, ?_, hB⟩
      · rw [(hF.made k.count hadds1 rfl le_rfl).2, only_of_ne hb1.symm, nil_append]
      · grind [Sketch.grow, only, hF.made]

/-- Building a well-typed statement succeeds and gives its code. -/
theorem Stmt.build_draws (early : Stmt → Bool) {result : Ty} (s : Stmt) (hΓ : Declared Γ k)
    (hresult : k.returnType = result) (hb : b < k.count) (hs : s.wellTyped Γ result = true) :
    Build.Makes (s.build early b) k fun _ k' => Draws b [] k k' fun F => s.Code F Γ := by
  induction s generalizing k b with
  | skip =>
    refine .pure ⟨[], (Sketch.Adds.refl k).congr (fun c _ => ?_) fun _ => Iff.rfl,
      fun _ _ _ _ => rfl⟩
    exact (ite_self _).symm
  | assign x e =>
    simp only [wellTyped, Bool.and_eq_true, decide_eq_true_eq] at hs
    refine (e.build_drawn hΓ hb hs.1).bind ?_
    rintro v k1 ⟨hdraw, -, hv⟩
    obtain ⟨_, hadds⟩ := hdraw.adds
    obtain ⟨y, -, hy, -, -⟩ := (hΓ.adds hadds) x _ hs.2
    refine (Build.store_makes (hb.trans_le hadds.count) hy hv).imp ?_
    rintro - _ ⟨ts, hts, rfl⟩
    refine (hdraw.append (.emit k1 b hts) hb).imp ?_
    rintro F keep _ hF ⟨t1, t2, rfl, ht1, ht2⟩
    have hF1 : F.Follows k1 _ := hF.second hadds.count
    exact ⟨v, t1, t2, rfl, ht1, y, lookup_of_follows hF1 (.put ..) hy, ht2⟩
  | seq s t ihs iht =>
    simp only [wellTyped, Bool.and_eq_true] at hs
    refine (ihs hΓ hresult hb hs.1).bind ?_
    intro _ k1 hdraw
    obtain ⟨_, hadds⟩ := hdraw.adds
    refine (iht (hΓ.adds hadds) (hadds.returnType.trans hresult)
      (hb.trans_le hadds.count) hs.2).imp ?_
    intro _ k2 hdraw'
    exact hdraw.append hdraw' hb
  | ret e =>
    cases e with
    | none =>
      refine (Build.Makes.lift (returnVoid_makes hb)).imp ?_
      rintro - _ ⟨ts, hts, rfl⟩
      exact .emit k b hts
    | some e =>
      simp only [wellTyped, Bool.and_eq_true, decide_eq_true_eq] at hs
      refine (e.build_drawn hΓ hb hs.1).bind ?_
      rintro v k1 ⟨hdraw, -, hv⟩
      obtain ⟨_, hadds⟩ := hdraw.adds
      rw [hs.2, ← hresult, ← hadds.returnType] at hv
      refine (Build.Makes.lift
        (returnValue_makes (hb.trans_le hadds.count) hv)).imp ?_
      rintro - _ ⟨ts, hts, rfl⟩
      refine (hdraw.append (.emit k1 b hts) hb).imp ?_
      rintro F keep _ - ⟨t1, t2, rfl, ht1, ht2⟩
      exact ⟨v, t1, t2, rfl, ht1, ht2⟩
  | ifThen c s ih =>
    simp only [wellTyped, Bool.and_eq_true] at hs
    exact path_makes .eq hΓ hb hs.1
      (fun hΓ' hr hlt => ih hΓ' (hr.trans hresult) hlt hs.2)
      fun h => (Build.Makes.lift h).bind fun _ _ h => .pure h
  | ifElse c s ih =>
    simp only [wellTyped, Bool.and_eq_true] at hs
    exact path_makes .ne hΓ hb hs.1
      (fun hΓ' hr hlt => ih hΓ' (hr.trans hresult) hlt hs.2)
      fun h => (Build.Makes.lift (h.bind fun _ _ h => .pure h)).bind fun _ _ h => .pure h
  | ifBoth c s t ihs iht =>
    simp only [wellTyped, Bool.and_eq_true] at hs
    refine (c.build_drawn hΓ hb hs.1.1).bind ?_
    rintro v k1 ⟨hdraw, -, hv⟩
    obtain ⟨_, hadds⟩ := hdraw.adds
    refine Build.Makes.imp (paths_makes (hΓ.adds hadds) (hb.trans_le hadds.count) hv
      (Expr.isInteger_ty hs.1.1)
      (fun hΓ' hr hlt => ihs hΓ' (hr.trans (hadds.returnType.trans hresult)) hlt hs.1.2)
      fun hΓ' hr hlt => iht hΓ' (hr.trans (hadds.returnType.trans hresult)) hlt hs.2) ?_
    intro _ k2 hdraw'
    refine (hdraw.append hdraw' hb).imp ?_
    rintro F keep _ - ⟨t1, _, rfl, ht1, p, q, merge, z, t2, u, rfl, ht2, hu, hz, hp, hq⟩
    refine ⟨p, q, merge, t1 ++ t2, u, ?_, ⟨v, z, t1, t2, rfl, ht1, ht2, hz⟩, hu, hp, hq⟩
    simp only [append_assoc]
  | whileDo x s ih =>
    simp only [wellTyped, Bool.and_eq_true] at hs
    refine (body_makes hb (fun hΓ' hr hlt _ => ih hΓ' (hr.trans hresult) hlt hs.2)
      (fun hΓ' hfree _ => (whileDo_draws hfree hΓ' hs.1).bind fun _ _ h => .pure h) hΓ).imp ?_
    intro _ k1 hdraw
    refine hdraw.imp ?_
    rintro F keep _ - ⟨⟨again, leave, t, rfl, ht, htest, hleave⟩, hbody⟩
    exact ⟨_, again, leave, t, rfl, ht, htest, hleave, hbody⟩
  | doWhile x s ih =>
    simp only [wellTyped, Bool.and_eq_true] at hs
    refine (body_makes hb (fun hΓ' hr hlt _ => ih hΓ' (hr.trans hresult) hlt hs.2)
      (fun hΓ' hfree _ => (doWhile_draws hfree hΓ' hs.1).bind fun _ _ h => .pure h) hΓ).imp ?_
    intro _ k1 hdraw
    refine hdraw.imp ?_
    rintro F keep _ - ⟨⟨again, leave, rfl, htest, hleave⟩, hbody⟩
    exact ⟨_, again, leave, rfl, htest, hleave, hbody⟩
  | forLoop up x initial last increment s ih =>
    simp only [wellTyped, all_cons, all_nil, Bool.and_eq_true, decide_eq_true_eq,
      Bool.and_true] at hs
    obtain ⟨⟨⟨hi, hxi⟩, ⟨hz, hxz⟩, hd, hxd⟩, hs⟩ := hs
    refine (initial.build_drawn hΓ hb hi).bind ?_
    rintro i k1 ⟨hdraw1, -, hi1⟩
    obtain ⟨_, hadds1⟩ := hdraw1.adds
    refine (last.build_drawn (hΓ.adds hadds1) (hb.trans_le hadds1.count) hz).bind ?_
    rintro z k2 ⟨hdraw2, -, hz2⟩
    obtain ⟨_, hadds2⟩ := hdraw2.adds
    have hadds := hadds1.trans hadds2
    refine (increment.build_drawn (hΓ.adds hadds) (hb.trans_le hadds.count) hd).bind ?_
    rintro d k3 ⟨hdraw3, -, hd'⟩
    obtain ⟨_, hadds3⟩ := hdraw3.adds
    have hadds := hadds.trans hadds3
    have hi' := hadds3.values _ _ (hadds2.values _ _ hi1)
    have hz' := hadds3.values _ _ hz2
    have hb3 := hb.trans_le hadds.count
    rw [Option.some.inj (hxz.symm.trans hxi)] at hz'
    rw [Option.some.inj (hxd.symm.trans hxi)] at hd'
    -- the body leaves the end and the increment alone
    have hfill : ∀ {k' p}, Declared Γ k' → k'.returnType = k3.returnType → p < k'.count →
        k3.values.Below k'.values → Build.Makes (s.build early p) k' fun _ k'' =>
          Draws p [] k' k'' fun F keep => s.Code F Γ (keeping keep z d) := by
      intro k' p hΓ' hr hlt hle
      refine (ih hΓ' (hr.trans (hadds.returnType.trans hresult)) hlt hs).imp fun _ _ h => ?_
      refine h.also fun v hv => ?_
      rcases hv with hv | hv
      · exact lt_of_eq_value (hle _ _ hz') v hv
      · exact lt_of_eq_value (hle _ _ hd') v hv
    refine (body_makes hb3 hfill (fun hΓ' hfree hle => (forLoop_draws hfree hΓ' up hxi
      (hle _ _ hi') (hle _ _ hz') (hle _ _ hd')).bind fun _ _ h => .pure h) (hΓ.adds hadds)).imp ?_
    intro _ k4 hdraw4
    have hdraw := ((hdraw1.append (hdraw2.also (lt_of_eq_value hi1)) hb).append
      ((hdraw3.also (lt_of_eq_value hz2)).also (lt_of_eq_value (hadds2.values _ _ hi1))) hb).append
      hdraw4 hb
    refine hdraw.imp ?_
    rintro F keep _ - ⟨_, _, rfl, ⟨_, t3, rfl, ⟨t1, t2, rfl, ht1, ht2⟩, ht3⟩,
      ⟨again, round, merge, leave, t4, t5, rfl, ht4, ht5, hround, hagain, hleave⟩, hbody⟩
    refine ⟨i, z, d, _, again, round, merge, leave, t1, t2, t3, t4, t5, ?_, ht1, ht2, ht3, ht4,
      ht5, hround, hagain, hleave, hbody⟩
    simp only [append_assoc]

end Structured

end MethodGraph
