import MethodGraph.Method.Branch
/-!
  Taking runs apart.

  A run of `Emit` that ends well consists of runs of its steps that end well, and one that meets a
  fault has met it in one of its steps.  The lemmas here say so for each way in which steps are put
  together, and say for each primitive what it does to the method.  A method is changed through its
  builders and its blocks only (`withBuilder`, `withBlock`), and read through `builder?` and
  `block?`.
-/

namespace MethodGraph

open Arena Emit Graph Except

variable {α β : Type} {m m' n : Method} {b c : BuilderId} {x y : BlockId} {d : Builder}
  {blk : Block} {f f' : Block → Block} {e flt : Fault} {g g' : Graph} {u : Unit}

namespace Method

/-! ## Views and changes -/

def builder? (m : Method) (b : BuilderId) : Option Builder := m.builders.get? b

def block? (m : Method) (x : BlockId) : Option Block := m.graph.block? x

/-- Change a builder. -/
def withBuilder (m : Method) (b : BuilderId) (f : Builder → Builder) : Method :=
  { m with builders := m.builders.modify b f }

/-- Change a block. -/
def withBlock (m : Method) (x : BlockId) (f : Block → Block) : Method :=
  { m with graph := m.graph.modifyBlock x f }

/-- Add a normal edge. -/
def withEdge (m : Method) (source target : BlockId) : Method :=
  (m.withBlock source (·.addSucc target)).withBlock target (·.addPred source)

/-- Add normal edges from one block. -/
def withEdges (m : Method) (source : BlockId) : List BlockId → Method
  | [] => m
  | t :: ts => (m.withEdge source t).withEdges source ts

/-- Add an exceptional edge. -/
def withHandler (m : Method) (source handler : BlockId) : Method :=
  (m.withBlock source (·.addHandler handler)).withBlock handler (·.addPred source)

theorem builder?_isSome : (m.builder? b).isSome ↔ b < m.builders.size := Arena.get?_isSome

theorem block?_isSome : (m.block? x).isSome ↔ x < m.graph.blocks.size := Arena.get?_isSome

theorem lt_of_builder? (h : m.builder? b = some d) : b < m.builders.size :=
  builder?_isSome.1 (by rw [h]; rfl)

theorem lt_of_block? (h : m.block? x = some blk) : x < m.graph.blocks.size :=
  block?_isSome.1 (by rw [h]; rfl)

theorem exists_builder? (h : b < m.builders.size) : ∃ d, m.builder? b = some d :=
  Option.isSome_iff_exists.1 (builder?_isSome.2 h)

theorem exists_block? (h : x < m.graph.blocks.size) : ∃ blk, m.block? x = some blk :=
  Option.isSome_iff_exists.1 (block?_isSome.2 h)

section

variable (m b c x y)

theorem builder?_withBuilder (f : Builder → Builder) :
    (m.withBuilder b f).builder? c = if b = c then (m.builder? c).map f else m.builder? c :=
  get?_modify ..

theorem block?_withBlock (f : Block → Block) :
    (m.withBlock x f).block? y = if x = y then (m.block? y).map f else m.block? y :=
  get?_modify ..

@[simp] theorem builder?_withBlock (f : Block → Block) :
    (m.withBlock x f).builder? b = m.builder? b := rfl

@[simp] theorem graph_withBuilder (f : Builder → Builder) : (m.withBuilder b f).graph = m.graph :=
  rfl

@[simp] theorem size_withBuilder (f : Builder → Builder) :
    (m.withBuilder b f).builders.size = m.builders.size := Arena.size_modify ..

@[simp] theorem size_withBlock (f : Block → Block) :
    (m.withBlock x f).graph.blocks.size = m.graph.blocks.size := Arena.size_modify ..

@[simp] theorem size_withEdge :
    (m.withEdge x y).graph.blocks.size = m.graph.blocks.size := by simp [withEdge]

@[simp] theorem size_withHandler :
    (m.withHandler x y).graph.blocks.size = m.graph.blocks.size := by simp [withHandler]

@[simp] theorem values_withEdge : (m.withEdge x y).graph.values = m.graph.values := rfl

end

/-- A builder after one was changed. -/
theorem of_builder?_withBuilder {f : Builder → Builder}
    (h : (m.withBuilder b f).builder? c = some d) :
    (b = c ∧ ∃ old, m.builder? b = some old ∧ d = f old) ∨ (b ≠ c ∧ m.builder? c = some d) := by
  grind [builder?_withBuilder, Option.map_eq_some_iff]

/-- A block after one was changed. -/
theorem of_block?_withBlock (h : (m.withBlock x f).block? y = some blk) :
    (x = y ∧ ∃ old, m.block? x = some old ∧ blk = f old) ∨ (x ≠ y ∧ m.block? y = some blk) := by
  grind [block?_withBlock, Option.map_eq_some_iff]

end Method

/-! ## Steps put together -/

/-- There is no fault, and the result passes a test. -/
def passes {α : Type} (x : Except Fault α) (test : α → Bool) : Bool :=
  match x with
  | .ok a => test a
  | .error _ => false

theorem of_passes {x : Except Fault α} {test : α → Bool} (h : passes x test = true) :
    ∃ a, x = .ok a ∧ test a = true := by
  cases x with
  | error e => cases h
  | ok a => exact ⟨a, rfl, h⟩

theorem of_passes_decide {x : Except Fault α} {p : α → Prop} [DecidablePred p]
    (h : passes x (fun a => decide (p a)) = true) : ∃ a, x = .ok a ∧ p a := by
  obtain ⟨a, hx, ha⟩ := of_passes h
  exact ⟨a, hx, of_decide_eq_true ha⟩

theorem ok_of_bind {ε : Type} {x : Except ε α} {f : α → Except ε β} {r : β}
    (h : (x >>= f) = .ok r) : ∃ a, x = .ok a ∧ f a = .ok r := by
  cases x with
  | error e => cases h
  | ok a => exact ⟨a, rfl, h⟩

namespace Emit

theorem bind_eq_ok {x : Emit α} {f : α → Emit β} {r : β × Method} :
    (x >>= f).run m = .ok r ↔ ∃ a m1, x.run m = .ok (a, m1) ∧ (f a).run m1 = .ok r := by
  rw [StateT.run_bind]
  cases h : x.run m with
  | error e => simp [bind, Except.bind]
  | ok p =>
    constructor
    · intro hf
      exact ⟨p.1, p.2, rfl, hf⟩
    · rintro ⟨a, m1, hp, hf⟩
      cases hp
      exact hf

theorem pure_eq_ok {a a' : α} : (pure a : Emit α).run m = .ok (a', m') ↔ a = a' ∧ m = m' := by
  show ok (a, m) = .ok (a', m') ↔ _
  simp

theorem throw_ne_ok {r : α × Method} : (throw e : Emit α).run m ≠ .ok r := by
  intro h
  cases h

/-- A fault is one of the steps that were taken. -/
theorem bind_eq_error {x : Emit α} {f : α → Emit β} : (x >>= f).run m = .error flt ↔
      x.run m = .error flt ∨ ∃ a m1, x.run m = .ok (a, m1) ∧ (f a).run m1 = .error flt := by
  rw [StateT.run_bind]
  cases h : x.run m with
  | error e => simp [bind, Except.bind]
  | ok p =>
    constructor
    · intro hf
      exact .inr ⟨p.1, p.2, rfl, hf⟩
    · rintro (hx | ⟨a, m1, hp, hf⟩)
      · cases hx
      · cases hp
        exact hf

/-- A step behind a guard. -/
theorem guard_eq_ok {c : Prop} [Decidable c] {k : PUnit → Emit α} {r : α × Method} :
    (if c then throw e >>= k else k ⟨⟩).run m = .ok r ↔ ¬ c ∧ (k ⟨⟩).run m = .ok r := by
  grind [bind_eq_ok, throw_ne_ok]

theorem get_eq_ok : (get : Emit Method).run m = .ok (n, m') ↔ m = n ∧ m = m' := by
  show ok (m, m) = .ok (n, m') ↔ _
  simp

theorem modify_eq_ok {f : Method → Method} {u : PUnit} :
    (modify f : Emit PUnit).run m = .ok (u, m') ↔ m' = f m := by
  show ok (PUnit.unit, f m) = .ok (u, m') ↔ _
  simp [eq_comm]

theorem set_eq_ok {u : PUnit} : (set n : Emit PUnit).run m = .ok (u, m') ↔ m' = n := by
  show ok (PUnit.unit, n) = .ok (u, m') ↔ _
  simp [eq_comm]

theorem lift_eq_ok {x : Except Fault α} {a : α} :
    (liftM x : Emit α).run m = .ok (a, m') ↔ x = .ok a ∧ m = m' := by
  cases x with
  | error e =>
    constructor
    · intro h
      cases h
    · rintro ⟨h, -⟩
      cases h
  | ok a' =>
    show ok (a', m) = .ok (a, m') ↔ _
    simp

/-! ## The primitives -/

theorem onGraph_eq_ok {f : Graph → Except Fault Graph} :
    (onGraph f).run m = .ok (u, m') ↔ ∃ g, f m.graph = .ok g ∧ m' = { m with graph := g } := by
  unfold onGraph
  simp only [bind_eq_ok, get_eq_ok, lift_eq_ok, set_eq_ok]
  constructor
  · rintro ⟨_, _, ⟨rfl, rfl⟩, g, _, ⟨hg, rfl⟩, rfl⟩
    exact ⟨g, hg, rfl⟩
  · rintro ⟨g, hg, rfl⟩
    exact ⟨m, m, ⟨rfl, rfl⟩, g, m, ⟨hg, rfl⟩, rfl⟩

theorem updateBlock_eq_ok :
    g.updateBlock x f = .ok g' ↔ x < g.blocks.size ∧ g' = g.modifyBlock x f := by
  unfold updateBlock
  by_cases h : x < g.blocks.size <;> simp [h, eq_comm]

theorem onBlock_eq_ok :
    (onGraph (·.updateBlock x f)).run m = .ok (u, m') ↔
      x < m.graph.blocks.size ∧ m' = m.withBlock x f := by
  grind [onGraph_eq_ok, Graph.updateBlock, Method.withBlock]

theorem push_eq_ok {op : Operation} : (onGraph (·.push x op)).run m = .ok (u, m') ↔
      x < m.graph.blocks.size ∧ m' = m.withBlock x (·.push op) := onBlock_eq_ok

theorem updateBlocks_eq_ok :
    (do let g ← g.updateBlock x f; g.updateBlock y f') = .ok g' ↔
      x < g.blocks.size ∧ y < g.blocks.size ∧ g' = (g.modifyBlock x f).modifyBlock y f' := by
  by_cases hx : x < g.blocks.size
  · rw [show g.updateBlock x f = .ok (g.modifyBlock x f) by simp [Graph.updateBlock, hx]]
    have hs : (g.modifyBlock x f).blocks.size = g.blocks.size := Arena.size_modify ..
    simp only [bind, Except.bind, updateBlock_eq_ok, hs, hx, true_and]
  · simp [Graph.updateBlock, hx, bind, Except.bind]

/-- Changing two blocks, one after the other. -/
theorem onBlocks_eq_ok :
    (onGraph fun g => do let g ← g.updateBlock x f; g.updateBlock y f').run m = .ok (u, m') ↔
      x < m.graph.blocks.size ∧ y < m.graph.blocks.size ∧
        m' = (m.withBlock x f).withBlock y f' := by
  simp only [onGraph_eq_ok, updateBlocks_eq_ok]
  constructor
  · rintro ⟨g, ⟨hx, hy, rfl⟩, hr⟩
    exact ⟨hx, hy, hr⟩
  · rintro ⟨hx, hy, hr⟩
    exact ⟨_, ⟨hx, hy, rfl⟩, hr⟩

theorem addEdge_eq_ok : (addEdge x y).run m = .ok (u, m') ↔
      x < m.graph.blocks.size ∧ y < m.graph.blocks.size ∧ m' = m.withEdge x y := onBlocks_eq_ok

theorem addHandlerEdge_eq_ok : (onGraph (·.addHandlerEdge x y)).run m = .ok (u, m') ↔
      x < m.graph.blocks.size ∧ y < m.graph.blocks.size ∧ m' = m.withHandler x y := onBlocks_eq_ok

theorem builder_eq_ok : (builder b).run m = .ok (d, m') ↔ m.builder? b = some d ∧ m = m' := by
  grind [lift_eq_ok, fetch_eq_ok, builder, Method.builder?]

theorem updateBuilder_eq_ok {f : Builder → Builder} :
    (updateBuilder b f).run m = .ok (u, m') ↔ b < m.builders.size ∧ m' = m.withBuilder b f := by
  grind [set_eq_ok, throw_ne_ok, updateBuilder, Method.withBuilder]

theorem typeOf_eq_ok {v : ValueId} {ty : Ty} :
    (typeOf v).run m = .ok (ty, m') ↔ m.graph.values.get? v = some ty ∧ m = m' := by
  grind [typeOf, Graph.typeOf, lift_eq_ok, fetch_eq_ok]

/-- Reading something of a builder. -/
theorem read_eq_ok {f : Builder → α} {a : α} : (do return f (← builder b)).run m = .ok (a, m') ↔
      (∃ d, m.builder? b = some d ∧ f d = a) ∧ m = m' := by
  simp only [bind_eq_ok, builder_eq_ok, pure_eq_ok]
  constructor
  · rintro ⟨d, _, ⟨hd, rfl⟩, ha, rfl⟩
    exact ⟨⟨d, hd, ha⟩, rfl⟩
  · rintro ⟨⟨d, hd, ha⟩, rfl⟩
    exact ⟨d, m, ⟨hd, rfl⟩, ha, rfl⟩

theorem entryOf_eq_ok : (entryOf b).run m = .ok (x, m') ↔
      (∃ d, m.builder? b = some d ∧ d.entry = x) ∧ m = m' := read_eq_ok

theorem isPlaced_eq_ok {p : Bool} : (isPlaced b).run m = .ok (p, m') ↔
      (∃ d, m.builder? b = some d ∧ d.placed = p) ∧ m = m' := read_eq_ok

end Emit

/-! ## Steps that can fail -/

namespace Build

theorem bind_eq_ok {x : Build α} {f : α → Build β} {r : Except BuildError β × Method} :
    (x >>= f).run.run m = .ok r ↔
      (∃ a m1, x.run.run m = .ok (.ok a, m1) ∧ (f a).run.run m1 = .ok r) ∨
      (∃ e m1, x.run.run m = .ok (.error e, m1) ∧ r = (.error e, m1)) := by
  grind [Emit.bind_eq_ok, pure_eq_ok]

variable {r : Except BuildError α}

theorem lift_eq_ok {x : Emit α} :
    (liftM x : Build α).run.run m = .ok (r, m') ↔ ∃ a, x.run m = .ok (a, m') ∧ .ok a = r := by
  show ((do let a ← x; pure (.ok a)) : Emit _).run m = .ok (r, m') ↔ _
  simp only [Emit.bind_eq_ok, Emit.pure_eq_ok]
  constructor
  · rintro ⟨a, _, h, hr, rfl⟩
    exact ⟨a, h, hr⟩
  · rintro ⟨a, h, hr⟩
    exact ⟨a, m', h, hr, rfl⟩

theorem bind_eq_error {x : Build α} {f : α → Build β} :
    (x >>= f).run.run m = .error flt ↔ x.run.run m = .error flt ∨
      ∃ a m1, x.run.run m = .ok (.ok a, m1) ∧ (f a).run.run m1 = .error flt := by
  rw [ExceptT.run_bind, Emit.bind_eq_error]
  refine or_congr_right ⟨?_, ?_⟩
  · rintro ⟨a, m1, h1, h2⟩
    cases a with
    | ok a => exact ⟨a, m1, h1, h2⟩
    | error e => cases h2
  · rintro ⟨a, m1, h1, h2⟩
    exact ⟨.ok a, m1, h1, h2⟩

theorem lift_eq_error {x : Emit α} :
    (liftM x : Build α).run.run m = .error flt ↔ x.run m = .error flt := by
  show (x >>= fun a => pure (.ok a) : Emit (Except BuildError α)).run m = .error flt ↔ _
  rw [Emit.bind_eq_error]
  refine ⟨fun h => h.resolve_right ?_, .inl⟩
  rintro ⟨a, m1, -, h⟩
  cases h

theorem pure_eq_ok {a : α} : (pure a : Build α).run.run m = .ok (r, m') ↔ .ok a = r ∧ m = m' := by
  rw [ExceptT.run_pure, Emit.pure_eq_ok]

theorem throw_eq_ok {e : BuildError} :
    (throw e : Build α).run.run m = .ok (r, m') ↔ .error e = r ∧ m = m' := by
  rw [ExceptT.run_throw, Emit.pure_eq_ok]

theorem get_eq_ok {r : Except BuildError Method} :
    (get : Build Method).run.run m = .ok (r, m') ↔ .ok m = r ∧ m = m' := by
  show ok (ok m, m) = .ok (r, m') ↔ _
  simp

end Build
end MethodGraph
