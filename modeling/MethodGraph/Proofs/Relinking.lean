import MethodGraph.Method.Compiled
import MethodGraph.Proofs.Relabeled
/-!
  Connecting does not depend on names.

  Two methods that differ in the names of blocks and values (`Method.Renamed`) are connected alike:
  both meet the same fault, or both are laid out, and then the layouts differ in names.

  `Emit.Renames` says of two computations that they take methods that differ in names to such
  methods.  It holds of the primitives that add no block and no value, and is kept when computations
  are put together.  Connecting adds a block only where the body has to be left before the builders
  are joined, so what comes after that (`Emit.joinAll`) is related step by step.
-/

namespace MethodGraph

open List Emit

variable {x x' : BlockId} {g g' : Graph} {xs xs' : List BlockId}

variable {ρ : Renaming} {m m' : Method}

/-! ## Methods with other names -/

/-- An entry of a sequence with another name; builders keep theirs. -/
inductive Entry.Renamed (ρ : Renaming) : Entry → Entry → Prop where
  | block {x x' : BlockId} (h : ρ.block x x') : Renamed ρ (.block x) (.block x')
  | builder (c : BuilderId) : Renamed ρ (.builder c) (.builder c)

/-- A builder whose blocks have other names. -/
structure Builder.Renamed (ρ : Renaming) (d d' : Builder) : Prop where
  entry : ρ.block d.entry d'.entry
  exit : ρ.block d.exit d'.exit
  sequence : List.Forall₂ (Entry.Renamed ρ) d.sequence d'.sequence
  fallsOut : d'.fallsOut = d.fallsOut
  placed : d'.placed = d.placed
  count : d'.count = d.count
  blocks : List.Forall₂ ρ.block d.blocks d'.blocks
  derived : d'.derived = d.derived

/-- A method whose blocks and values have other names. -/
structure Method.Renamed (ρ : Renaming) (m m' : Method) : Prop where
  graph : m.graph.Relabeled ρ m'.graph
  builders : ∀ b, Option.Rel (Builder.Renamed ρ) (m.builder? b) (m'.builder? b)
  size : m'.builders.size = m.builders.size
  config : m'.config = m.config
  connected : m'.connected = m.connected
  hosts : ∀ name, (m'.functions.filterMap (·.host)).get? name =
    (m.functions.filterMap (·.host)).get? name

/-- A block that is changed alike on both sides. -/
theorem Graph.Relabeled.modifyBlock (h : g.Relabeled ρ g')
    (hx : ρ.block x x') {f f' : Block → Block}
    (hf : ∀ blk blk', blk.Relabeled ρ blk' → (f blk).Relabeled ρ (f' blk')) :
    (g.modifyBlock x f).Relabeled ρ (g'.modifyBlock x' f') := by
  refine { h with blocks := fun y y' hy => ?_ }
  obtain ⟨blk, blk', hblk, hblk', hb⟩ := h.blocks y y' hy
  have hget : (g.modifyBlock x f).block? y = if x = y then (g.block? y).map f else g.block? y :=
    Arena.get?_modify ..
  have hget' : (g'.modifyBlock x' f').block? y' =
      if x' = y' then (g'.block? y').map f' else g'.block? y' := Arena.get?_modify ..
  rw [hget, hget', hblk, hblk']
  by_cases hxy : x = y
  · rw [if_pos hxy, if_pos ((ρ.block_eq hx hy).1 hxy)]
    exact ⟨_, _, rfl, rfl, hf _ _ hb⟩
  · grind [ρ.block_eq]

namespace Method.Renamed

theorem withGraph (h : m.Renamed ρ m') (hg : g.Relabeled ρ g') :
    Renamed ρ { m with graph := g } { m' with graph := g' } := { h with graph := hg }

theorem withBuilder (h : m.Renamed ρ m') (b : BuilderId) {f f' : Builder → Builder}
    (hf : ∀ d d', d.Renamed ρ d' → (f d).Renamed ρ (f' d')) :
    (m.withBuilder b f).Renamed ρ (m'.withBuilder b f') := by
  refine { h with builders := fun c => ?_, size := ?_ }
  · rw [builder?_withBuilder, builder?_withBuilder]
    by_cases hbc : b = c
    · rw [if_pos hbc, if_pos hbc]
      rcases rel_cases (h.builders c) with ⟨hd, hd'⟩ | ⟨d, d', hd, hd', hdd⟩
      · rw [hd, hd']
        exact .none
      · rw [hd, hd']
        exact .some (hf d d' hdd)
    · rw [if_neg hbc, if_neg hbc]
      exact h.builders c
  · rw [size_withBuilder, size_withBuilder, h.size]

end Method.Renamed

/-! ## Computations on methods with other names -/

namespace Emit

variable {α β γ δ : Type} {R : α → β → Prop} {S : γ → δ → Prop}

/-- On methods that differ in names the two computations do the same. -/
def Renames (ρ : Renaming) (R : α → β → Prop) (x : Emit α) (y : Emit β) : Prop :=
  ∀ m m', m.Renamed ρ m' →
    Matched (fun p p' => R p.1 p'.1 ∧ p.2.Renamed ρ p'.2) (x.run m) (y.run m')

theorem renames_pure {a : α} {c : β} (h : R a c) : Renames ρ R (pure a) (pure c) :=
  fun _ _ hm => .ok ⟨h, hm⟩

theorem renames_throw (e : Fault) : Renames ρ R (throw e) (throw e) := fun _ _ _ => .error e

theorem Renames.bind {x : Emit α} {y : Emit β} {f : α → Emit γ} {k : β → Emit δ}
    (hx : Renames ρ R x y) (hf : ∀ a c, R a c → Renames ρ S (f a) (k c)) :
    Renames ρ S (x >>= f) (y >>= k) := by
  intro m m' hm
  rw [StateT.run_bind, StateT.run_bind]
  exact (hx m m' hm).bind fun p p' hp => hf p.1 p'.1 hp.1 p.2 p'.2 hp.2

theorem renames_ite {p p' : Prop} [Decidable p] [Decidable p'] {x z : Emit α} {y w : Emit β}
    (hp : p ↔ p') (hx : Renames ρ R x y) (hz : Renames ρ R z w) :
    Renames ρ R (if p then x else z) (if p' then y else w) := by grind

theorem renames_lift {x : Except Fault α} {y : Except Fault β} (h : Matched R x y) :
    Renames ρ R (liftM x : Emit α) (liftM y : Emit β) := by
  intro m m' hm
  cases h with
  | ok h => exact .ok ⟨h, hm⟩
  | error f => exact .error f

theorem renames_get : Renames ρ (Method.Renamed ρ) (get : Emit Method) get :=
  fun _ _ hm => .ok ⟨hm, hm⟩

theorem renames_onGraph {f f' : Graph → Except Fault Graph}
    (h : ∀ g g', g.Relabeled ρ g' → Matched (Graph.Relabeled ρ) (f g) (f' g')) :
    Renames ρ Eq (onGraph f) (onGraph f') := by
  refine renames_get.bind fun m m' hm => (renames_lift (h _ _ hm.graph)).bind fun g g' hg => ?_
  intro _ _ _
  exact .ok ⟨rfl, hm.withGraph hg⟩

theorem matched_updateBlock (h : g.Relabeled ρ g') (hx : ρ.block x x') {f f' : Block → Block}
    (hf : ∀ blk blk', blk.Relabeled ρ blk' → (f blk).Relabeled ρ (f' blk')) :
    Matched (Graph.Relabeled ρ) (g.updateBlock x f) (g'.updateBlock x' f') := by
  unfold Graph.updateBlock
  rw [if_pos (h.lt_size hx), if_pos (h.symm.lt_size hx)]
  exact .ok (h.modifyBlock hx hf)

theorem renames_addEdge {y y' : BlockId} (hx : ρ.block x x') (hy : ρ.block y y') :
    Renames ρ Eq (addEdge x y) (addEdge x' y') := by
  refine renames_onGraph fun g g' hg => ?_
  refine (matched_updateBlock hg hx fun blk blk' hb => ?_).bind fun g1 g1' hg1 =>
    matched_updateBlock hg1 hy fun blk blk' hb => ?_
  · exact { hb with succs := hb.succs.addNew hy }
  · exact { hb with preds := hb.preds.addNew hx }

theorem renames_push (hx : ρ.block x x') {op op' : Operation} (hop : op.Renamed ρ op') :
    Renames ρ Eq (onGraph (·.push x op)) (onGraph (·.push x' op')) :=
  renames_onGraph fun _ _ hg => matched_updateBlock hg hx fun _ _ hb =>
    { hb with operations := rel_append hb.operations (.cons hop .nil) }

theorem renames_builder (b : BuilderId) :
    Renames ρ (Builder.Renamed ρ) (builder b) (builder b) := by
  refine renames_get.bind fun m m' hm => renames_lift ?_
  unfold Arena.fetch
  rcases rel_cases (hm.builders b) with ⟨hd, hd'⟩ | ⟨d, d', hd, hd', hdd⟩
  · rw [show m.builders.get? b = none from hd, show m'.builders.get? b = none from hd']
    exact .error _
  · rw [show m.builders.get? b = some d from hd, show m'.builders.get? b = some d' from hd']
    exact .ok hdd

theorem renames_updateBuilder (b : BuilderId) {f f' : Builder → Builder}
    (hf : ∀ d d', d.Renamed ρ d' → (f d).Renamed ρ (f' d')) :
    Renames ρ Eq (updateBuilder b f) (updateBuilder b f') := by
  refine renames_get.bind fun m m' hm => renames_ite (by rw [hm.size]) ?_ (renames_throw _)
  intro n n' _
  exact .ok ⟨rfl, hm.withBuilder b hf⟩

theorem renames_mapM {xs : List γ} {ys : List δ} {f : γ → Emit α} {k : δ → Emit β}
    (h : List.Forall₂ S xs ys) (hf : ∀ x y, S x y → Renames ρ R (f x) (k y)) :
    Renames ρ (List.Forall₂ R) (xs.mapM f) (ys.mapM k) := by
  induction h with
  | nil => exact renames_pure .nil
  | cons hxy _ ih =>
    rw [mapM_cons, mapM_cons]
    exact (hf _ _ hxy).bind fun a c ha => ih.bind fun as cs has => renames_pure (.cons ha has)

theorem renames_forM {xs : List γ} {ys : List δ} {f : γ → Emit PUnit} {k : δ → Emit PUnit}
    (h : List.Forall₂ S xs ys) (hf : ∀ x y, S x y → Renames ρ Eq (f x) (k y)) :
    Renames ρ Eq (xs.forM f) (ys.forM k) := by
  induction h with
  | nil => exact renames_pure rfl
  | cons hxy _ ih => exact (hf _ _ hxy).bind fun _ _ _ => ih

/-! ## Connecting -/

theorem renames_countBlocks : ∀ (fuel : Nat) (b : BuilderId),
    Renames ρ Eq (countBlocks fuel b) (countBlocks fuel b)
  | 0, _ => renames_pure rfl
  | fuel + 1, b => by
    refine (renames_builder b).bind fun d d' hd => ?_
    have hcount := hd.count
    have hsequence := hd.sequence
    obtain ⟨entry, exit, sequence, tail, placed, isHandler, connected, count, blocks, derived,
      bytecode⟩ := d
    obtain ⟨entry', exit', sequence', tail', placed', isHandler', connected', count', blocks',
      derived', bytecode'⟩ := d'
    dsimp only at hcount hsequence
    subst hcount
    cases count' with
    | some n => exact renames_pure rfl
    | none =>
      refine (renames_mapM (R := Eq) hsequence fun e e' he => ?_).bind fun ns ns' hns => ?_
      · cases he with
        | block _ => exact renames_pure rfl
        | builder c => exact renames_countBlocks fuel c
      · cases forall₂_eq_eq_eq ▸ hns
        refine (renames_updateBuilder b ?_).bind fun _ _ _ => renames_pure rfl
        exact fun d d' hd => { hd with count := rfl }

theorem renames_entryBlocks {e e' : Entry} (h : e.Renamed ρ e') :
    Renames ρ (List.Forall₂ ρ.block) (entryBlocks e) (entryBlocks e') := by
  cases h with
  | block h => exact renames_pure (.cons h .nil)
  | builder c => exact (renames_builder c).bind fun d d' hd => renames_pure hd.blocks

theorem renames_connectBuilder (b : BuilderId) :
    Renames ρ Eq (connectBuilder b) (connectBuilder b) := by
  refine (renames_builder b).bind fun d d' hd =>
    (renames_mapM hd.sequence fun _ _ => renames_entryBlocks).bind fun xss xss' hxss =>
    renames_get.bind fun m m' hm => ?_
  have hmembers : List.Forall₂ ρ.block xss.flatten xss'.flatten := rel_flatten hxss
  rw [hd.fallsOut, hm.graph.reachesLast hmembers hd.entry]
  have hset : Renames ρ Eq
      (updateBuilder b fun e => { e with
        blocks := if b = Method.root then xss.flatten else xss.flatten ++ [d.exit]
        derived := some (d.fallsOut && m.graph.reachesLast d.entry xss.flatten)
        connected := true })
      (updateBuilder b fun e => { e with
        blocks := if b = Method.root then xss'.flatten else xss'.flatten ++ [d'.exit]
        derived := some (d.fallsOut && m.graph.reachesLast d.entry xss.flatten)
        connected := true }) := by
    refine renames_updateBuilder b fun e e' he => { he with blocks := ?_, derived := rfl }
    dsimp only
    split
    · exact hmembers
    · exact rel_append hmembers (.cons hd.exit .nil)
  dsimp only
  rcases rel_cases (rel_getLast? hmembers) with ⟨hx, hx'⟩ | ⟨x, x', hx, hx', hxx⟩
  · rw [hx, hx']
    exact hset
  · rw [hx, hx']
    exact renames_ite Iff.rfl ((renames_addEdge hxx hd.exit).bind fun _ _ _ => hset) hset

theorem renames_connectTree : ∀ (fuel : Nat) (b : BuilderId),
    Renames ρ Eq (connectTree fuel b) (connectTree fuel b)
  | 0, _ => renames_pure rfl
  | fuel + 1, b => by
    refine (renames_builder b).bind fun d d' hd =>
      (renames_forM hd.sequence fun e e' he => ?_).bind fun _ _ _ => renames_connectBuilder b
    cases he with
    | block _ => exact renames_pure rfl
    | builder c => exact renames_connectTree fuel c

theorem renames_connectDetached (hexit : ρ.block Graph.exit Graph.exit) (fuel : Nat)
    (b : BuilderId) : Renames ρ Eq (connectDetached fuel b) (connectDetached fuel b) := by
  refine (renames_connectTree fuel b).bind fun _ _ _ => (renames_builder b).bind fun d d' hd => ?_
  rw [hd.derived]
  refine renames_ite Iff.rfl ((renames_push hd.exit ?_).bind fun _ _ _ =>
    renames_addEdge hd.exit hexit) (renames_pure rfl)
  exact ⟨rfl, .nil, .none, .cons hexit .nil⟩

/-- What is done once control leaves the body: every builder is joined with its parts. -/
def joinAll (detached : List BuilderId) (fuel : Nat) : Emit (List BlockId) := do
  detached.forM fun b => updateBuilder b fun d => { d with placed := true }
  let count := total (← (Method.root :: detached).mapM (countBlocks fuel))
  connectTree fuel Method.root
  detached.forM (connectDetached fuel)
  let layout := (← (Method.root :: detached).mapM fun b =>
    do return (← builder b).blocks).flatten ++ [Graph.exit]
  if layout.length ≠ count + 1 then throw .blockCountMismatch
  return layout

theorem connectBuilders_eq : connectBuilders = (do
    let m ← get
    let d ← builder Method.root
    if !m.detached.isEmpty && d.fallsOut then gotoBlock Method.root Graph.exit
    joinAll m.detached m.builders.size) := rfl

theorem renames_joinAll (hexit : ρ.block Graph.exit Graph.exit) (detached : List BuilderId)
    (fuel : Nat) :
    Renames ρ (List.Forall₂ ρ.block) (joinAll detached fuel) (joinAll detached fuel) := by
  have hsame : ∀ bs : List BuilderId, List.Forall₂ Eq bs bs := fun bs => forall₂_refl bs
  refine (renames_forM (hsame _) ?_).bind fun _ _ _ =>
    (renames_mapM (R := Eq) (hsame _) ?_).bind fun ns ns' hns =>
    (renames_connectTree fuel _).bind fun _ _ _ =>
    (renames_forM (hsame _) ?_).bind fun _ _ _ =>
    (renames_mapM (R := List.Forall₂ ρ.block) (hsame _) ?_).bind fun xss xss' hxss => ?_
  · rintro b _ rfl
    exact renames_updateBuilder b fun d d' hd => { hd with placed := rfl }
  · rintro b _ rfl
    exact renames_countBlocks fuel b
  · rintro b _ rfl
    exact renames_connectDetached hexit fuel b
  · rintro b _ rfl
    exact (renames_builder b).bind fun d d' hd => renames_pure hd.blocks
  · cases forall₂_eq_eq_eq ▸ hns
    have hlayout : List.Forall₂ ρ.block (xss.flatten ++ [Graph.exit])
        (xss'.flatten ++ [Graph.exit]) :=
      rel_append (rel_flatten hxss) (.cons hexit .nil)
    refine renames_ite (by rw [hlayout.length_eq]) ?_ (renames_pure hlayout)
    exact (renames_throw (R := Eq) _).bind fun _ _ _ => renames_pure hlayout

/-! ## Fixing the order of the blocks -/

theorem matched_thread (h : List.Forall₂ ρ.block xs xs')
    (hg : g.Relabeled ρ g') : Matched (Graph.Relabeled ρ) (g.thread xs) (g'.thread xs') := by
  induction h generalizing g g' with
  | nil => exact .ok hg
  | cons hx hrest ih =>
    refine (matched_updateBlock hg hx fun blk blk' hb => ?_).bind fun g1 g1' hg1 => ih hg1
    exact { hb with next := rel_head? hrest }

theorem renames_setLayout (h : List.Forall₂ ρ.block xs xs') :
    Renames ρ Eq (onGraph (·.setLayout xs)) (onGraph (·.setLayout xs')) :=
  renames_onGraph fun _ _ hg =>
    (matched_thread h hg).bind fun _ _ hg => .ok { hg with layout := h }

end Emit

/-! ## Handing out a method -/

variable (hm : m.connected = false) (hm' : m'.connected = false)
  (h : Matched (fun p p' => ∃ ρ : Renaming, List.Forall₂ ρ.block p.1 p'.1 ∧ p.2.Renamed ρ p'.2)
    (Emit.connectBuilders.run m) (Emit.connectBuilders.run m'))

namespace Build

variable {α β γ δ : Type} {R : α → β → Prop} {S : γ → δ → Prop}

/-- Two answers: both are errors, or both are results that `R` relates. -/
inductive Answers (R : α → β → Prop) : Except BuildError α → Except BuildError β → Prop where
  | ok {a : α} {c : β} (h : R a c) : Answers R (.ok a) (.ok c)
  | error (e e' : BuildError) : Answers R (.error e) (.error e')

/-- On methods that differ in names the two computations do the same. -/
def Renames (ρ : Renaming) (R : α → β → Prop) (x : Build α) (y : Build β) : Prop :=
  Emit.Renames ρ (Answers R) x.run y.run

theorem renames_pure {a : α} {c : β} (h : R a c) : Renames ρ R (pure a) (pure c) :=
  Emit.renames_pure (.ok h)

theorem renames_throw (e e' : BuildError) : Renames ρ R (throw e) (throw e') :=
  Emit.renames_pure (.error e e')

theorem renames_lift {x : Emit α} {y : Emit β} (h : Emit.Renames ρ R x y) :
    Renames ρ R (liftM x : Build α) (liftM y : Build β) :=
  h.bind fun _ _ h => Emit.renames_pure (.ok h)

theorem Renames.bind {x : Build α} {y : Build β} {f : α → Build γ} {k : β → Build δ}
    (hx : Renames ρ R x y) (hf : ∀ a c, R a c → Renames ρ S (f a) (k c)) :
    Renames ρ S (x >>= f) (y >>= k) := by
  refine Emit.Renames.bind hx fun r r' hr => ?_
  cases hr with
  | ok h => exact hf _ _ h
  | error e e' => exact Emit.renames_pure (.error e e')

theorem renames_writeListing : Renames ρ Eq writeListing writeListing := by
  refine (renames_lift renames_get).bind fun m m' hm => ?_
  rw [hm.config, hm.graph.name]
  cases m.config.listingDir with
  | none => exact renames_pure rfl
  | some dir =>
    dsimp only
    split
    · intro n n' hn
      exact .ok ⟨.ok rfl, { hm with config := rfl }⟩
    · exact renames_throw _ _

/-- Fix the layout of the method, verify the graph and write its listing. -/
def settle (layout : List BlockId) : Build Unit := do
  Emit.onGraph (·.setLayout layout)
  modify fun m => { m with connected := true }
  let m ← get
  if m.config.verify then
    match m.graph.verify with
    | .ok () => pure ()
    | .error flaw => throw (.malformed flaw)
  writeListing

theorem connect_eq : connect = (do
    if (← get).connected then return
    settle (← Emit.connectBuilders)) := rfl

theorem renames_settle (h : List.Forall₂ ρ.block xs xs') :
    Renames ρ Eq (settle xs) (settle xs') := by
  refine (renames_lift (renames_setLayout h)).bind fun _ _ _ =>
    (renames_lift (R := Eq) ?_).bind fun _ _ _ => (renames_lift renames_get).bind
      fun m m' hm => ?_
  · intro n n' hn
    exact .ok ⟨rfl, { hn with connected := rfl }⟩
  · have hverify := hm.graph.verify_agree
    rw [hm.config]
    dsimp only
    split
    · grind [renames_writeListing, renames_throw, Graph.Agree]
    · exact renames_writeListing

theorem run_lift_bind (x : Emit α) (f : α → Build β) (n : Method) :
    (liftM x >>= f : Build β).run.run n = (x.run n >>= fun p => (f p.1).run.run p.2) := by
  rw [ExceptT.run_bind, StateT.run_bind]
  show ((x >>= fun a => pure (Except.ok a)) : Emit (Except BuildError α)).run n >>= _ = _
  rw [StateT.run_bind]
  cases x.run n <;> rfl

theorem connect_steps (h : m.connected = false) : connect.run.run m =
    (Emit.connectBuilders.run m >>= fun p => (settle p.1).run.run p.2) := by
  rw [connect_eq, ← run_lift_bind]
  show (if m.connected = true then _ else _ : Build Unit).run.run m = _
  rw [if_neg (by rw [h]; exact Bool.false_ne_true)]

include hm hm' h in
/-- Methods whose builders are joined alike are connected alike. -/
theorem connect_matched :
    Matched (fun p p' => Answers Eq p.1 p'.1 ∧ ∃ ρ : Renaming, p.2.Renamed ρ p'.2)
      (connect.run.run m) (connect.run.run m') := by
  rw [connect_steps hm, connect_steps hm']
  refine h.bind fun p p' ⟨ρ, hlayout, hmethod⟩ => ?_
  exact (renames_settle hlayout p.2 p'.2 hmethod).imp fun q q' hq => ⟨hq.1, ρ, hq.2⟩

/-- What a connected method is handed out as. -/
def handOut (m : Method) : Compiled :=
  { graph := m.graph, mayLoop := m.mayLoop, hosts := m.functions.filterMap (·.host) }

theorem finish_run : finish.run.run m =
    (connect.run.run m >>= fun p => .ok (p.1.map fun _ => handOut p.2, p.2)) := by
  unfold finish
  rw [ExceptT.run_bind, StateT.run_bind]
  refine congrArg (connect.run.run m >>= ·) (funext fun p => ?_)
  obtain ⟨r, n⟩ := p
  cases r <;> rfl

include hm hm' h in
/-- Methods whose builders are joined alike are handed out alike. -/
theorem finish_matched :
    Matched (fun p p' => Answers (fun c c' => ∀ args, SameOutcome (c.invoke args) (c'.invoke args))
      p.1 p'.1) (finish.run.run m) (finish.run.run m') := by
  rw [finish_run, finish_run]
  refine (connect_matched hm hm' h).bind ?_
  rintro ⟨r, n⟩ ⟨r', n'⟩ ⟨hr, ρ, hn⟩
  refine .ok ?_
  cases hr with
  | error e e' => exact .error e e'
  | ok _ =>
    have hempty : n'.graph.layout.isEmpty = n.graph.layout.isEmpty := by
      have hlayout := hn.graph.layout
      generalize n.graph.layout = xs, n'.graph.layout = xs' at hlayout
      cases hlayout <;> rfl
    refine .ok fun args => ?_
    show SameOutcome ((handOut n).invoke args) ((handOut n').invoke args)
    exact Compiled.invoke_renamed hn.graph.renamed hempty hn.graph.name hn.hosts args

end Build
end MethodGraph
