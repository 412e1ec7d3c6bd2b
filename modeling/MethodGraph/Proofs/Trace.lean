import Mathlib.Logic.Relation
import MethodGraph.Eval.Run
/-!
  Runs, one operation at a time.

  A run is at a place of the graph, named by a block and a position among its operations, with a
  machine.  It moves to the place behind an operation, to the beginning of another block, or from
  behind the last operation of a block into the block's `next` (`Graph.Moves`), until it ends
  (`Graph.Ends`).

  What is proved of single moves is true of evaluation: a chain of moves from the entry of a graph
  to an end is what `Evaluator.run` does with any limit that is large enough, and with a smaller
  limit the answer is the same or says that the limit was met.  The recursion on the limit is
  looked at only here (`Exec.resume`); a move inside a block costs nothing of it, and one into a
  block costs one.
-/

namespace MethodGraph

open List Graph Nat Option

variable {locals : Bindings SymbolId Scalar} {blk : Block} {y : BlockId} {n : Nat} {op : Operation}

/-! ## Steps put together -/

namespace Exec

variable {α β : Type} {x : Exec α} {f : α → Exec β} {σ σ' : Machine} {p : BlockId × Nat}
  {c c' : (BlockId × Nat) × Machine} {r : Except EvalError (Option Scalar) × Machine}

theorem bind_ok {a : α} (h : x.run.run σ = .ok (.ok a, σ')) :
    (x >>= f).run.run σ = (f a).run.run σ' := by
  rw [ExceptT.run_bind, StateT.run_bind, h]
  rfl

theorem bind_error {e : EvalError} (h : x.run.run σ = .ok (.error e, σ')) :
    (x >>= f).run.run σ = .ok (.error e, σ') := by
  rw [ExceptT.run_bind, StateT.run_bind, h]
  rfl

theorem bind_fault {e : Fault} (h : x.run.run σ = .error e) :
    (x >>= f).run.run σ = .error e := by
  rw [ExceptT.run_bind, StateT.run_bind, h]
  rfl

/-- A run of two steps is a run of the first and then one of the second, unless the first fails. -/
theorem of_bind_ok {r : Except EvalError β × Machine} (h : (x >>= f).run.run σ = .ok r) :
    (∃ a σ1, x.run.run σ = .ok (.ok a, σ1) ∧ (f a).run.run σ1 = .ok r) ∨
      ∃ e σ1, x.run.run σ = .ok (.error e, σ1) ∧ r = (.error e, σ1) := by
  cases hx : x.run.run σ with
  | error e => cases (bind_fault hx).symm.trans h
  | ok p =>
    obtain ⟨a, σ1⟩ := p
    cases a with
    | error e =>
      cases (bind_error hx).symm.trans h
      exact .inr ⟨e, σ1, rfl, rfl⟩
    | ok a => exact .inl ⟨a, σ1, rfl, (bind_ok hx).symm.trans h⟩

/-- What comes first may be replaced by what does the same. -/
theorem bind_congr {y : Exec α} (h : x.run.run σ = y.run.run σ') :
    (x >>= f).run.run σ = (y >>= f).run.run σ' := by
  rw [ExceptT.run_bind, StateT.run_bind, h]
  rfl

theorem lift_ok {y : Except Fault α} {a : α} (h : y = .ok a) :
    (liftM y : Exec α).run.run σ = .ok (.ok a, σ) := by
  subst h
  rfl

end Exec

namespace Graph

variable {g : Graph} {hosts : Bindings String HostFn}

/-! ## Moves -/

/-- The operation at a place. -/
def HasOp (g : Graph) (p : BlockId × Nat) (op : Operation) : Prop :=
  p.1 ≠ exit ∧ ∃ blk, g.block? p.1 = some blk ∧ blk.operations[p.2]? = some op

/-- The place is behind the last operation of its block, and control falls into `y`. -/
def FallsTo (g : Graph) (p : BlockId × Nat) (y : BlockId) : Prop :=
  p.1 ≠ exit ∧ ∃ blk, g.block? p.1 = some blk ∧ p.2 = blk.operations.length ∧ blk.next = some y

/-- What a run does next. -/
inductive Moves (g : Graph) (hosts : Bindings String HostFn) :
    (BlockId × Nat) × Machine → (BlockId × Nat) × Machine → Prop where
  /-- Control goes on behind the operation. -/
  | next {p : BlockId × Nat} {op : Operation} {σ σ' : Machine} (hop : g.HasOp p op)
    (hstep : (Exec.step g hosts p op).run.run σ = .ok (.ok .next, σ')) :
    Moves g hosts (p, σ) ((p.1, p.2 + 1), σ')
  /-- The operation sends control to a block. -/
  | jump {p : BlockId × Nat} {op : Operation} {y : BlockId} {σ σ' : Machine} (hop : g.HasOp p op)
    (hstep : (Exec.step g hosts p op).run.run σ = .ok (.ok (.jump y), σ')) :
    Moves g hosts (p, σ) ((y, 0), σ')
  /-- Control falls out of the block. -/
  | fall {p : BlockId × Nat} {y : BlockId} {σ : Machine} (hfall : g.FallsTo p y) :
    Moves g hosts (p, σ) ((y, 0), σ)

/-- How a run ends: at the exit, by an operation that returns, or by one that fails. -/
inductive Ends (g : Graph) (hosts : Bindings String HostFn) :
    (BlockId × Nat) × Machine → Except EvalError (Option Scalar) × Machine → Prop where
  | exit {i : Nat} {σ : Machine} : Ends g hosts ((Graph.exit, i), σ) (.ok none, σ)
  | ret {p : BlockId × Nat} {op : Operation} {v : Option Scalar} {σ σ' : Machine}
    (hop : g.HasOp p op)
    (hstep : (Exec.step g hosts p op).run.run σ = .ok (.ok (.ret v), σ')) :
    Ends g hosts (p, σ) (.ok v, σ')
  | error {p : BlockId × Nat} {op : Operation} {e : EvalError} {σ σ' : Machine}
    (hop : g.HasOp p op)
    (hstep : (Exec.step g hosts p op).run.run σ = .ok (.error e, σ')) :
    Ends g hosts (p, σ) (.error e, σ')

/-- Any number of moves. -/
abbrev Arrives (g : Graph) (hosts : Bindings String HostFn) :
    (BlockId × Nat) × Machine → (BlockId × Nat) × Machine → Prop :=
  Relation.ReflTransGen (g.Moves hosts)

/-! ## Runs that are computed -/

/-- The operation at a place, if there is one. -/
def op? (g : Graph) (p : BlockId × Nat) : Option Operation :=
  if p.1 = exit then none else (g.block? p.1).bind (·.operations[p.2]?)

theorem hasOp_iff : g.HasOp p op ↔ g.op? p = some op := by
  unfold HasOp op?
  split
  · next hp => simp [hp]
  · next hp => simp [hp, bind_eq_some_iff]

/-- What a run does next, if it goes on. -/
def move? (g : Graph) (hosts : Bindings String HostFn) (c : (BlockId × Nat) × Machine) :
    Option ((BlockId × Nat) × Machine) :=
  match g.op? c.1 with
  | some op =>
    match (Exec.step g hosts c.1 op).run.run c.2 with
    | .ok (.ok .next, σ) => some ((c.1.1, c.1.2 + 1), σ)
    | .ok (.ok (.jump y), σ) => some ((y, 0), σ)
    | _ => none
  | none =>
    if c.1.1 = exit then none
    else do
      let blk ← g.block? c.1.1
      if c.1.2 = blk.operations.length then return ((← blk.next, 0), c.2) else none

theorem FallsTo.op?_eq_none (h : g.FallsTo p y) : g.op? p = none := by
  grind [op?, FallsTo]

theorem moves_iff : g.Moves hosts c c' ↔ g.move? hosts c = some c' := by
  obtain ⟨p, σ⟩ := c
  constructor
  · intro h
    unfold move?
    cases h with
    | next hop hstep =>
      dsimp only
      rw [hasOp_iff.1 hop]
      dsimp only
      rw [hstep]
    | jump hop hstep =>
      dsimp only
      rw [hasOp_iff.1 hop]
      dsimp only
      rw [hstep]
    | fall hfall =>
      dsimp only
      rw [hfall.op?_eq_none]
      obtain ⟨hp, blk, hblk, hlen, hnext⟩ := hfall
      dsimp only
      rw [if_neg hp, hblk, bind_eq_bind, bind_some, if_pos hlen, hnext]
      rfl
  · intro h
    unfold move? at h
    dsimp only at h
    split at h
    · next op hop =>
      split at h
      · next σ' hstep =>
        cases h
        exact .next (hasOp_iff.2 hop) hstep
      · next y σ' hstep =>
        cases h
        exact .jump (hasOp_iff.2 hop) hstep
      · cases h
    · split at h
      · cases h
      next hp =>
      obtain ⟨blk, hblk, h⟩ := bind_eq_some_iff.1 h
      split at h
      · next hlen =>
        obtain ⟨y, hnext, h⟩ := bind_eq_some_iff.1 h
        cases h
        exact .fall ⟨hp, blk, hblk, hlen, hnext⟩
      · cases h

/-- The states of a run for a number of moves, or until it ends. -/
def trail (g : Graph) (hosts : Bindings String HostFn) :
    Nat → (BlockId × Nat) × Machine → List ((BlockId × Nat) × Machine)
  | 0, c => [c]
  | n + 1, c =>
    match g.move? hosts c with
    | none => [c]
    | some c' => c :: g.trail hosts n c'

/-- The run ends within a number of moves. -/
def halts (g : Graph) (hosts : Bindings String HostFn) : Nat → (BlockId × Nat) × Machine → Bool
  | 0, c => (g.move? hosts c).isNone
  | n + 1, c =>
    match g.move? hosts c with
    | none => true
    | some c' => g.halts hosts n c'

theorem arrives_of_mem_trail (h : c' ∈ g.trail hosts n c) : g.Arrives hosts c c' := by
  induction n generalizing c with
  | zero => exact mem_singleton.1 h ▸ .refl
  | succ n ih =>
    unfold trail at h
    split at h
    · exact mem_singleton.1 h ▸ .refl
    · next c1 hmove =>
      rcases mem_cons.1 h with rfl | h
      · exact .refl
      · exact .head (moves_iff.2 hmove) (ih h)

/-- A run that ends gets to no other states. -/
theorem mem_trail_of_arrives (hend : g.halts hosts n c = true) (h : g.Arrives hosts c c') :
    c' ∈ g.trail hosts n c := by
  induction n generalizing c with
  | zero => grind [moves_iff, trail, halts]
  | succ n ih => grind [trail, Relation.ReflTransGen.cases_head, halts, moves_iff]

end Graph

/-! ## Evaluation -/

namespace Exec

variable {g : Graph} {hosts : Bindings String HostFn} {limit fuel : Nat} {σ σ' : Machine}

/-- Run on from a place in the middle of a block. -/
def resume (g : Graph) (hosts : Bindings String HostFn) (limit fuel : Nat) (p : BlockId × Nat) :
    Exec (Option Scalar) := do
  if p.1 = Graph.exit then return none
  let blk ← g.block p.1
  match ← runOps g hosts p.1 (blk.operations.drop p.2) p.2 with
  | .ret v => return v
  | .jump c => runFrom g hosts limit fuel c
  | .next =>
    match blk.next with
    | some c => runFrom g hosts limit fuel c
    | none => throw (.fellOff p.1)

theorem runFrom_succ (x : BlockId) :
    runFrom g hosts limit (fuel + 1) x = resume g hosts limit fuel (x, 0) := rfl

/-- Outside the exit, a run goes on with the operations of the block. -/
theorem resume_of_block {blk : Block} (hp : p.1 ≠ Graph.exit) (hblk : g.block? p.1 = some blk) :
    (resume g hosts limit fuel p).run.run σ =
      (do match ← runOps g hosts p.1 (blk.operations.drop p.2) p.2 with
        | .ret v => return v
        | .jump c => runFrom g hosts limit fuel c
        | .next =>
          match blk.next with
          | some c => runFrom g hosts limit fuel c
          | none => throw (.fellOff p.1) : Exec (Option Scalar)).run.run σ := by
  unfold resume
  rw [if_neg hp]
  exact bind_ok (lift_ok (Arena.fetch_eq_ok.2 hblk))

/-- The first of the remaining operations decides, unless control goes on behind it. -/
theorem runOps_drop (hop : blk.operations[p.2]? = some op) :
    runOps g hosts p.1 (blk.operations.drop p.2) p.2 = (do
      match ← step g hosts p op with
      | .next => runOps g hosts p.1 (blk.operations.drop (p.2 + 1)) (p.2 + 1)
      | flow => return flow) := by grind [List.drop_eq_getElem_cons, runOps]

theorem resume_next {op : Operation} (hop : g.HasOp p op)
    (hstep : (step g hosts p op).run.run σ = .ok (.ok .next, σ')) :
    (resume g hosts limit fuel p).run.run σ =
      (resume g hosts limit fuel (p.1, p.2 + 1)).run.run σ' := by
  grind [resume_of_block, runOps_drop, bind_ok, Graph.HasOp]

theorem resume_jump {op : Operation} {y : BlockId} (hop : g.HasOp p op)
    (hstep : (step g hosts p op).run.run σ = .ok (.ok (.jump y), σ')) :
    (resume g hosts limit fuel p).run.run σ = (runFrom g hosts limit fuel y).run.run σ' := by
  obtain ⟨hp, blk, hblk, hget⟩ := hop
  rw [resume_of_block hp hblk, runOps_drop hget]
  exact (bind_congr (bind_ok hstep)).trans rfl

theorem resume_fall {y : BlockId} (hfall : g.FallsTo p y) :
    (resume g hosts limit fuel p).run.run σ = (runFrom g hosts limit fuel y).run.run σ := by
  obtain ⟨hp, blk, hblk, hlen, hnext⟩ := hfall
  rw [resume_of_block hp hblk, hlen, drop_length, hnext]
  rfl

/-- Where a run ends, going on gives its answer. -/
theorem resume_of_ends (h : g.Ends hosts c r) :
    (resume g hosts limit fuel c.1).run.run c.2 = .ok r := by
  cases h with
  | exit => rfl
  | ret hop hstep =>
    obtain ⟨hp, blk, hblk, hget⟩ := hop
    rw [resume_of_block hp hblk, runOps_drop hget]
    exact (bind_congr (bind_ok hstep)).trans rfl
  | error hop hstep => grind [resume_of_block, runOps_drop, bind_error, Graph.HasOp]

/-- A run that gets to an end has its answer, whatever the limit, if it is allowed enough
    blocks. -/
theorem resume_of_arrives (h : g.Arrives hosts c c') (hends : g.Ends hosts c' r) :
    ∃ n, ∀ limit fuel, n ≤ fuel →
      (resume g hosts limit fuel c.1).run.run c.2 = .ok r := by
  induction h using Relation.ReflTransGen.head_induction_on with
  | refl => exact ⟨0, fun _ _ _ => resume_of_ends hends⟩
  | head hmove _ ih =>
    obtain ⟨n, ih⟩ := ih
    -- a move into a block takes one of the blocks that are allowed
    have henter : ∀ {y : BlockId} {σ : Machine}, (∀ limit fuel, n ≤ fuel →
        (resume g hosts limit fuel (y, 0)).run.run σ = .ok r) → ∀ limit fuel, n + 1 ≤ fuel →
        (runFrom g hosts limit fuel y).run.run σ = .ok r := by
      intro y σ h limit fuel hle
      obtain ⟨k, rfl⟩ : ∃ k, fuel = k + 1 :=
        ⟨fuel - 1, (Nat.succ_pred_eq_of_pos (Nat.lt_of_lt_of_le n.succ_pos hle)).symm⟩
      exact h limit k (le_of_succ_le_succ hle)
    cases hmove with
    | next hop hstep =>
      exact ⟨n, fun limit fuel hle => (resume_next hop hstep).trans (ih limit fuel hle)⟩
    | jump hop hstep =>
      exact ⟨n + 1, fun limit fuel hle => (resume_jump hop hstep).trans (henter ih limit fuel hle)⟩
    | fall hfall =>
      exact ⟨n + 1, fun limit fuel hle => (resume_fall hfall).trans (henter ih limit fuel hle)⟩

/-- A run that is allowed fewer blocks gives the same answer or meets its limit. -/
theorem runFrom_stable (limit limit' : Nat) {fuel fuel' : Nat} (hle : fuel ≤ fuel') (x : BlockId)
    (σ : Machine) :
    (∃ σ', (runFrom g hosts limit fuel x).run.run σ = .ok (.error (.stepLimit limit), σ')) ∨
      (runFrom g hosts limit fuel x).run.run σ =
        (runFrom g hosts limit' fuel' x).run.run σ := by
  induction fuel generalizing fuel' x σ with
  | zero => exact .inl ⟨σ, rfl⟩
  | succ fuel ih =>
    obtain ⟨fuel', rfl⟩ : ∃ k, fuel' = k + 1 :=
      ⟨fuel' - 1, (Nat.succ_pred_eq_of_pos (Nat.lt_of_lt_of_le fuel.succ_pos hle)).symm⟩
    have hle' : fuel ≤ fuel' := le_of_succ_le_succ hle
    rw [runFrom_succ, runFrom_succ]
    by_cases hx : x = exit
    · subst hx
      exact .inr rfl
    have hx' : (x, 0).1 ≠ exit := hx
    cases hblk : g.block? x with
    | none =>
      have hfault : g.block x = .error .indexOutOfBounds := by
        unfold block Arena.fetch
        rw [show g.blocks.get? x = none from hblk]
      refine .inr ?_
      unfold resume
      rw [if_neg hx', if_neg hx', hfault]
      rfl
    | some blk =>
      rw [resume_of_block hx' hblk, resume_of_block hx' hblk]
      -- the operations of the block do not depend on what is left of the limit
      cases hops : (runOps g hosts x (blk.operations.drop 0) 0).run.run σ with
      | error e =>
        rw [bind_fault hops, bind_fault hops]
        exact .inr rfl
      | ok p =>
        obtain ⟨flow, σ'⟩ := p
        cases flow with
        | error e =>
          rw [bind_error hops, bind_error hops]
          exact .inr rfl
        | ok flow =>
          rw [bind_ok hops, bind_ok hops]
          cases flow with
          | ret v => exact .inr rfl
          | jump y => exact ih hle' y σ'
          | next => grind

end Exec

namespace Evaluator

variable (ev : Evaluator) {args : List Scalar}

/-- The machine at the start of a run. -/
def start (locals : Bindings SymbolId Scalar) : Machine :=
  { memory := ev.memory, values := Array.replicate ev.graph.values.size none, locals }

variable (hlayout : ev.graph.layout ≠ []) (hargs : args.length = ev.graph.parameters.length)
  (hlocals : ev.graph.initialLocals args = .ok locals)

include hlayout hargs hlocals in
theorem run_eq : ev.run args = (do
      let (r, final) ← (Exec.runFrom ev.graph ev.hosts ev.limit ev.limit Graph.entry).run.run
        (ev.start locals) return (r, { ev with memory := final.memory })) := by
  have hfull : ¬ ev.graph.layout.isEmpty = true := by simpa using hlayout
  unfold run
  rw [if_neg hfull]
  simp only [hargs, hlocals]
  rw [if_neg (not_not_intro rfl)]
  rfl

include hlayout hargs hlocals in
/-- A run of moves from the entry to an end is a run of the evaluator for every limit that is large
    enough, and a smaller limit gives the same answer or is met. -/
theorem run_of_arrives {r : Except EvalError (Option Scalar)} {σ : Machine}
    (hreach : ev.graph.Arrives ev.hosts ((Graph.entry, 0), ev.start locals) c)
    (hends : ev.graph.Ends ev.hosts c (r, σ)) : ∃ n, ∀ limit,
      (n ≤ limit → ({ ev with limit } : Evaluator).run args =
        .ok (r, { ev with limit, memory := σ.memory })) ∧
      (limit < n → ∃ ev', ({ ev with limit } : Evaluator).run args = .ok (r, ev') ∨
        ({ ev with limit } : Evaluator).run args = .ok (.error (.stepLimit limit), ev')) := by
  obtain ⟨n, hn⟩ := Exec.resume_of_arrives hreach hends
  -- whatever the run from the entry gives is the answer
  have hanswer : ∀ limit a τ,
      (Exec.runFrom ev.graph ev.hosts limit limit entry).run.run (ev.start locals) =
        .ok (a, τ) → ({ ev with limit } : Evaluator).run args =
        .ok (a, { ev with limit, memory := τ.memory }) := by
    intro limit a τ h
    have hrun := run_eq { ev with limit } hlayout hargs hlocals
    rw [hrun]
    show ((Exec.runFrom ev.graph ev.hosts limit limit entry).run.run (ev.start locals) >>=
      _) = _
    rw [h]
    rfl
  refine ⟨n + 1, fun limit => ⟨fun hle => ?_, fun hlt => ?_⟩⟩
  · obtain ⟨k, rfl⟩ : ∃ k, limit = k + 1 :=
      ⟨limit - 1, (Nat.succ_pred_eq_of_pos (Nat.lt_of_lt_of_le n.succ_pos hle)).symm⟩
    exact hanswer _ r σ (hn _ k (le_of_succ_le_succ hle))
  · rcases Exec.runFrom_stable limit limit (Nat.le_of_lt hlt) entry (ev.start locals)
      with ⟨σ', h⟩ | h
    · exact ⟨_, .inr (hanswer limit _ σ' h)⟩
    · exact ⟨_, .inl (hanswer limit r σ (h.trans (hn limit n (Nat.le_refl n))))⟩

end Evaluator
end MethodGraph
