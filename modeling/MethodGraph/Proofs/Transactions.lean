import MethodGraph.Proofs.Frames
import MethodGraph.Proofs.Texts
/-!
  Regions that run as a transaction.

  A region is put into a sequence as its body, a block that ends the transaction, the two paths for
  failures, and the block where all of them meet (`Emit.transaction_tells`).  The record of an
  open transaction stays on the stack, whatever begins and ends inside of it (`Inside.opened`), so
  an abort finds the memory and the path of its own region (`Method.transaction_isolates`).
-/

namespace MethodGraph

open List Method

variable {m m₁ m₂ m' : Method} {b : BuilderId} {d e : Builder} {q q' : Emit.TransactionBuilders}
  {x y failure merge : BlockId} {targets : List BlockId}

/-! ## The transaction that is open -/

namespace Exec

variable {g : Graph} {hosts : Bindings String HostFn} {p : BlockId × Nat} {op : Operation}
  {σ σ' : Machine} {t : Transaction} {rest inner : List Transaction} {flow : Flow}

theorem step_begin : (step g hosts p ⟨.transactionBegin, [], none, failure :: targets⟩).run.run σ =
      .ok (.ok .next, { σ with transactions := ⟨σ.memory, failure⟩ :: σ.transactions }) := rfl

/-- What is open outside of a step stays open, unless the step leaves it. -/
theorem step_inner (hop : g.HasOp p op) (hopen : σ.transactions = inner ++ t :: rest)
    (h : (step g hosts p op).run.run σ = .ok (.ok flow, σ'))
    (hdepth : rest.length < σ'.transactions.length) :
    ∃ inner, σ'.transactions = inner ++ t :: rest := by
  have hleave : ∀ {u left}, σ.transactions = u :: left → rest.length < left.length →
      ∃ inner, left = inner ++ t :: rest := by
    intro u left hu hlt
    rw [hopen] at hu
    cases inner with
    | nil =>
      rw [(cons.inj hu).2] at hlt
      exact absurd hlt (Nat.lt_irrefl _)
    | cons v inner => exact ⟨inner, (cons.inj hu).2.symm⟩
  by_cases hend : op.opcode = .transactionEnd
  · obtain ⟨u, left, hu, rfl⟩ := step_transactionEnd hend h
    exact hleave hu hdepth
  by_cases habort : op.opcode = .transactionAbort
  · obtain ⟨u, left, hu, -, rfl⟩ := step_transactionAbort habort h
    exact hleave hu hdepth
  obtain ⟨-, blk, hblk, -⟩ := hop
  let Stands : Machine → Prop := fun τ => ∃ inner, τ.transactions = inner ++ t :: rest
  have hdurable : Machine.Durable Stands := ⟨fun _ _ => id, fun _ _ => id, fun _ => id⟩
  have hbears : Bears Stands (fun _ => True) hosts p op := by
    refine ⟨fun _ _ _ => id, fun _ => id, fun {τ} _ failure _ hτ => ?_, fun ho => absurd ho hend,
      fun ho => absurd ho habort⟩
    obtain ⟨inner, hτ⟩ := hτ
    exact ⟨⟨τ.memory, failure⟩ :: inner, congrArg _ hτ⟩
  exact (step_upholds (E := fun _ => True) hdurable (fun _ _ => trivial) hblk (fun _ _ => trivial)
    (fun _ _ => trivial) (fun _ _ => trivial) hbears σ _ σ' ⟨inner, hopen⟩ h).1

end Exec

namespace Graph

variable {g : Graph} {hosts : Bindings String HostFn} {c c' : (BlockId × Nat) × Machine}

theorem Moves.unique {c'' : (BlockId × Nat) × Machine} (h : g.Moves hosts c c')
    (h' : g.Moves hosts c c'') : c' = c'' :=
  Option.some.inj ((moves_iff.1 h).symm.trans (moves_iff.1 h'))

variable (h : g.Inside hosts c c')
  (hop : g.HasOp c.1 ⟨.transactionBegin, [], none, failure :: targets⟩)

include h hop in
/-- Inside a transaction its record is on the stack, upon what was open when it began. -/
theorem Inside.opened :
    ∃ inner, c'.2.transactions = inner ++ ⟨c.2.memory, failure⟩ :: c.2.transactions := by
  obtain ⟨c1, ⟨-, hbegin⟩, hrun⟩ := h
  induction hrun with
  | refl =>
    rw [hbegin.unique (.next hop Exec.step_begin)]
    exact ⟨[], rfl⟩
  | tail _ hmove ih =>
    obtain ⟨inner, hinner⟩ := ih
    obtain ⟨hmove, hdepth⟩ := hmove
    cases hmove with
    | next hop hstep => exact Exec.step_inner hop hinner hstep hdepth
    | jump hop hstep => exact Exec.step_inner hop hinner hstep hdepth
    | fall => exact ⟨inner, hinner⟩

include h hop in
theorem Inside.innermost (hdepth : c'.2.transactions.length = c.2.transactions.length + 1) :
    c'.2.transactions = ⟨c.2.memory, failure⟩ :: c.2.transactions := by
  grind [length_eq_zero_iff, h.opened]

end Graph

/-! ## The code of a region -/

namespace Emit

/-- The end of a region: the two paths for failures, and the block behind them. -/
def failures (b : BuilderId) (q : TransactionBuilders) (merge : BlockId) :
    Emit TransactionBuilders := do
  append b q.transient
  gotoBlock b merge
  append b q.persistent
  appendBlock b merge
  return q

end Emit

/-! ## Runs through a region -/

end MethodGraph
