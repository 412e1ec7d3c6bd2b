import MethodGraph.Proofs.Bytes
import MethodGraph.Proofs.Inversion
import MethodGraph.Proofs.Trace
/-!
  What computations of a machine uphold.

  `Upholds I E x Q` says that from a machine with `I` the computation `x` leads to one with `I`,
  that its errors are among `E`, and that what it gives satisfies `Q`.  It is proved for every
  operation once (`step_upholds`), for any `I` that does not mind scalars given to values, symbols
  and memory: what is left to show of such an `I` is what the few operations do to it that call
  functions, ask for storage, or begin and leave transactions.
-/

namespace MethodGraph

variable {b : BlockId} {e : EvalError} {op : Operation}

/-- Errors that a run meets when control gets lost. -/
def EvalError.isLost : EvalError → Bool
  | notConnected _ | unhandledOverflow _ | fellOff _ => true
  | _ => false

/-- Control goes on to where it may go; `falls` says whether that may be behind the operation. -/
def Flow.Within (P : BlockId → Prop) (falls : Bool) : Flow → Prop
  | next => falls = true
  | jump b => P b
  | ret _ => True

/-- A condition that holds whatever scalars values, symbols and the bytes of memory have. -/
structure Machine.Durable (I : Machine → Prop) : Prop where
  write {σ : Machine} (v : ValueId) (a : Scalar) : I σ →
    I { σ with values := σ.values.setIfInBounds v (some a) }
  writeLocal {σ : Machine} (s : SymbolId) (a : Scalar) : I σ →
    I { σ with locals := σ.locals.insert s a }
  store {σ : Machine} {memory : Memory} (hsize : memory.size = σ.memory.size) : I σ →
    I { σ with memory }

namespace Exec

variable {α β : Type} {I : Machine → Prop} {E : EvalError → Prop} {Q : α → Prop} {R : β → Prop}
  {x : Exec α} {g : Graph} {hosts : Bindings String HostFn}

/-- A computation that leads from machines with `I` to such machines. -/
def Upholds (I : Machine → Prop) (E : EvalError → Prop) (x : Exec α) (Q : α → Prop) : Prop :=
  ∀ σ r σ', I σ → x.run.run σ = .ok (r, σ') → I σ' ∧
    match r with
    | .ok a => Q a
    | .error e => E e

theorem get_run {σ : Machine} : (get : Exec Machine).run.run σ = .ok (.ok σ, σ) := rfl

theorem upholds_pure {a : α} (h : Q a) : Upholds I E (pure a) Q := by
  intro σ r σ' hσ hrun
  cases hrun
  exact ⟨hσ, h⟩

theorem upholds_throw (h : E e) : Upholds I E (throw e : Exec α) Q := by
  intro σ r σ' hσ hrun
  cases hrun
  exact ⟨hσ, h⟩

theorem Upholds.bind {f : α → Exec β} (hx : Upholds I E x Q) (hf : ∀ a, Q a → Upholds I E (f a) R) :
    Upholds I E (x >>= f) R := by
  intro σ r σ' hσ hrun
  rcases of_bind_ok hrun with ⟨a, σ1, hfirst, hrest⟩ | ⟨e, σ1, hfirst, hr⟩
  · obtain ⟨hσ1, ha⟩ := hx σ _ σ1 hσ hfirst
    exact hf a ha σ1 r σ' hσ1 hrest
  · cases hr
    exact hx σ _ σ' hσ hfirst

theorem upholds_lift_bind {y : Except Fault α} {f : α → Exec β}
    (h : ∀ a, y = .ok a → Upholds I E (f a) R) : Upholds I E (liftM y >>= f) R := by
  intro σ r σ' hσ hrun
  cases y with
  | error e => cases hrun
  | ok a => exact h a rfl σ r σ' hσ hrun

theorem upholds_get : Upholds I E (get : Exec Machine) I := by
  intro σ r σ' hσ hrun
  cases hrun
  exact ⟨hσ, hσ⟩

theorem upholds_modify {f : Machine → Machine} (hf : ∀ σ, I σ → I (f σ)) :
    Upholds I E (modify f : Exec Unit) fun _ => True := by
  intro σ r σ' hσ hrun
  cases hrun
  exact ⟨hf σ hσ, trivial⟩

theorem upholds_modifyGet {f : Machine → α × Machine} (hf : ∀ σ, I σ → I (f σ).2) :
    Upholds I E (modifyGet f : Exec α) fun _ => True := by
  intro σ r σ' hσ hrun
  cases hrun
  exact ⟨hf σ hσ, trivial⟩

/-! ## Reading and writing -/

variable (hI : Machine.Durable I) (hE : ∀ e, e.isLost = false → E e)

include hE

theorem upholds_read (v : ValueId) : Upholds I E (read v) fun _ => True := by
  refine upholds_get.bind fun σ _ => ?_
  split
  · exact upholds_pure trivial
  · exact upholds_throw (hE _ rfl)

theorem upholds_mapM_read (vs : List ValueId) : Upholds I E (vs.mapM read) fun _ => True := by
  induction vs with
  | nil => exact upholds_pure trivial
  | cons v vs ih =>
    rw [List.mapM_cons]
    exact (upholds_read hE v).bind fun _ _ => ih.bind fun _ _ => upholds_pure trivial

theorem upholds_readOperand (op : Operation) (i : Nat) :
    Upholds I E (readOperand op i) fun _ => True :=
  upholds_lift_bind fun v _ => upholds_read hE v

theorem upholds_arith (a : Arith) (op : Operation) (ty : Ty) :
    Upholds I E (arith a op ty) fun _ => True := by
  refine (upholds_readOperand hE op 0).bind fun l _ => ?_
  split
  · exact upholds_pure trivial
  · refine (upholds_readOperand hE op 1).bind fun r _ => upholds_lift_bind fun c _ => ?_
    split
    · exact upholds_pure trivial
    · exact upholds_throw (hE _ rfl)

theorem upholds_compare (c : Cmp) (op : Operation) : Upholds I E (compare g c op) fun _ => True :=
  (upholds_readOperand hE op 0).bind fun _ _ => (upholds_readOperand hE op 1).bind fun _ _ =>
    upholds_lift_bind fun _ _ => upholds_lift_bind fun _ _ => upholds_pure trivial

theorem upholds_access {y : Except Fault (Except EvalError α)}
    (h : ∀ e, y = .ok (.error e) → e.isLost = false) :
    Upholds I E (ofAccess y) fun _ => True := by
  grind [upholds_lift_bind, upholds_pure, upholds_throw, ofAccess]

omit hE in
theorem access_error {m : Memory} {address : Int64} {ty : Ty}
    (h : m.access address ty = .ok (.error e)) : e.isLost = false := by
  grind [EvalError.isLost, Memory.access]

theorem upholds_loadAt (address : Int64) (ty : Ty) :
    Upholds I E (loadAt address ty) fun _ => True := by
  refine upholds_get.bind fun σ _ => upholds_access hE fun e he => ?_
  unfold Memory.load at he
  obtain ⟨r, haccess, he⟩ := ok_of_bind he
  cases r with
  | ok p => cases he
  | error e' =>
    cases he
    exact access_error haccess

include hI

variable {P : BlockId → Prop}

omit hE in
theorem upholds_finish (op : Operation) (a : Scalar) :
    Upholds I E (finish op a) (Flow.Within P true) := by
  unfold finish
  split
  · exact (upholds_modify fun _ h => hI.write _ a h).bind fun _ _ => upholds_pure rfl
  · exact upholds_pure rfl

theorem upholds_storeAt (address : Int64) (ty : Ty) (a : Scalar) :
    Upholds I E (storeAt address ty a) fun _ => True :=
  upholds_get.bind fun _ _ => (upholds_access hE fun _ => access_error).bind fun _ _ =>
    upholds_modify fun σ h => hI.store (σ.memory.size_writeBytes _ _ _) h

theorem upholds_atomicAdd (op : Operation) : Upholds I E (atomicAdd g op) fun _ => True :=
  (upholds_readOperand hE op 0).bind fun _ _ => (upholds_readOperand hE op 1).bind fun _ _ =>
    upholds_lift_bind fun _ _ => upholds_lift_bind fun _ _ =>
      (upholds_loadAt hE _ _).bind fun _ _ => (upholds_storeAt hI hE _ _ _).bind fun _ _ =>
        upholds_pure trivial

omit hI hE

/-! ## Operations -/

/-- What a target that an operation asks for is among. -/
theorem mem_targets {i : Nat} (h : op.target i = .ok b) : b ∈ op.targets := by
  grind [Operation.target]

theorem mem_dispatch {cases : List Int64} {i : Int64}
    (h : dispatch cases op i = .ok b) : b ∈ op.targets := by
  unfold dispatch at h
  obtain ⟨d, hdefault, h⟩ := ok_of_bind h
  cases hfind : cases.findIdx? (· == i) with
  | some k =>
    rw [hfind] at h
    exact mem_targets h
  | none =>
    rw [hfind] at h
    cases h
    exact mem_targets hdefault

/-- What an operation must not break besides: functions may change the memory as they like, storage
    is handed out, and transactions begin, end and abort. -/
structure Bears (I : Machine → Prop) (P : BlockId → Prop) (hosts : Bindings String HostFn)
    (p : BlockId × Nat) (op : Operation) : Prop where
  call {name : String} {f : HostFn} {σ : Machine} (args : List Scalar)
    (ho : op.opcode = .call name) (hf : hosts.get? name = some f) : I σ →
    I { σ with memory := (f σ.memory args).1 }
  hand {n : Nat} {σ : Machine} (ho : op.opcode = .localAlloc n) : I σ →
    I { σ with memory := (σ.memory.alloc n).2,
               allocations := σ.allocations.insert p (σ.memory.alloc n).1 }
  begin {σ : Machine} (ho : op.opcode = .transactionBegin) (b : BlockId) (hb : b ∈ op.targets) :
    I σ → I { σ with transactions := ⟨σ.memory, b⟩ :: σ.transactions }
  finish {σ : Machine} (ho : op.opcode = .transactionEnd) (t : Transaction)
    (rest : List Transaction) (hopen : σ.transactions = t :: rest) : I σ →
    I { σ with transactions := rest }
  abort {σ : Machine} (ho : op.opcode = .transactionAbort) (t : Transaction)
    (rest : List Transaction) (hopen : σ.transactions = t :: rest) : I σ →
    I { σ with memory := t.snapshot, transactions := rest } ∧ P t.failure

/-- Control goes to a target of the operation, to a handler of its block, or to where a transaction
    that aborts sends it. -/
theorem step_upholds {p : BlockId × Nat} {blk : Block} (hI : Machine.Durable I)
    (hE : ∀ e, e.isLost = false → E e) (hblk : g.block? p.1 = some blk)
    (htargets : ∀ b ∈ op.targets, P b) (hhandlers : ∀ b ∈ blk.handlers, P b)
    (hthrow : op.opcode.canThrow = true → blk.handlers = [] → E (.unhandledOverflow p.1))
    (hbears : Bears I P hosts p op) :
    Upholds I E (step g hosts p op) (Flow.Within P (!op.isUnconditional)) := by
  refine upholds_lift_bind fun ty _ => ?_
  unfold Operation.isUnconditional
  cases hop : op.opcode with
  | constInt v => exact upholds_finish hI op _
  | constFloat x => exact upholds_finish hI op _
  | load s => exact upholds_get.bind fun _ _ => upholds_finish hI op _
  | store s =>
    exact (upholds_readOperand hE op 0).bind fun a _ =>
      (upholds_modify fun _ h => hI.writeLocal s a h).bind fun _ _ => upholds_pure rfl
  | storeOver =>
    refine (upholds_readOperand hE op 1).bind fun a _ => upholds_lift_bind fun v _ =>
      Upholds.bind (Q := fun _ => True) ?_ fun _ _ => upholds_pure rfl
    refine upholds_get.bind fun σ _ => ?_
    split
    · exact upholds_modify fun _ h => hI.write v a h
    · exact fun _ _ _ _ hrun => nomatch hrun
  | arith a => exact (upholds_arith hE a op ty).bind fun s _ => upholds_finish hI op s
  | compare c => exact (upholds_compare hE c op).bind fun _ _ => upholds_finish hI op _
  | convert unsigned =>
    exact upholds_lift_bind fun _ _ => upholds_lift_bind fun _ _ =>
      (upholds_readOperand hE op 0).bind fun _ _ => upholds_finish hI op _
  | checked a =>
    refine (upholds_readOperand hE op 0).bind fun l _ =>
      (upholds_readOperand hE op 1).bind fun r _ => ?_
    split
    · exact upholds_finish hI op _
    · refine upholds_lift_bind fun b hb => ?_
      obtain rfl : blk = b := Option.some.inj (hblk.symm.trans (Arena.fetch_eq_ok.1 hb))
      rw [hop] at hthrow
      cases hhead : blk.handlers with
      | nil => exact upholds_throw (hthrow rfl hhead)
      | cons c cs => exact upholds_pure (hhandlers c (hhead ▸ List.mem_cons_self))
  | loadAt =>
    exact (upholds_readOperand hE op 0).bind fun _ _ => (upholds_loadAt hE _ _).bind fun a _ =>
      upholds_finish hI op a
  | storeAt =>
    exact (upholds_readOperand hE op 0).bind fun _ _ =>
      (upholds_readOperand hE op 1).bind fun _ _ => upholds_lift_bind fun _ _ =>
        upholds_lift_bind fun _ _ => (upholds_storeAt hI hE _ _ _).bind fun _ _ => upholds_pure rfl
  | indexAt size =>
    exact (upholds_readOperand hE op 0).bind fun _ _ =>
      (upholds_readOperand hE op 1).bind fun _ _ => upholds_finish hI op _
  | offsetAt offset => exact (upholds_readOperand hE op 0).bind fun _ _ => upholds_finish hI op _
  | localAlloc size =>
    refine Upholds.bind (Q := fun _ => True) ?_ fun _ _ => upholds_finish hI op _
    refine upholds_get.bind fun σ _ => ?_
    split
    · exact upholds_pure trivial
    · exact upholds_modifyGet fun _ h => hbears.hand hop h
  | atomicAdd => exact (upholds_atomicAdd hI hE op).bind fun a _ => upholds_finish hI op a
  | call name =>
    refine Upholds.bind (Q := fun _ => True) ?_ fun a _ => upholds_finish hI op a
    refine (upholds_mapM_read hE op.operands).bind fun args _ => ?_
    split
    · exact upholds_throw (hE _ rfl)
    · next f hf => exact upholds_modifyGet fun _ h => hbears.call args hop hf h
  | goto => exact upholds_lift_bind fun b hb => upholds_pure (htargets b (mem_targets hb))
  | branch c =>
    refine (upholds_compare hE c op).bind fun holds _ => ?_
    cases holds with
    | true => exact upholds_lift_bind fun b hb => upholds_pure (htargets b (mem_targets hb))
    | false => exact upholds_pure rfl
  | ret =>
    dsimp only
    split
    · exact (upholds_read hE _).bind fun _ _ => upholds_pure trivial
    · exact upholds_pure trivial
  | switch cases =>
    exact (upholds_readOperand hE op 0).bind fun _ _ => upholds_lift_bind fun b hb =>
      upholds_pure (htargets b (mem_dispatch hb))
  | transactionBegin =>
    exact upholds_lift_bind fun b hb =>
      (upholds_modify fun σ hσ => hbears.begin hop b (mem_targets hb) hσ).bind fun _ _ =>
        upholds_pure rfl
  | transactionEnd =>
    intro σ r σ' hσ hrun
    rw [bind_ok get_run] at hrun
    cases hopen : σ.transactions with
    | nil =>
      rw [hopen] at hrun
      cases hrun
      exact ⟨hσ, hE _ rfl⟩
    | cons t rest =>
      rw [hopen] at hrun
      cases hrun
      exact ⟨hbears.finish hop t rest hopen hσ, rfl⟩
  | transactionAbort =>
    intro σ r σ' hσ hrun
    rw [bind_ok get_run] at hrun
    cases hopen : σ.transactions with
    | nil =>
      rw [hopen] at hrun
      cases hrun
      exact ⟨hσ, hE _ rfl⟩
    | cons t rest =>
      rw [hopen] at hrun
      cases hrun
      exact hbears.abort hop t rest hopen hσ

end Exec
end MethodGraph
