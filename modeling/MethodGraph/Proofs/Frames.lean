import Mathlib
import MethodGraph.Eval.Host
import MethodGraph.Graph.Verify
import MethodGraph.Proofs.Invariant
/-!
  The storage that a run hands out.

  An operation that asks for storage gets it once: the address is recorded under its place, and the
  memory grows by as many bytes.  Memory only ever grows, so what was handed out first stays inside
  it and what comes later does not touch it, were it not for transactions.  One that aborts brings
  back the memory as it was when the transaction began, and what was recorded since stays recorded.

  The main statement says that this is all that can go wrong.  The storage recorded in a run is
  inside the memory and that of different places is disjoint, in all states of the run, exactly if
  no transaction aborts after storage was handed out inside it (`storage_apart_iff`).

  What an operation can do to storage is said once (`Machine.Effect`).  From there the argument is
  about moves: where the innermost open transaction began is a state of the run (`Graph.Inside`),
  and what was recorded since then lies behind the memory of that state.
-/

namespace MethodGraph

open List Nat Bindings Memory Checked

variable {r : Except EvalError Flow} {flow : Flow} {σ σ' : Machine} {n : Nat} {o : Opcode}
  {op : Operation}

/-! ## Recorded storage -/

/-- The addresses of the bytes of a memory. -/
def Memory.span (m : Memory) : Set Int := Set.Ico base (base + m.size)

/-- The addresses of all bytes are numbers that an address can be. -/
def Memory.Addressable (m : Memory) : Prop := base + m.size ≤ 2 ^ 63

/-- A function from outside that takes no bytes away. -/
def HostFn.Grows (f : HostFn) : Prop := ∀ m args, m.size ≤ (f m args).1.size

variable {p : BlockId × Nat}

namespace Graph

/-- What the operation at a place does. -/
def Performs (g : Graph) (p : BlockId × Nat) (o : Opcode) : Prop :=
  ∃ op, g.HasOp p op ∧ op.opcode = o

theorem performs_iff {g : Graph} : g.Performs p o ↔ (g.op? p).map (·.opcode) = some o := by
  unfold Performs
  rw [Option.map_eq_some_iff]
  exact exists_congr fun op => and_congr_left' hasOp_iff

instance (g : Graph) (p : BlockId × Nat) (o : Opcode) : Decidable (g.Performs p o) :=
  decidable_of_iff _ performs_iff.symm

/-- The bytes recorded for a place that asks for storage. -/
def Recorded (g : Graph) (σ : Machine) (p : BlockId × Nat) (bytes : Set Int) : Prop :=
  ∃ n a, g.Performs p (.localAlloc n) ∧ σ.allocations.get? p = some a ∧
    bytes = Set.Ico a.toInt (a.toInt + n)

/-- All recorded storage is inside the memory, and that of different places is disjoint. -/
structure Apart (g : Graph) (σ : Machine) : Prop where
  inside : ∀ {p s}, g.Recorded σ p s → s ⊆ σ.memory.span
  disjoint : ∀ {p q s t}, p ≠ q → g.Recorded σ p s → g.Recorded σ q t → Disjoint s t

end Graph

/-! ## What an operation does to storage -/

namespace Memory

/-- What is handed out lies behind all bytes there were. -/
theorem alloc_spec (m : Memory) (n : Nat) : ∃ start, m.size ≤ start ∧
    (m.alloc n).1 = addressOf start ∧ (m.alloc n).2.size = start + max n 1 := by
  refine ⟨roundUp m.size 8, le_roundUp _ _, rfl, ?_⟩
  have hle : m.size ≤ roundUp m.size 8 := le_roundUp _ _
  show (m.bytes ++ Array.replicate _ 0).size = _
  rw [Array.size_append, Array.size_replicate]
  show m.size + _ = _
  omega

theorem size_le_alloc (m : Memory) (n : Nat) : m.size ≤ (m.alloc n).2.size := by
  obtain ⟨start, hle, -, hsize⟩ := m.alloc_spec n
  omega

theorem toInt_addressOf {position : Nat} (h : base + position < 2 ^ 63) :
    (addressOf position).toInt = base + position := by
  unfold base at h
  exact Int64.toInt_ofInt_of_le (by unfold base; omega) h

end Memory

/-- These neither record storage nor begin or leave a transaction. -/
def Opcode.keepsFrame : Opcode → Bool
  | localAlloc _ | transactionBegin | transactionEnd | transactionAbort => false
  | _ => true

/-- The storage recorded and the open transactions are as before, and no byte was taken away. -/
structure Machine.Extends (σ σ' : Machine) : Prop where
  allocations : σ'.allocations = σ.allocations
  transactions : σ'.transactions = σ.transactions
  size : σ.memory.size ≤ σ'.memory.size

namespace Machine.Extends

variable {σ σ1 σ2 : Machine}

theorem refl (σ : Machine) : σ.Extends σ := ⟨rfl, rfl, le_rfl⟩

theorem trans (h : σ.Extends σ1) (h' : σ1.Extends σ2) : σ.Extends σ2 :=
  ⟨h'.allocations.trans h.allocations, h'.transactions.trans h.transactions, h.size.trans h'.size⟩

end Machine.Extends

namespace Exec

variable {α β : Type} {x : Exec α} {g : Graph} {hosts : Bindings String HostFn}

theorem of_lift_bind {y : Except Fault α} {f : α → Exec β}
    {r : Except EvalError β × Machine} (h : (liftM y >>= f).run.run σ = .ok r) :
    ∃ a, y = .ok a ∧ (f a).run.run σ = .ok r := by
  cases y with
  | error e => cases h
  | ok a => exact ⟨a, rfl, h⟩

theorem durable_extends (σ : Machine) : Machine.Durable σ.Extends where
  write _ _ h := h.trans ⟨rfl, rfl, le_refl _⟩
  writeLocal _ _ h := h.trans ⟨rfl, rfl, le_refl _⟩
  store hsize h := h.trans ⟨rfl, rfl, le_of_eq hsize.symm⟩

theorem finish_extends {a : Scalar} (h : (finish op a).run.run σ = .ok (r, σ')) : σ.Extends σ' :=
  (upholds_finish (P := fun _ => True) (E := fun _ => True) (durable_extends σ) op a σ r σ'
    (.refl σ) h).1

theorem step_extends (hgrow : ∀ name f, hosts.get? name = some f → HostFn.Grows f)
    (hop : g.HasOp p op) (hq : op.opcode.keepsFrame = true)
    (h : (step g hosts p op).run.run σ = .ok (r, σ')) : σ.Extends σ' := by
  obtain ⟨-, blk, hblk, -⟩ := hop
  have hbears : Bears σ.Extends (fun _ => True) hosts p op := by
    refine ⟨fun {name f τ} args _ hf hτ => hτ.trans ⟨rfl, rfl, hgrow name f hf τ.memory args⟩,
      fun ho => ?_, fun ho => ?_, fun ho => ?_, fun ho => ?_⟩ <;> simp [ho, Opcode.keepsFrame] at hq
  have hupholds := step_upholds (E := fun _ => True) (durable_extends σ) (fun _ _ => trivial) hblk
    (fun _ _ => trivial) (fun _ _ => trivial) (fun _ _ => trivial) hbears
  exact (hupholds σ r σ' (.refl σ) h).1

end Exec

/-- What an operation at a place does to the storage of a run. -/
inductive Machine.Effect (g : Graph) (p : BlockId × Nat) (σ σ' : Machine) : Prop where
  | quiet (h : σ.Extends σ')
  /-- Storage is handed out and recorded. -/
  | hands {n : Nat} (hasks : g.Performs p (.localAlloc n)) (hnew : σ.allocations.get? p = none)
    (hrecord : σ'.allocations = σ.allocations.insert p (σ.memory.alloc n).1)
    (hopen : σ'.transactions = σ.transactions)
    (hsize : (σ.memory.alloc n).2.size ≤ σ'.memory.size)
  /-- A transaction begins and keeps the memory as it is. -/
  | begins {failure : BlockId} (hat : g.Performs p .transactionBegin)
    (hopen : σ'.transactions = ⟨σ.memory, failure⟩ :: σ.transactions)
    (hrecord : σ'.allocations = σ.allocations) (hmemory : σ'.memory = σ.memory)
  /-- The innermost transaction ends. -/
  | ends {t : Transaction} (hopen : σ.transactions = t :: σ'.transactions)
    (hrecord : σ'.allocations = σ.allocations) (hmemory : σ'.memory = σ.memory)
  /-- The innermost transaction aborts and its memory comes back, but nothing else does. -/
  | aborts {t : Transaction} (hat : g.Performs p .transactionAbort)
    (hopen : σ.transactions = t :: σ'.transactions) (hrecord : σ'.allocations = σ.allocations)
    (hmemory : σ'.memory = t.snapshot)

namespace Exec

variable {g : Graph} {hosts : Bindings String HostFn} {p : BlockId × Nat} {op : Operation}
  {σ σ' : Machine}

theorem effect_localAlloc (hop : g.HasOp p op)
    (ho : op.opcode = .localAlloc n) (h : (step g hosts p op).run.run σ = .ok (.ok flow, σ')) :
    σ.Effect g p σ' := by
  have hat : g.Performs p (.localAlloc n) := ⟨op, hop, ho⟩
  obtain ⟨opcode, operands, result, targets⟩ := op
  cases ho
  obtain ⟨ty, -, h⟩ := of_lift_bind h
  have h : (storageOf p n >>= fun a => finish _ (.int a)).run.run σ = .ok (.ok flow, σ') := h
  cases hget : σ.allocations.get? p with
  | some a =>
    have hstorage : (storageOf p n).run.run σ = .ok (.ok a, σ) := by
      unfold storageOf
      rw [bind_ok get_run, hget]
      rfl
    rw [bind_ok hstorage] at h
    exact .quiet (finish_extends h)
  | none =>
    have hstorage : (storageOf p n).run.run σ = .ok (.ok (σ.memory.alloc n).1,
        { σ with memory := (σ.memory.alloc n).2,
                 allocations := σ.allocations.insert p (σ.memory.alloc n).1 }) := by
      unfold storageOf
      rw [bind_ok get_run, hget]
      rfl
    rw [bind_ok hstorage] at h
    have hrest := finish_extends h
    exact .hands hat hget hrest.allocations hrest.transactions hrest.size

theorem step_transactionBegin (ho : op.opcode = .transactionBegin)
    (h : (step g hosts p op).run.run σ = .ok (.ok flow, σ')) :
    ∃ failure, σ' = { σ with transactions := ⟨σ.memory, failure⟩ :: σ.transactions } := by
  obtain ⟨opcode, operands, result, targets⟩ := op
  cases ho
  obtain ⟨ty, -, h⟩ := of_lift_bind h
  obtain ⟨failure, -, h⟩ := of_lift_bind h
  cases h
  exact ⟨failure, rfl⟩

theorem step_transactionEnd (ho : op.opcode = .transactionEnd)
    (h : (step g hosts p op).run.run σ = .ok (.ok flow, σ')) :
    ∃ t rest, σ.transactions = t :: rest ∧ σ' = { σ with transactions := rest } := by
  obtain ⟨opcode, operands, result, targets⟩ := op
  cases ho
  obtain ⟨ty, -, h⟩ := of_lift_bind h
  rw [bind_ok get_run] at h
  cases hopen : σ.transactions with
  | nil =>
    rw [hopen] at h
    cases h
  | cons t rest =>
    rw [hopen] at h
    cases h
    exact ⟨t, rest, rfl, rfl⟩

theorem step_transactionAbort (ho : op.opcode = .transactionAbort)
    (h : (step g hosts p op).run.run σ = .ok (.ok flow, σ')) :
    ∃ t rest, σ.transactions = t :: rest ∧ flow = .jump t.failure ∧
      σ' = { σ with memory := t.snapshot, transactions := rest } := by
  obtain ⟨opcode, operands, result, targets⟩ := op
  cases ho
  obtain ⟨ty, -, h⟩ := of_lift_bind h
  rw [bind_ok get_run] at h
  cases hopen : σ.transactions with
  | nil =>
    rw [hopen] at h
    cases h
  | cons t rest =>
    rw [hopen] at h
    cases h
    exact ⟨t, rest, rfl, rfl, rfl⟩

/-- Whatever an operation does, it is one of these. -/
theorem step_effect (hgrow : ∀ name f, hosts.get? name = some f → HostFn.Grows f)
    (hop : g.HasOp p op)
    (h : (step g hosts p op).run.run σ = .ok (.ok flow, σ')) : σ.Effect g p σ' := by
  cases hq : op.opcode.keepsFrame with
  | true => exact .quiet (step_extends hgrow hop hq h)
  | false =>
    cases ho : op.opcode with
    | localAlloc n => exact effect_localAlloc hop ho h
    | transactionBegin =>
      obtain ⟨failure, rfl⟩ := step_transactionBegin ho h
      exact .begins ⟨op, hop, ho⟩ rfl rfl rfl
    | transactionEnd =>
      obtain ⟨t, rest, hopen, rfl⟩ := step_transactionEnd ho h
      exact .ends hopen rfl rfl
    | transactionAbort =>
      obtain ⟨t, rest, hopen, -, rfl⟩ := step_transactionAbort ho h
      exact .aborts ⟨op, hop, ho⟩ hopen rfl rfl
    | _ => simp [ho, Opcode.keepsFrame] at hq

end Exec

/-! ## What holds inside a transaction -/

/-- What is true of a machine since a transaction began with another one: the transaction is still
    open, and what was recorded since lies behind the memory of that time. -/
structure Machine.Since (b σ : Machine) : Prop where
  opened : ∃ inner t, σ.transactions = inner ++ t :: b.transactions ∧ t.snapshot = b.memory ∧
    ∀ u ∈ inner, b.memory.size ≤ u.snapshot.size
  size : b.memory.size ≤ σ.memory.size
  old : ∀ {p a}, b.allocations.get? p = some a → σ.allocations.get? p = some a
  new : ∀ {p a}, b.allocations.get? p = none → σ.allocations.get? p = some a →
    Memory.base + b.memory.size ≤ a.toInt

namespace Machine.Since

variable {g : Graph} {p : BlockId × Nat} {b σ σ' : Machine}

theorem begin {failure : BlockId} (hopen : σ.transactions = ⟨b.memory, failure⟩ :: b.transactions)
    (hrecord : σ.allocations = b.allocations) (hmemory : σ.memory = b.memory) : b.Since σ := by
  refine ⟨⟨[], _, hopen, rfl, fun _ h => absurd h not_mem_nil⟩, hmemory ▸ le_refl _,
    fun h => hrecord ▸ h, fun hnone hsome => ?_⟩
  rw [hrecord, hnone] at hsome
  cases hsome

/-- It stays true while the transaction is open. -/
theorem effect (h : b.Since σ) (he : σ.Effect g p σ') (hfits : σ'.memory.Addressable)
    (hdepth : b.transactions.length < σ'.transactions.length) : b.Since σ' := by
  obtain ⟨⟨inner, t, hopened, hsnapshot, hinner⟩, hsize, hold, hnew⟩ := h
  -- what leaves a transaction leaves an inner one
  have hleave : ∀ {u}, σ.transactions = u :: σ'.transactions →
      ∃ rest, inner = u :: rest ∧ σ'.transactions = rest ++ t :: b.transactions := by
    intro u hu
    rw [hopened] at hu
    cases inner with
    | nil =>
      rw [(cons.inj hu).2] at hdepth
      exact absurd hdepth (lt_irrefl _)
    | cons v rest =>
      obtain ⟨rfl, hrest⟩ := cons.inj hu
      exact ⟨rest, rfl, hrest.symm⟩
  cases he with
  | quiet he =>
    refine ⟨⟨inner, t, he.transactions.trans hopened, hsnapshot, hinner⟩, hsize.trans he.size,
      fun h => he.allocations ▸ hold h, fun hnone hsome => hnew hnone (he.allocations ▸ hsome)⟩
  | @hands n _ hfresh hrecord hopen hgrown =>
    obtain ⟨start, hle, haddress, halloc⟩ := σ.memory.alloc_spec n
    refine ⟨⟨inner, t, hopen.trans hopened, hsnapshot, hinner⟩, by omega, ?_, ?_⟩
    · grind [get?_insert]
    · grind [get?_insert, Memory.Addressable, toInt_addressOf]
  | begins _ hopen hrecord hmemory =>
    refine ⟨⟨⟨σ.memory, _⟩ :: inner, t, hopen.trans (congrArg _ hopened), hsnapshot, ?_⟩,
      hmemory ▸ hsize, fun h => hrecord ▸ hold h,
      fun hnone hsome => hnew hnone (hrecord ▸ hsome)⟩
    intro u hu
    rcases mem_cons.1 hu with rfl | hu
    · exact hsize
    · exact hinner u hu
  | ends hopen hrecord hmemory =>
    obtain ⟨rest, rfl, hrest⟩ := hleave hopen
    exact ⟨⟨rest, t, hrest, hsnapshot, fun u hu => hinner u (mem_cons_of_mem _ hu)⟩,
      hmemory ▸ hsize, fun h => hrecord ▸ hold h,
      fun hnone hsome => hnew hnone (hrecord ▸ hsome)⟩
  | aborts _ hopen hrecord hmemory =>
    obtain ⟨rest, rfl, hrest⟩ := hleave hopen
    exact ⟨⟨rest, t, hrest, hsnapshot, fun u hu => hinner u (mem_cons_of_mem _ hu)⟩,
      hmemory ▸ hinner _ mem_cons_self, fun h => hrecord ▸ hold h,
      fun hnone hsome => hnew hnone (hrecord ▸ hsome)⟩

end Machine.Since

/-! ## Along a run -/

namespace Graph

variable {g : Graph} {hosts : Bindings String HostFn} {σ σ' : Machine}
  {start b c c' : (BlockId × Nat) × Machine}

/-- A move by an operation that does `o`. -/
def MovesBy (g : Graph) (hosts : Bindings String HostFn) (o : Opcode)
    (c c' : (BlockId × Nat) × Machine) : Prop := g.Performs c.1 o ∧ g.Moves hosts c c'

/-- The run is inside the transaction that began at `b`, or inside one that began in it. -/
def Inside (g : Graph) (hosts : Bindings String HostFn) (b c : (BlockId × Nat) × Machine) : Prop :=
  ∃ b', g.MovesBy hosts .transactionBegin b b' ∧ Relation.ReflTransGen (fun x y =>
    g.Moves hosts x y ∧ b.2.transactions.length < y.2.transactions.length) b' c

/-- The transaction that began at `b` aborts at `c`, and storage was handed out inside it. -/
structure AbortsAfterStorage (g : Graph) (hosts : Bindings String HostFn)
    (b c : (BlockId × Nat) × Machine) : Prop where
  inside : g.Inside hosts b c
  innermost : c.2.transactions.length = b.2.transactions.length + 1
  aborts : ∃ c', g.MovesBy hosts .transactionAbort c c'
  handed : ∃ p n, g.Performs p (.localAlloc n) ∧ 0 < n ∧ b.2.allocations.get? p = none ∧
    c.2.allocations.get? p ≠ none

theorem Performs.unique {o' : Opcode} (h : g.Performs p o) (h' : g.Performs p o') : o = o' := by
  exact Option.some.inj ((performs_iff.1 h).symm.trans (performs_iff.1 h'))

variable (hgrow : ∀ name f, hosts.get? name = some f → HostFn.Grows f)

include hgrow in
theorem Moves.effect (h : g.Moves hosts c c') : c.2.Effect g c.1 c'.2 := by
  cases h with
  | next hop hstep => exact Exec.step_effect hgrow hop hstep
  | jump hop hstep => exact Exec.step_effect hgrow hop hstep
  | fall => exact .quiet (.refl _)

/-- Such a move is a step of the operation. -/
theorem MovesBy.step (h : g.MovesBy hosts o c c') : ∃ op flow, op.opcode = o ∧
    (Exec.step g hosts c.1 op).run.run c.2 = .ok (.ok flow, c'.2) := by
  obtain ⟨hat, hmove⟩ := h
  cases hmove with
  | next hop hstep => exact ⟨_, .next, hat.unique ⟨_, hop, rfl⟩ ▸ rfl, hstep⟩
  | jump hop hstep => exact ⟨_, _, hat.unique ⟨_, hop, rfl⟩ ▸ rfl, hstep⟩
  | fall hfall =>
    have hnone := performs_iff.1 hat
    rw [hfall.op?_eq_none] at hnone
    cases hnone

theorem Inside.move (h : g.Inside hosts b c) (hmove : g.Moves hosts c c')
    (hdepth : b.2.transactions.length < c'.2.transactions.length) : g.Inside hosts b c' := by
  obtain ⟨b', hbegin, hrun⟩ := h
  exact ⟨b', hbegin, hrun.tail ⟨hmove, hdepth⟩⟩

theorem Inside.arrives (h : g.Inside hosts b c) : g.Arrives hosts b c := by
  obtain ⟨b', hbegin, hrun⟩ := h
  exact .head hbegin.2 (hrun.lift id fun _ _ h => h.1)

include hgrow in
theorem Inside.since (hfits : ∀ c, g.Arrives hosts b c → c.2.memory.Addressable)
    (h : g.Inside hosts b c) : b.2.Since c.2 := by
  obtain ⟨b', hbegin, hrun⟩ := h
  induction hrun with
  | refl =>
    obtain ⟨op, flow, ho, hstep⟩ := hbegin.step
    obtain ⟨failure, hb'⟩ := Exec.step_transactionBegin ho hstep
    rw [hb']
    exact .begin rfl rfl rfl
  | tail hrest hmove ih =>
    have harrives : g.Arrives hosts b _ :=
      (Inside.arrives ⟨b', hbegin, hrest⟩).tail hmove.1
    exact ih.effect (hmove.1.effect hgrow) (hfits _ harrives) hmove.2

/-! ## Storage stays apart -/

theorem Recorded.of_eq {s : Set Int} (h : g.Recorded σ' p s)
    (hrecord : σ'.allocations = σ.allocations) : g.Recorded σ p s := by
  obtain ⟨n, a, hasks, hget, hs⟩ := h
  exact ⟨n, a, hasks, hrecord ▸ hget, hs⟩

theorem apart_start {memory : Memory} {values : Array (Option Scalar)}
    {locals : Bindings SymbolId Scalar} : g.Apart { memory, values, locals } := by
  refine ⟨fun h => ?_, fun _ h => ?_⟩
  all_goals
    obtain ⟨n, a, -, hget, -⟩ := h
    cases hget

/-- More memory does no harm. -/
theorem Apart.grow (h : g.Apart σ) (hrecord : σ'.allocations = σ.allocations)
    (hsize : σ.memory.size ≤ σ'.memory.size) : g.Apart σ' := by
  refine ⟨fun hp => (h.inside (hp.of_eq hrecord)).trans ?_,
    fun hne hp hq => h.disjoint hne (hp.of_eq hrecord) (hq.of_eq hrecord)⟩
  exact Set.Ico_subset_Ico_right (by omega)

/-- New storage is behind all that was handed out. -/
theorem Apart.hands (h : g.Apart σ) (hasks : g.Performs p (.localAlloc n))
    (hrecord : σ'.allocations = σ.allocations.insert p (σ.memory.alloc n).1)
    (hsize : (σ.memory.alloc n).2.size ≤ σ'.memory.size) (hfits : σ'.memory.Addressable) :
    g.Apart σ' := by
  obtain ⟨start, hle, haddress, halloc⟩ := σ.memory.alloc_spec n
  unfold Memory.Addressable at hfits
  have hstart : (addressOf start).toInt = base + start :=
    toInt_addressOf (by omega)
  have hrecorded : ∀ {q s}, g.Recorded σ' q s →
      q = p ∧ s = Set.Ico (base + start) (base + start + n) ∨
        q ≠ p ∧ g.Recorded σ q s := by grind [get?_insert, Recorded, hasks.unique]
  have hold : ∀ {q s}, g.Recorded σ q s →
      Disjoint s (Set.Ico (base + start) (base + start + n)) := by
    intro q s hq
    refine Set.disjoint_left.2 fun x hx hx' => ?_
    have hlt := (h.inside hq hx).2
    have hge := hx'.1
    omega
  constructor
  · have hinside := @h.inside
    grind [Memory.span]
  · grind [h.disjoint]

/-- The memory that comes back has room for what was recorded when the transaction began, and so
    for everything if nothing was handed out since. -/
theorem Apart.abort {β : Machine} (hβ : g.Apart β) (hσ : g.Apart σ) (hsince : β.Since σ)
    (hnone : ∀ {p n}, g.Performs p (.localAlloc n) → 0 < n → β.allocations.get? p = none →
      σ.allocations.get? p = none)
    (hrecord : σ'.allocations = σ.allocations) (hmemory : σ'.memory = β.memory) :
    g.Apart σ' := by
  refine ⟨fun hp => ?_, fun hne hp hq => hσ.disjoint hne (hp.of_eq hrecord) (hq.of_eq hrecord)⟩
  obtain ⟨n, a, hasks, hget, rfl⟩ := hp.of_eq hrecord
  rw [hmemory]
  rcases Nat.eq_zero_or_pos n with rfl | hpos
  · simp
  cases hold : β.allocations.get? _ with
  | none =>
    rw [hnone hasks hpos hold] at hget
    cases hget
  | some a' =>
    cases (hsince.old hold).symm.trans hget
    exact hβ.inside ⟨n, _, hasks, hold, rfl⟩

/-- Every open transaction began at a state of the run, which satisfies `P`. -/
def Began (g : Graph) (hosts : Bindings String HostFn) (start : (BlockId × Nat) × Machine)
    (P : Machine → Prop) (c : (BlockId × Nat) × Machine) : Prop :=
  ∀ inner t rest, c.2.transactions = inner ++ t :: rest → ∃ b, g.Arrives hosts start b ∧
    g.Inside hosts b c ∧ b.2.memory = t.snapshot ∧ b.2.transactions = rest ∧ P b.2

theorem Began.move {P : Machine → Prop} (h : g.Began hosts start P c)
    (hgrow : ∀ name f, hosts.get? name = some f → HostFn.Grows f)
    (hreach : g.Arrives hosts start c) (hc : P c.2) (hmove : g.Moves hosts c c') :
    g.Began hosts start P c' := by
  intro inner t rest hopen'
  have hkeep : ∀ inner', c.2.transactions = inner' ++ t :: rest → ∃ b, g.Arrives hosts start b ∧
      g.Inside hosts b c' ∧ b.2.memory = t.snapshot ∧ b.2.transactions = rest ∧ P b.2 := by
    intro inner' hopen
    obtain ⟨b, hb, hinside, hsnapshot, hrest, hP⟩ := h inner' t rest hopen
    refine ⟨b, hb, hinside.move hmove ?_, hsnapshot, hrest, hP⟩
    rw [hopen', hrest, length_append, length_cons]
    omega
  cases hmove.effect hgrow with
  | quiet he => exact hkeep inner (he.transactions ▸ hopen')
  | hands _ _ _ hopen _ => exact hkeep inner (hopen ▸ hopen')
  | begins hat hopen _ hmemory =>
    rw [hopen] at hopen'
    cases inner with
    | nil =>
      obtain ⟨rfl, rfl⟩ := cons.inj hopen'
      exact ⟨c, hreach, ⟨c', ⟨hat, hmove⟩, .refl⟩, rfl, rfl, hc⟩
    | cons u inner => exact hkeep inner (cons.inj hopen').2
  | @ends u hopen _ _ => exact hkeep (u :: inner) (hopen.trans (congrArg _ hopen'))
  | @aborts u _ hopen _ _ => exact hkeep (u :: inner) (hopen.trans (congrArg _ hopen'))

include hgrow in
/-- If no transaction aborts after storage was handed out inside it, storage stays apart. -/
theorem apart_of_arrives (hfits : ∀ c, g.Arrives hosts start c → c.2.memory.Addressable)
    (hstart : g.Apart start.2) (hopen : start.2.transactions = [])
    (hnever : ∀ b c, g.Arrives hosts start b → ¬ g.AbortsAfterStorage hosts b c)
    (hc : g.Arrives hosts start c) : g.Apart c.2 ∧ g.Began hosts start g.Apart c := by
  induction hc with
  | refl =>
    refine ⟨hstart, fun inner t rest h => ?_⟩
    rw [hopen] at h
    simp at h
  | @tail c c' hreach hmove ih =>
    obtain ⟨hapart, hbegan⟩ := ih
    refine ⟨?_, hbegan.move hgrow hreach hapart hmove⟩
    cases hmove.effect hgrow with
    | quiet he => exact hapart.grow he.allocations he.size
    | hands hasks _ hrecord _ hsize =>
      exact hapart.hands hasks hrecord hsize (hfits _ (hreach.tail hmove))
    | begins _ _ hrecord hmemory => exact hapart.grow hrecord (hmemory ▸ le_refl _)
    | ends _ hrecord hmemory => exact hapart.grow hrecord (hmemory ▸ le_refl _)
    | aborts hat hopen hrecord hmemory =>
      obtain ⟨b, hb, hinside, hsnapshot, hrest, hapart'⟩ := hbegan [] _ _ hopen
      refine hapart'.abort hapart (hinside.since hgrow fun c h => hfits c (hb.trans h)) ?_ hrecord
        (hmemory.trans hsnapshot.symm)
      intro p n hasks hpos hnone
      by_contra hsome
      refine hnever b c hb ⟨hinside, ?_, ⟨c', hat, hmove⟩, p, n, hasks, hpos, hnone, hsome⟩
      rw [hopen, hrest]
      rfl

include hgrow in
/-- Storage that was handed out inside a transaction is outside the memory when it has aborted. -/
theorem AbortsAfterStorage.not_apart (hfits : ∀ c, g.Arrives hosts b c → c.2.memory.Addressable)
    (h : g.AbortsAfterStorage hosts b c) : ∃ c', g.Moves hosts c c' ∧ ¬ g.Apart c'.2 := by
  obtain ⟨hinside, hdepth, ⟨c', haborts⟩, p, n, hasks, hpos, hnone, hsome⟩ := h
  refine ⟨c', haborts.2, fun hapart => ?_⟩
  have hsince := hinside.since hgrow hfits
  obtain ⟨op, flow, ho, hstep⟩ := haborts.step
  obtain ⟨t, rest, hopen, -, hc'⟩ := Exec.step_transactionAbort ho hstep
  -- the transaction that aborts is the one that began at `b`
  obtain ⟨inner, u, hopened, hsnapshot, -⟩ := hsince.opened
  have hinner : inner = [] := by
    rw [hopened, length_append, length_cons] at hdepth
    exact length_eq_zero_iff.1 (by omega)
  rw [hinner, hopen] at hopened
  obtain ⟨rfl, -⟩ := cons.inj hopened
  obtain ⟨a, ha⟩ := Option.ne_none_iff_exists'.1 hsome
  have hbehind := hsince.new hnone ha
  have hin : a.toInt ∈ c'.2.memory.span :=
    hapart.inside ⟨n, a, hasks, by rw [hc']; exact ha, rfl⟩ ⟨Int.le_refl _, by omega⟩
  rw [hc'] at hin
  have hlt : a.toInt < base + t.snapshot.size := hin.2
  rw [hsnapshot] at hlt
  omega

end Graph

/-- What is bound is among the keys. -/
theorem Bindings.mem_keys {κ α : Type} [DecidableEq κ] {b : Bindings κ α} {k : κ} {x : α}
    (h : b.get? k = some x) : k ∈ b.keys := by
  obtain ⟨ps⟩ := b
  induction ps with
  | nil => cases h
  | cons p ps ih => grind [lookup, Bindings.keys, Bindings.get?]

namespace Evaluator

/-- In a run with functions from outside that take no memory away, and with no more memory than
    there are addresses: the storage recorded is inside the memory and that of different places is
    disjoint, in every state, if and only if no transaction aborts after storage was handed out
    inside it. -/
theorem storage_apart_iff (ev : Evaluator) (locals : Bindings SymbolId Scalar)
    (hgrow : ∀ name f, ev.hosts.get? name = some f → HostFn.Grows f)
    (hfits : ∀ c, ev.graph.Arrives ev.hosts ((Graph.entry, 0), ev.start locals) c →
      c.2.memory.Addressable) :
    (∀ c, ev.graph.Arrives ev.hosts ((Graph.entry, 0), ev.start locals) c →
      ev.graph.Apart c.2) ↔
    ∀ b c, ev.graph.Arrives ev.hosts ((Graph.entry, 0), ev.start locals) b →
      ¬ ev.graph.AbortsAfterStorage ev.hosts b c := by
  constructor
  · intro hapart b c hb h
    obtain ⟨c', hmove, hnot⟩ := h.not_apart hgrow fun c hc => hfits c (hb.trans hc)
    exact hnot (hapart c' ((hb.trans h.inside.arrives).tail hmove))
  · intro hnever c hc
    exact (Graph.apart_of_arrives hgrow hfits Graph.apart_start rfl hnever hc).1

/-- Storage is asked for before and after a transaction, which has a function from outside reserve
    memory and then aborts. -/
def asksOutside : Graph where
  name := "f"
  blocks := .ofList [
    { operations := [⟨.localAlloc 8, [], some 0, []⟩, ⟨.transactionBegin, [], none, [2]⟩],
      succs := [2, 3], next := some 3 },
    {},
    { operations := [⟨.localAlloc 4, [], some 2, []⟩, ⟨.localAlloc 8, [], some 3, []⟩,
        ⟨.ret, [], none, []⟩], next := some 1 },
    { operations := [⟨.call "alloc", [], some 1, []⟩, ⟨.transactionAbort, [], none, []⟩],
      next := some 2 }]
  values := .ofList [.address, .address, .address, .address]
  layout := [0, 3, 2, 1]

theorem asksOutside_apart :
    let ev : Evaluator := { graph := asksOutside, hosts := .insert .empty "alloc" HostFn.allocate }
    ev.graph.verify = .ok () ∧ (∀ name f, ev.hosts.get? name = some f → HostFn.Grows f) ∧
      (∀ c, ev.graph.Arrives ev.hosts ((Graph.entry, 0), ev.start .empty) c →
        c.2.memory.Addressable ∧ ev.graph.Apart c.2) ∧
      ∃ c, ev.graph.Arrives ev.hosts ((Graph.entry, 0), ev.start .empty) c ∧
        c.2.allocations.keys = [(0, 0), (2, 0), (2, 1)] := by
  intro ev
  have hgrow : ∀ name f, ev.hosts.get? name = some f → HostFn.Grows f := by
    intro name f hf
    obtain rfl : HostFn.allocate = f := by
      rw [Bindings.get?_insert] at hf
      split at hf
      · exact Option.some.inj hf
      · cases hf
    exact fun m args => m.size_le_alloc _
  have hhalts : ev.graph.halts ev.hosts 10 ((Graph.entry, 0), ev.start .empty) = true := by
    decide +kernel
  have hfits : ∀ c, ev.graph.Arrives ev.hosts ((Graph.entry, 0), ev.start .empty) c →
      c.2.memory.Addressable := by
    intro c hc
    have hall : ∀ c ∈ ev.graph.trail ev.hosts 10 ((Graph.entry, 0), ev.start .empty),
        Memory.base + c.2.memory.size ≤ 2 ^ 63 := by decide +kernel
    exact hall c (Graph.mem_trail_of_arrives hhalts hc)
  have hnever : ∀ b c, ev.graph.Arrives ev.hosts ((Graph.entry, 0), ev.start .empty) b →
      ¬ ev.graph.AbortsAfterStorage ev.hosts b c := by
    rintro b c hb ⟨hinside, -, ⟨c', haborts⟩, p, n, -, -, hnone, hsome⟩
    have hall : ∀ b ∈ ev.graph.trail ev.hosts 10 ((Graph.entry, 0), ev.start .empty),
        ev.graph.Performs b.1 .transactionBegin →
        ∀ c ∈ ev.graph.trail ev.hosts 10 ((Graph.entry, 0), ev.start .empty),
          ev.graph.Performs c.1 .transactionAbort →
          ∀ p ∈ c.2.allocations.keys, b.2.allocations.get? p ≠ none := by decide +kernel
    obtain ⟨b', hbegin, -⟩ := id hinside
    refine hall b (Graph.mem_trail_of_arrives hhalts hb) hbegin.1 c
      (Graph.mem_trail_of_arrives hhalts (hb.trans hinside.arrives)) haborts.1 p ?_ hnone
    obtain ⟨a, ha⟩ := Option.ne_none_iff_exists'.1 hsome
    exact Bindings.mem_keys ha
  have hlast : ∃ c ∈ ev.graph.trail ev.hosts 10 ((Graph.entry, 0), ev.start .empty),
      c.2.allocations.keys = [(0, 0), (2, 0), (2, 1)] := by decide +kernel
  obtain ⟨c, hc, hkeys⟩ := hlast
  exact ⟨by decide +kernel, hgrow,
    fun c hc => ⟨hfits c hc, (storage_apart_iff ev .empty hgrow hfits).2 hnever c hc⟩,
    c, Graph.arrives_of_mem_trail hc, hkeys⟩

/-- Storage is asked for in a transaction that aborts, and again behind it. -/
def asksInside : Graph where
  name := "f"
  blocks := .ofList [
    { operations := [⟨.transactionBegin, [], none, [2]⟩], succs := [2, 3], next := some 3 },
    {},
    { operations := [⟨.localAlloc 8, [], some 1, []⟩, ⟨.ret, [], none, []⟩], next := some 1 },
    { operations := [⟨.localAlloc 8, [], some 0, []⟩, ⟨.transactionAbort, [], none, []⟩],
      next := some 2 }]
  values := .ofList [.address, .address]
  layout := [0, 3, 2, 1]

/-- The same bytes are recorded for two different operations. -/
theorem asksInside_shared :
    let ev : Evaluator := { graph := asksInside }
    ev.graph.verify = .ok () ∧
      ∃ c p q s, ev.graph.Arrives ev.hosts ((Graph.entry, 0), ev.start .empty) c ∧ p ≠ q ∧
        ev.graph.Recorded c.2 p s ∧ ev.graph.Recorded c.2 q s ∧ s.Nonempty := by
  intro ev
  have hlast : ∃ c ∈ ev.graph.trail ev.hosts 10 ((Graph.entry, 0), ev.start .empty),
      c.2.allocations.get? (3, 0) = some 0x1000 ∧ c.2.allocations.get? (2, 0) = some 0x1000 := by
    decide +kernel
  obtain ⟨c, hc, hfirst, hsecond⟩ := hlast
  refine ⟨by decide +kernel, c, (3, 0), (2, 0), Set.Ico 0x1000 (0x1000 + (8 : Nat)),
    Graph.arrives_of_mem_trail hc, by decide, ⟨8, _, by decide +kernel, hfirst, rfl⟩,
    ⟨8, _, by decide +kernel, hsecond, rfl⟩, ⟨0x1000, by decide⟩⟩

end Evaluator
end MethodGraph
