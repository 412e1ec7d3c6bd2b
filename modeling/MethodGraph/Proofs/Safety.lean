import Mathlib.Data.List.Perm.Subperm
import MethodGraph.Graph.Verify
import MethodGraph.Proofs.Exploring
import MethodGraph.Proofs.Invariant
/-!
  Runs of a graph that passes verification stay inside it.

  What verification found is turned into facts about placed blocks (`Graph.Checked`).  The placed
  blocks are closed under edges, so the rounds of `reachable` are enough and what is reachable is
  closed under edges, too.

  A run moves by the targets of operations, by handlers, by `next` and by the failure blocks that
  transactions have saved.  The invariant is that all of these are reachable and placed (`Stays`):
  a computation that starts with good failure blocks ends with good ones, leaves room for as many
  values, does not lose control, and what it gives is as it should be.  That is so for every
  operation (`step_stays`), for blocks and for whole runs.

  Which blocks a run enters is not part of its answer.  `runLogged` is the run with a list of them
  beside its answer, and its answer is that of the run.
-/

namespace MethodGraph

open List Exec Graph BitSet

variable {blk : Block} {b x : BlockId} {σ : Machine} {n : Nat} {op : Operation}

namespace Graph

variable {g : Graph} {p : BlockId × Nat}

/-! ## What verification finds -/

/-- A graph whose layout is in order. -/
structure Checked (g : Graph) : Prop where
  head : g.layout.head? = some entry
  nodup : g.layout.Nodup
  ends : g.chainEndCount = 1
  edges : ∀ x ∈ g.layout, ∀ y ∈ g.succsOf x, y ∈ g.layout
  targets : ∀ {x blk}, x ∈ g.layout → g.block? x = some blk →
    ∀ op ∈ blk.operations, ∀ y ∈ op.targets, y ∈ blk.succs
  throws : ∀ {x blk}, x ∈ g.layout → g.block? x = some blk →
    ∀ op ∈ blk.operations, op.opcode.canThrow = true → blk.handlers ≠ []
  falls : ∀ {x blk}, x ∈ g.layout → g.block? x = some blk → x ≠ exit → x ∈ g.reachable →
    blk.fallsThrough = true → ∃ y, blk.next = some y ∧ y ∈ blk.succs

theorem nodup_of_firstRepeat? {xs before : List BlockId} (h : firstRepeat? before xs = none) :
    xs.Nodup ∧ ∀ x ∈ xs, x ∉ before := by
  induction xs generalizing before with
  | nil => exact ⟨.nil, fun _ h => absurd h not_mem_nil⟩
  | cons x xs ih => grind [firstRepeat?]

theorem of_checkOps {ops : List Operation} (h : checkOps x blk ops = .ok ()) : ∀ op ∈ ops,
      (∀ y ∈ op.targets, y ∈ blk.succs) ∧ (op.opcode.canThrow = true → blk.handlers ≠ []) := by
  induction ops with
  | nil => exact fun _ h => absurd h not_mem_nil
  | cons op ops ih =>
    unfold checkOps at h
    dsimp only at h
    split at h
    · cases h
    split at h
    · cases h
    next hfind =>
    split at h
    · cases h
    next hthrow =>
    intro op' hop
    rcases mem_cons.1 hop with rfl | hop
    · grind
    · exact ih h op' hop

theorem of_forM {α : Type} {f : α → Except Flaw Unit} {xs : List α} (h : xs.forM f = .ok ()) :
    ∀ x ∈ xs, f x = .ok () := by
  induction xs with
  | nil => exact fun _ h => absurd h not_mem_nil
  | cons x xs ih =>
    have h : (f x >>= fun _ => xs.forM f) = .ok () := h
    obtain ⟨u, hx, h⟩ := ok_of_bind h
    intro y hy
    rcases mem_cons.1 hy with rfl | hy
    · exact hx
    · exact ih h y hy

/-- What the check of a single block finds. -/
theorem of_checkBlock {live : BitSet} (hblk : g.block? x = some blk)
    (h : g.checkBlock live x = .ok ()) : (∀ y ∈ blk.allSuccs, y ∈ g.layout) ∧
      checkOps x blk blk.operations = .ok () ∧
      (x ≠ exit → x ∈ live → blk.fallsThrough = true → checkFall x blk = .ok ()) := by
  unfold checkBlock at h
  rw [hblk] at h
  dsimp only at h
  split at h
  · cases h
  next hfind =>
  obtain ⟨u, hops, h⟩ := ok_of_bind h
  refine ⟨fun y hy => ?_, hops, fun hexit hlive hthrough => ?_⟩
  · simpa using find?_eq_none.1 hfind y hy
  · have hlive' : live.contains x = true := hlive
    have hcond : (decide (x ≠ exit) && live.contains x && blk.fallsThrough) = true := by
      rw [decide_eq_true hexit, hlive', hthrough]
      rfl
    have h' : (if (decide (x ≠ exit) && live.contains x && blk.fallsThrough) = true then
      checkFall x blk else pure ()) = .ok () := h
    rw [if_pos hcond] at h'
    exact h'

theorem of_checkFall (h : checkFall x blk = .ok ()) : ∃ y, blk.next = some y ∧ y ∈ blk.succs := by
  grind [checkFall]

theorem checked_of_verify (h : g.verify = .ok ()) : g.Checked := by
  unfold verify at h
  dsimp only at h
  split at h
  · cases h
  next hhead =>
  split at h
  · cases h
  split at h
  · cases h
  next hrepeat =>
  split at h
  · cases h
  next hends =>
  obtain ⟨_, hblocks, -⟩ := ok_of_bind h
  have hcheck := of_forM hblocks
  refine ⟨not_not.1 hhead, (nodup_of_firstRepeat? hrepeat).1, not_not.1 hends, ?_, ?_, ?_, ?_⟩
  · intro x hx y hy
    obtain ⟨blk, hblk, hy⟩ := mem_succsOf.1 hy
    exact (of_checkBlock hblk (hcheck x hx)).1 y hy
  · intro x blk hx hblk op hop
    exact (of_checkOps (of_checkBlock hblk (hcheck x hx)).2.1 op hop).1
  · intro x blk hx hblk op hop
    exact (of_checkOps (of_checkBlock hblk (hcheck x hx)).2.1 op hop).2
  · grind [of_checkFall, of_checkBlock, checkBlock]

namespace Checked

theorem entry_mem (h : g.Checked) : entry ∈ g.layout := List.mem_of_mem_head? h.head

/-- No more than one block of the layout is missing from the graph. -/
theorem length_layout (h : g.Checked) : g.layout.length ≤ g.blocks.size + 1 := by
  let there : BlockId → Bool := fun x => decide (x < g.blocks.size)
  have hthere : (g.layout.filter there).length ≤ g.blocks.size := by
    have hsub : g.layout.filter there ⊆ range g.blocks.size := fun x hx =>
      mem_range.2 (of_decide_eq_true (mem_filter.1 hx).2)
    have hle := (subperm_of_subset (h.nodup.filter _) hsub).length_le
    rwa [length_range] at hle
  -- a block that is missing falls into none, and one block does so
  have hmissing : (g.layout.filter fun x => !there x).length ≤ 1 := by
    rw [← h.ends]
    refine (monotone_filter_right g.layout fun x hx => ?_).length_le
    have hnone : g.block? x = none := by grind [Arena.get?_eq_none, block?]
    rw [hnone]
    rfl
  have hsplit := length_eq_length_filter_add (l := g.layout) there
  omega

/-- The entry is reachable, and what is reachable is placed and has reachable successors. -/
theorem reachable_closed (h : g.Checked) : entry ∈ g.reachable ∧
    (∀ x, x ∈ g.reachable → x ∈ g.layout) ∧
    ∀ x, x ∈ g.reachable → ∀ y ∈ g.succsOf x, y ∈ g.reachable := by
  obtain ⟨hentry, hclosed⟩ := reachable_saturated h.nodup h.entry_mem h.edges h.length_layout
  refine ⟨hentry, fun x hx => ?_, hclosed⟩
  have hreaches := reaches_of_mem_reachable hx
  clear hx
  induction hreaches with
  | entry => exact h.entry_mem
  | step _ hab ih => exact h.edges _ ih _ hab

end Checked
end Graph

/-! ## Computations that stay inside -/

/-- What a run is watched for: where control may go, how many values there is room for, and whether
    control may get lost. -/
structure Watch where
  inside : BlockId → Prop
  room : Nat
  strict : Bool

/-- There is the room that there should be, and if transactions abort, control goes to where it may
    go. -/
structure Machine.Guarded (W : Watch) (σ : Machine) : Prop where
  failures : ∀ t ∈ σ.transactions, W.inside t.failure
  room : σ.values.size = W.room

namespace Exec

variable {α : Type} {W : Watch} {g : Graph} {hosts : Bindings String HostFn}

/-- The computation keeps machines guarded, it does not lose control if that matters, and what it
    gives satisfies `Q`. -/
abbrev Stays (W : Watch) (x : Exec α) (Q : α → Prop) : Prop :=
  Upholds (Machine.Guarded W) (fun e => W.strict = true → e.isLost = false) x Q

/-- Control goes to a target of the operation, to a handler of its block, or to where a transaction
    that aborts sends it. -/
theorem step_stays {P : BlockId → Prop} (hblk : g.block? p.1 = some blk)
    (hinside : ∀ b, W.inside b → P b) (htargets : ∀ b ∈ op.targets, P b)
    (hbegin : op.opcode = .transactionBegin → ∀ b ∈ op.targets, W.inside b)
    (hhandlers : ∀ b ∈ blk.handlers, P b)
    (hthrow : W.strict = true → op.opcode.canThrow = true → blk.handlers ≠ []) :
    Stays W (step g hosts p op) (Flow.Within P (!op.isUnconditional)) := by
  have hdurable : Machine.Durable (Machine.Guarded W) :=
    ⟨fun _ _ h => ⟨h.failures, Array.size_setIfInBounds.trans h.room⟩,
      fun _ _ h => ⟨h.failures, h.room⟩, fun _ h => ⟨h.failures, h.room⟩⟩
  refine step_upholds hdurable (fun _ h _ => h) hblk htargets hhandlers
    (fun hop hnone hstrict => absurd hnone (hthrow hstrict hop))
    ⟨fun _ _ _ h => ⟨h.failures, h.room⟩, fun _ h => ⟨h.failures, h.room⟩, fun ho c hc h => ?_,
      fun _ t rest hopen h => ?_, fun _ t rest hopen h => ?_⟩
  · refine ⟨fun t ht => ?_, h.room⟩
    rcases mem_cons.1 ht with rfl | ht
    · exact hbegin ho c hc
    · exact h.failures t ht
  · exact ⟨fun u hu => h.failures u (hopen ▸ mem_cons_of_mem _ hu), h.room⟩
  · refine ⟨⟨fun u hu => h.failures u (hopen ▸ mem_cons_of_mem _ hu), h.room⟩, ?_⟩
    exact hinside _ (h.failures t (hopen ▸ mem_cons_self))

/-- No operation changes how many values there is room for. -/
theorem step_room (hop : g.HasOp p op) {σ' : Machine} {r : Except EvalError Flow}
    (h : (step g hosts p op).run.run σ = .ok (r, σ')) : σ'.values.size = σ.values.size := by
  obtain ⟨-, blk, hblk, -⟩ := hop
  have hstays : Stays ⟨fun _ => True, σ.values.size, false⟩ (step g hosts p op) _ :=
    step_stays (P := fun _ => True) hblk (fun _ _ => trivial) (fun _ _ => trivial)
      (fun _ _ _ => trivial) (fun _ _ => trivial) fun h => nomatch h
  exact (hstays σ r σ' ⟨fun _ _ => trivial, rfl⟩ h).1.room

end Exec

/-- Wherever control can go from a block, it may go: `P` says where from the block itself, and
    `W.inside` where from a transaction that begins there. -/
structure Block.Goes (W : Watch) (P : BlockId → Prop) (blk : Block) : Prop where
  inside : ∀ c, W.inside c → P c
  targets : ∀ op ∈ blk.operations, ∀ c ∈ op.targets, P c
  begins : ∀ op ∈ blk.operations, op.opcode = .transactionBegin → ∀ c ∈ op.targets, W.inside c
  handlers : ∀ c ∈ blk.handlers, P c
  throws : W.strict = true → ∀ op ∈ blk.operations, op.opcode.canThrow = true → blk.handlers ≠ []
  falls : blk.fallsThrough = true →
    (W.strict = true → blk.next ≠ none) ∧ ∀ c, blk.next = some c → P c

namespace Exec

variable {W : Watch} {P : BlockId → Prop} {g : Graph} {hosts : Bindings String HostFn}

/-- The last of a list of operations decides whether control can go on behind it. -/
theorem runOps_stays (hblk : g.block? b = some blk)
    (hgoes : blk.Goes W P) (ops : List Operation) (hops : ∀ op ∈ ops, op ∈ blk.operations)
    (i : Nat) : Stays W (runOps g hosts b ops i)
      (Flow.Within P (ops.getLast?.all fun op => !op.isUnconditional)) := by
  induction ops generalizing i with
  | nil => exact upholds_pure rfl
  | cons op ops ih =>
    have hrest := ih (fun op hop => hops op (mem_cons_of_mem _ hop)) (i + 1)
    have hop := hops op mem_cons_self
    refine (step_stays (p := (b, i)) hblk hgoes.inside (hgoes.targets op hop)
      (hgoes.begins op hop) hgoes.handlers fun hstrict => hgoes.throws hstrict op hop).bind
        fun flow hflow => ?_
    cases flow with
    | jump c => exact upholds_pure hflow
    | ret v => exact upholds_pure trivial
    | next => grind [Flow.Within]

/-! ## Blocks -/

/-- One block of a run: the block that control goes on to, or the value of the run. -/
def visit (g : Graph) (hosts : Bindings String HostFn) (b : BlockId) :
    Exec (BlockId ⊕ Option Scalar) := do
  if b = Graph.exit then return .inr none
  let blk ← g.block b
  match ← runOps g hosts b blk.operations 0 with
  | .ret v => return .inr v
  | .jump c => return .inl c
  | .next =>
    match blk.next with
    | some c => return .inl c
    | none => throw (.fellOff b)

/-- A run is one block after another. -/
theorem runFrom_eq_visit (limit fuel : Nat) (b : BlockId) :
    runFrom g hosts limit (fuel + 1) b = (do
      match ← visit g hosts b with
      | .inl c => runFrom g hosts limit fuel c
      | .inr v => return v) := by
  conv_lhs => rw [runFrom]
  unfold visit
  by_cases hb : b = exit
  · rw [if_pos hb, if_pos hb, pure_bind]
  · rw [if_neg hb, if_neg hb, bind_assoc]
    refine congrArg _ (funext fun blk => ?_)
    rw [bind_assoc]
    refine congrArg _ (funext fun flow => ?_)
    cases flow with
    | ret v => rw [pure_bind]
    | jump c => rw [pure_bind]
    | next =>
      cases blk.next with
      | some c => rw [pure_bind]
      | none => rfl

/-- A block leads to where control may go from it. -/
theorem visit_goes (hb : b ≠ Graph.exit → ∀ blk, g.block? b = some blk → blk.Goes W P) :
    Stays W (visit g hosts b) (fun r => ∀ c, r = .inl c → P c) := by
  unfold visit
  split
  · exact upholds_pure fun _ h => nomatch h
  next hexit =>
  refine upholds_lift_bind fun blk hblk => ?_
  have hblk : g.block? b = some blk := Arena.fetch_eq_ok.1 hblk
  have hgoes := hb hexit blk hblk
  refine (runOps_stays hblk hgoes blk.operations (fun _ h => h) 0).bind fun flow hflow => ?_
  cases flow with
  | ret v => exact upholds_pure fun _ h => nomatch h
  | jump c => exact upholds_pure fun _ h => Sum.inl.inj h ▸ hflow
  | next =>
    have hfalls := @hgoes.falls
    grind [Block.fallsThrough, Block.lastOp?, upholds_throw, upholds_pure, Flow.Within]

theorem visit_stays (hg : g.Checked) (hb : b ∈ g.reachable) :
    Stays ⟨(· ∈ g.reachable), n, true⟩ (visit g hosts b)
      (fun r => ∀ c, r = .inl c → c ∈ g.reachable) := by
  obtain ⟨-, hplaced, hclosed⟩ := hg.reachable_closed
  refine visit_goes fun hexit blk hblk => ?_
  have hsuccs : ∀ c ∈ blk.allSuccs, c ∈ g.reachable := fun c hc =>
    hclosed b hb c (mem_succsOf.2 ⟨blk, hblk, hc⟩)
  have hsucc : ∀ c ∈ blk.succs, c ∈ g.reachable := fun c hc =>
    hsuccs c (mem_append_left _ hc)
  have htargets : ∀ op ∈ blk.operations, ∀ c ∈ op.targets, c ∈ g.reachable := fun op hop c hc =>
    hsucc c (hg.targets (hplaced b hb) hblk op hop c hc)
  refine ⟨fun _ h => h, htargets, fun op hop _ => htargets op hop,
    fun c hc => hsuccs c (mem_append_right _ hc), fun _ => hg.throws (hplaced b hb) hblk,
    fun hthrough => ?_⟩
  obtain ⟨c, hnext, hc⟩ := hg.falls (hplaced b hb) hblk hexit hb hthrough
  rw [hnext]
  exact ⟨fun _ => Option.some_ne_none c, fun _ h => Option.some.inj h ▸ hsucc c hc⟩

/-! ## Runs -/

/-- A run from a block on, with the blocks that it enters beside its answer. -/
def runLogged (g : Graph) (hosts : Bindings String HostFn) (limit : Nat) :
    Nat → BlockId → Machine →
      List BlockId × Except Fault (Except EvalError (Option Scalar) × Machine)
  | 0, _, σ => ([], .ok (.error (.stepLimit limit), σ))
  | fuel + 1, b, σ =>
    match (visit g hosts b).run.run σ with
    | .ok (.ok (.inl c), σ') =>
      let (entered, answer) := runLogged g hosts limit fuel c σ'
      (b :: entered, answer)
    | .ok (.ok (.inr v), σ') => ([b], .ok (.ok v, σ'))
    | .ok (.error e, σ') => ([b], .ok (.error e, σ'))
    | .error f => ([b], .error f)

variable (g hosts) in
theorem runLogged_answer (limit fuel : Nat) (b : BlockId) (σ : Machine) :
    (runLogged g hosts limit fuel b σ).2 = (runFrom g hosts limit fuel b).run.run σ := by
  induction fuel generalizing b σ with
  | zero => rfl
  | succ fuel ih =>
    rw [runFrom_eq_visit]
    unfold runLogged
    cases hvisit : (visit g hosts b).run.run σ with
    | error f =>
      rw [bind_fault hvisit]
    | ok p =>
      obtain ⟨r, σ'⟩ := p
      cases r with
      | error e =>
        rw [bind_error hvisit]
      | ok r =>
        rw [bind_ok hvisit]
        cases r with
        | inl c => exact ih c σ'
        | inr v => rfl

variable (hosts) in
theorem runLogged_stays (hg : g.Checked) (hb : b ∈ g.reachable)
    (hσ : σ.Guarded ⟨(· ∈ g.reachable), n, true⟩) (limit fuel : Nat) :
    (∀ c ∈ (runLogged g hosts limit fuel b σ).1, c ∈ g.reachable) ∧
      ∀ e σ', (runLogged g hosts limit fuel b σ).2 = .ok (.error e, σ') → e.isLost = false := by
  induction fuel generalizing b σ with
  | zero =>
    refine ⟨fun _ h => absurd h not_mem_nil, fun e σ' h => ?_⟩
    cases h
    rfl
  | succ fuel ih =>
    have honly : ∀ c ∈ [b], c ∈ g.reachable := fun c hc => mem_singleton.1 hc ▸ hb
    unfold runLogged
    cases hvisit : (visit g hosts b).run.run σ with
    | error f => exact ⟨honly, fun _ _ h => nomatch h⟩
    | ok p =>
      obtain ⟨r, σ1⟩ := p
      obtain ⟨hσ1, hr⟩ := visit_stays hg hb σ r σ1 hσ hvisit
      cases r with
      | error e =>
        refine ⟨honly, fun e' σ' h => ?_⟩
        cases h
        exact hr rfl
      | ok r =>
        cases r with
        | inr v => exact ⟨honly, fun _ _ h => nomatch h⟩
        | inl c =>
          obtain ⟨hentered, hanswer⟩ := ih (hr c rfl) hσ1
          refine ⟨fun d hd => ?_, hanswer⟩
          rcases mem_cons.1 hd with rfl | hd
          · exact hb
          · exact hentered d hd

end Exec

/-- There is room for as many values all along a run. -/
theorem Graph.Arrives.room {g : Graph} {hosts : Bindings String HostFn}
    {c c' : (BlockId × Nat) × Machine} (h : g.Arrives hosts c c') :
    c'.2.values.size = c.2.values.size := by
  induction h with
  | refl => rfl
  | tail _ hmove ih =>
    rw [← ih]
    cases hmove with
    | next hop hstep => exact step_room hop hstep
    | jump hop hstep => exact step_room hop hstep
    | fall => rfl

namespace Evaluator

/-- Run the graph with the given arguments, with the blocks that the run enters beside its
    answer. -/
def runLogged (ev : Evaluator) (args : List Scalar) :
    List BlockId × Except Fault (Except EvalError (Option Scalar) × Evaluator) :=
  let g := ev.graph
  if g.layout.isEmpty then ([], .ok (.error (.notConnected g.name), ev))
  else if args.length ≠ g.parameters.length then
    ([], .ok (.error (.argumentCount g.parameters.length args.length), ev))
  else
    match g.initialLocals args with
    | .error f => ([], .error f)
    | .ok locals =>
      let (entered, answer) :=
        Exec.runLogged g ev.hosts ev.limit ev.limit Graph.entry (ev.start locals)
      (entered, answer.map fun (r, final) => (r, { ev with memory := final.memory }))

theorem runLogged_answer (ev : Evaluator) (args : List Scalar) :
    (ev.runLogged args).2 = ev.run args := by
  unfold runLogged run
  dsimp only
  split
  · rfl
  split
  · rfl
  cases ev.graph.initialLocals args with
  | error f => rfl
  | ok locals =>
    show Except.map _ (Exec.runLogged ev.graph ev.hosts ev.limit ev.limit Graph.entry
      (ev.start locals)).2 = _
    rw [Exec.runLogged_answer]
    show _ = (runFrom ev.graph ev.hosts ev.limit ev.limit entry).run.run
      (ev.start locals) >>= _
    cases (runFrom ev.graph ev.hosts ev.limit ev.limit entry).run.run
      (ev.start locals) <;> rfl

/-- A run of a graph that passes verification does not lose control, and all blocks that it enters
    are reachable and placed. -/
theorem run_within_verified (ev : Evaluator) (args : List Scalar)
    (h : ev.graph.verify = .ok ()) : (ev.runLogged args).2 = ev.run args ∧
      (∀ e ev', ev.run args = .ok (.error e, ev') → e.isLost = false) ∧
      ∀ b ∈ (ev.runLogged args).1, b ∈ ev.graph.reachable ∧ b ∈ ev.graph.layout := by
  refine ⟨ev.runLogged_answer args, ?_⟩
  have hg := Graph.checked_of_verify h
  obtain ⟨hentry, hplaced, -⟩ := hg.reachable_closed
  have hlayout : ev.graph.layout.isEmpty = false :=
    List.isEmpty_eq_false_iff_exists_mem.2 ⟨_, hg.entry_mem⟩
  rw [← runLogged_answer]
  unfold runLogged
  dsimp only
  rw [hlayout]
  by_cases hargs : args.length = ev.graph.parameters.length
  · rw [if_neg Bool.false_ne_true, if_neg (not_not.2 hargs)]
    cases ev.graph.initialLocals args with
    | error f => exact ⟨fun _ _ h => (nomatch h), fun _ h => absurd h List.not_mem_nil⟩
    | ok locals =>
      have hstart : (ev.start locals).Guarded
          ⟨(· ∈ ev.graph.reachable), ev.graph.values.size, true⟩ :=
        ⟨fun _ h => absurd h List.not_mem_nil, Array.size_replicate⟩
      obtain ⟨hentered, hanswer⟩ :=
        Exec.runLogged_stays ev.hosts hg hentry hstart ev.limit ev.limit
      refine ⟨fun e ev' h => ?_, fun b hb => ⟨hentered b hb, hplaced b (hentered b hb)⟩⟩
      dsimp only at h
      cases hrun : (Exec.runLogged ev.graph ev.hosts ev.limit ev.limit Graph.entry
          (ev.start locals)).2 with
      | error f =>
        rw [hrun] at h
        cases h
      | ok p =>
        obtain ⟨r, σ⟩ := p
        rw [hrun] at h
        cases h
        exact hanswer e σ hrun
  · rw [if_neg Bool.false_ne_true, if_pos hargs]
    refine ⟨fun e ev' h => ?_, fun _ h => absurd h List.not_mem_nil⟩
    cases h
    rfl

/-- A transaction that aborts and a checked addition that overflows: control leaves through the
    failure block and then through the handler. -/
def failsTwice : Graph where
  name := "f"
  blocks := .ofList [
    { operations := [⟨.transactionBegin, [], none, [2]⟩], succs := [2, 3], next := some 3 },
    {},
    { operations := [⟨.constInt 100, [], some 0, []⟩, ⟨.checked .add, [0, 0], some 1, []⟩],
      succs := [1], handlers := [4], next := some 1 },
    { operations := [⟨.transactionAbort, [], none, []⟩], next := some 2 },
    { operations := [⟨.ret, [0], none, []⟩], isHandler := true, next := some 3 }]
  values := .ofList [.int8, .int8]
  layout := [0, 4, 3, 2, 1]

theorem failsTwice_within_verified :
    failsTwice.verify = .ok () ∧
      (Evaluator.runLogged { graph := failsTwice } []).1 = [0, 3, 2, 4] ∧
      ∀ b ∈ (Evaluator.runLogged { graph := failsTwice } []).1,
        b ∈ failsTwice.reachable ∧ b ∈ failsTwice.layout := by
  have hverify : failsTwice.verify = .ok () := by decide
  exact ⟨hverify, by decide, (run_within_verified { graph := failsTwice } [] hverify).2.2⟩

end Evaluator
end MethodGraph
