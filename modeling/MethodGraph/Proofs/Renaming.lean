import Mathlib.Data.List.Forall2
import Mathlib.Data.Option.Basic
import Mathlib.Logic.Relator
import MethodGraph.Method.Compiled
import MethodGraph.Proofs.Trace
/-!
  Runs do not depend on the names of blocks and values.

  A `Renaming` says which block of one graph stands for which block of another, and likewise for
  values; no block or value stands for two.  If each block has the operations of the block that it
  stands for, with everything in them renamed, then the two graphs run alike
  (`Evaluator.run_renamed`): they give the same result, or end in an error of the same kind, which
  may name other blocks and values.

  The proof is a relational one.  `Exec.Renames` says of two computations that they take machines
  that differ in names to such machines.  It holds of the primitives and is kept when computations
  are put together, so it holds of every operation and then, by induction on the blocks still
  allowed, of whole runs.
-/

namespace MethodGraph

open Arena Operation Graph Array

variable {x x' : BlockId} {α β : Type} {v v' : ValueId}

/-- Which block, and which value, stands for which. -/
structure Renaming where
  block : BlockId → BlockId → Prop
  value : ValueId → ValueId → Prop
  blocks_unique : Relator.BiUnique block
  values_unique : Relator.BiUnique value

namespace Renaming

variable (ρ : Renaming)

theorem block_eq {y y' : BlockId} (hx : ρ.block x x') (hy : ρ.block y y') :
    x = y ↔ x' = y' := Relator.rel_eq ρ.blocks_unique hx hy

theorem value_eq {w w' : ValueId} (hv : ρ.value v v') (hw : ρ.value w w') :
    v = w ↔ v' = w' := Relator.rel_eq ρ.values_unique hv hw

end Renaming

/-- The error without the names of blocks and values. -/
def EvalError.kind : EvalError → EvalError
  | undefinedValue _ => undefinedValue 0
  | unhandledOverflow _ => unhandledOverflow 0
  | fellOff _ => fellOff 0
  | e => e

variable {ρ : Renaming}

/-- The operation with everything in it renamed. -/
structure Operation.Renamed (ρ : Renaming) (op op' : Operation) : Prop where
  opcode : op'.opcode = op.opcode
  operands : List.Forall₂ ρ.value op.operands op'.operands
  result : Option.Rel ρ.value op.result op'.result
  targets : List.Forall₂ ρ.block op.targets op'.targets

/-- A block whose content and surroundings are renamed, as far as a run looks at them. -/
structure Block.Renamed (ρ : Renaming) (blk blk' : Block) : Prop where
  operations : List.Forall₂ (Operation.Renamed ρ) blk.operations blk'.operations
  handlers : List.Forall₂ ρ.block blk.handlers blk'.handlers
  next : Option.Rel ρ.block blk.next blk'.next

/-- A graph with other names. -/
structure Graph.Renamed (ρ : Renaming) (g g' : Graph) : Prop where
  blocks : ∀ x x', ρ.block x x' → ∃ blk blk', g.block? x = some blk ∧ g'.block? x' = some blk' ∧
    blk.Renamed ρ blk'
  types : ∀ v v', ρ.value v v' → ∃ ty, g.values.get? v = some ty ∧ g'.values.get? v' = some ty
  entry : ρ.block Graph.entry Graph.entry
  exit : ρ.block Graph.exit Graph.exit
  symbols : g'.symbols = g.symbols

/-- A machine in the same state, where blocks and values have other names. -/
structure Machine.Renamed (ρ : Renaming) (σ σ' : Machine) : Prop where
  memory : σ'.memory = σ.memory
  values : ∀ v v', ρ.value v v' → σ'.values[v']? = σ.values[v]?
  locals : σ'.locals = σ.locals
  allocations : ∀ x x' i, ρ.block x x' →
    σ'.allocations.get? (x', i) = σ.allocations.get? (x, i)
  transactions : List.Forall₂ (fun t t' => t'.snapshot = t.snapshot ∧ ρ.block t.failure t'.failure)
    σ.transactions σ'.transactions

theorem Machine.Renamed.lt_size {σ σ' : Machine} (h : σ.Renamed ρ σ')
    (hv : ρ.value v v') : v < σ.values.size ↔ v' < σ'.values.size := by
  have hvalues := @h.values
  grind

/-- Control goes to the same place, which has another name. -/
inductive Flow.Renamed (ρ : Renaming) : Flow → Flow → Prop where
  | next : Renamed ρ .next .next
  | jump {x x' : BlockId} (h : ρ.block x x') : Renamed ρ (.jump x) (.jump x')
  | ret (a : Option Scalar) : Renamed ρ (.ret a) (.ret a)

/-- Two runs end alike: with the same fault, with errors of the same kind, or with results that `R`
    relates and machines that differ in names. -/
inductive Exec.Ends (ρ : Renaming) {α β : Type} (R : α → β → Prop) :
    Except Fault (Except EvalError α × Machine) → Except Fault (Except EvalError β × Machine) →
      Prop where
  | fault (f : Fault) : Ends ρ R (.error f) (.error f)
  | error {e e' : EvalError} (h : e'.kind = e.kind) (σ σ' : Machine) :
    Ends ρ R (.ok (.error e, σ)) (.ok (.error e', σ'))
  | ok {a : α} {c : β} {σ σ' : Machine} (h : R a c) (hσ : σ.Renamed ρ σ') :
    Ends ρ R (.ok (.ok a, σ)) (.ok (.ok c, σ'))

/-- Two computations that end with the same fault or with results that `R` relates. -/
inductive Matched {α β : Type} (R : α → β → Prop) : Except Fault α → Except Fault β → Prop where
  | ok {a : α} {c : β} (h : R a c) : Matched R (.ok a) (.ok c)
  | error (f : Fault) : Matched R (.error f) (.error f)

theorem Matched.self (x : Except Fault α) : Matched Eq x x := by
  cases x with
  | ok a => exact .ok rfl
  | error f => exact .error f

variable {R : α → β → Prop}

theorem Matched.bind {γ δ : Type} {S : γ → δ → Prop} {x : Except Fault α} {y : Except Fault β}
    {f : α → Except Fault γ} {k : β → Except Fault δ} (hx : Matched R x y)
    (hf : ∀ a c, R a c → Matched S (f a) (k c)) : Matched S (x >>= f) (y >>= k) := by
  cases hx with
  | ok h => exact hf _ _ h
  | error f => exact .error f

theorem Matched.imp {S : α → β → Prop} {x : Except Fault α} {y : Except Fault β} (h : Matched R x y)
    (hR : ∀ a c, R a c → S a c) : Matched S x y := by
  cases h with
  | ok h => exact .ok (hR _ _ h)
  | error f => exact .error f

theorem Matched.of_ok {x : Except Fault α} {y : Except Fault β} {a : α} (h : Matched R x y)
    (hx : x = .ok a) : ∃ c, y = .ok c ∧ R a c := by
  cases h with
  | ok h =>
    cases hx
    exact ⟨_, rfl, h⟩
  | error f => cases hx

/-- Two optional things that are related are both there or both absent. -/
theorem rel_cases {a : Option α} {c : Option β} (h : Option.Rel R a c)
    : a = none ∧ c = none ∨ ∃ x y, a = some x ∧ c = some y ∧ R x y := by
  cases h with
  | some h => exact .inr ⟨_, _, rfl, rfl, h⟩
  | none => exact .inl ⟨rfl, rfl⟩

theorem rel_getElem? {xs : List α} {ys : List β} (h : List.Forall₂ R xs ys) (i : Nat)
    : Option.Rel R xs[i]? ys[i]? := by
  induction h generalizing i with
  | nil => exact .none
  | cons h _ ih =>
    cases i with
    | zero => exact .some h
    | succ i => exact ih i

theorem rel_head? {xs : List α} {ys : List β} (h : List.Forall₂ R xs ys)
    : Option.Rel R xs.head? ys.head? := by
  cases h with
  | nil => exact .none
  | cons h _ => exact .some h

namespace Exec

variable {α β γ δ : Type} {R : α → β → Prop} {S : γ → δ → Prop}

/-- On machines that differ in names the two computations do the same. -/
def Renames (ρ : Renaming) (R : α → β → Prop) (x : Exec α) (y : Exec β) : Prop :=
  ∀ σ σ', σ.Renamed ρ σ' → Ends ρ R (x.run.run σ) (y.run.run σ')

/-! ## Putting computations together -/

theorem renames_pure {a : α} {c : β} (h : R a c) : Renames ρ R (pure a) (pure c) :=
  fun _ _ hσ => .ok h hσ

theorem renames_throw {e e' : EvalError} (h : e'.kind = e.kind) :
    Renames ρ R (throw e) (throw e') := fun σ σ' _ => .error h σ σ'

theorem Renames.bind {x : Exec α} {y : Exec β} {f : α → Exec γ} {k : β → Exec δ}
    (hx : Renames ρ R x y) (hf : ∀ a c, R a c → Renames ρ S (f a) (k c)) :
    Renames ρ S (x >>= f) (y >>= k) := by
  intro σ σ' hσ
  have hends := hx σ σ' hσ
  cases hr : x.run.run σ with
  | error e =>
    rw [hr] at hends
    cases hr' : y.run.run σ' with
    | ok r =>
      rw [hr'] at hends
      cases hends
    | error e' =>
      rw [hr'] at hends
      cases hends
      rw [bind_fault hr, bind_fault hr']
      exact .fault e
  | ok p =>
    obtain ⟨a, τ⟩ := p
    rw [hr] at hends
    cases hr' : y.run.run σ' with
    | error e' =>
      rw [hr'] at hends
      cases hends
    | ok p' =>
      obtain ⟨c, τ'⟩ := p'
      rw [hr'] at hends
      cases hends with
      | error h =>
        rw [bind_error hr, bind_error hr']
        exact .error h _ _
      | ok h hτ =>
        rw [bind_ok hr, bind_ok hr']
        exact hf _ _ h _ _ hτ

theorem renames_lift {x : Except Fault α} {y : Except Fault β} (h : Matched R x y) :
    Renames ρ R (liftM x : Exec α) (liftM y : Exec β) := by
  intro σ σ' hσ
  cases h with
  | ok h => exact .ok h hσ
  | error f => exact .fault f

theorem renames_get : Renames ρ (Machine.Renamed ρ) (get : Exec Machine) get :=
  fun _ _ hσ => .ok hσ hσ

theorem renames_modify {f k : Machine → Machine}
    (h : ∀ σ σ', σ.Renamed ρ σ' → (f σ).Renamed ρ (k σ')) :
    Renames ρ Eq (modify f : Exec PUnit) (modify k) :=
  fun σ σ' hσ => .ok rfl (h σ σ' hσ)

theorem renames_modifyGet {f : Machine → α × Machine} {k : Machine → β × Machine}
    (h : ∀ σ σ', σ.Renamed ρ σ' → R (f σ).1 (k σ').1 ∧ (f σ).2.Renamed ρ (k σ').2) :
    Renames ρ R (modifyGet f : Exec α) (modifyGet k) :=
  fun σ σ' hσ => .ok (h σ σ' hσ).1 (h σ σ' hσ).2

/-! ## Primitives -/

theorem renames_read (hv : ρ.value v v') : Renames ρ Eq (read v) (read v') := by
  refine renames_get.bind fun σ σ' hσ => ?_
  rw [hσ.values v v' hv]
  cases σ.values[v]?.join with
  | none => exact renames_throw rfl
  | some a => exact renames_pure rfl

theorem renames_mapM_read {vs vs' : List ValueId} (h : List.Forall₂ ρ.value vs vs') :
    Renames ρ Eq (vs.mapM read) (vs'.mapM read) := by
  induction h with
  | nil => exact renames_pure rfl
  | cons hv _ ih =>
    rw [List.mapM_cons, List.mapM_cons]
    refine (renames_read hv).bind fun a _ ha => ih.bind fun as _ has => ?_
    subst ha has
    exact renames_pure rfl

theorem renames_write (hv : ρ.value v v') (a : Scalar) : Renames ρ Eq (write v a) (write v' a) := by
  refine renames_modify fun σ σ' hσ => { hσ with values := fun w w' hw => ?_ }
  have hsame : v = w ↔ v' = w' := ρ.value_eq hv hw
  have hsize := hσ.lt_size hv
  show (σ'.values.setIfInBounds v' _)[w']? = (σ.values.setIfInBounds v _)[w]?
  rw [getElem?_setIfInBounds, getElem?_setIfInBounds, hσ.values w w' hw]
  simp only [hsame, hsize]

theorem renames_overwrite (hv : ρ.value v v') (a : Scalar) :
    Renames ρ Eq (overwrite v a) (overwrite v' a) := by
  refine renames_get.bind fun σ σ' hσ => ?_
  have hsize := hσ.lt_size hv
  by_cases h : v < σ.values.size
  · rw [if_pos h, if_pos (hsize.1 h)]
    exact renames_write hv a
  · rw [if_neg h, if_neg fun h' => h (hsize.2 h')]
    exact renames_lift (.error _)

theorem renames_readLocal (s : SymbolId) : Renames ρ Eq (readLocal s) (readLocal s) := by
  refine renames_get.bind fun σ σ' hσ => renames_pure ?_
  rw [hσ.locals]

theorem renames_writeLocal (s : SymbolId) (a : Scalar) :
    Renames ρ Eq (writeLocal s a) (writeLocal s a) := by
  refine renames_modify fun σ σ' hσ => { hσ with locals := ?_ }
  show σ'.locals.insert s a = σ.locals.insert s a
  rw [hσ.locals]

theorem renames_access (x : Except Fault (Except EvalError α)) :
    Renames ρ Eq (ofAccess x) (ofAccess x) := by
  refine (renames_lift (Matched.self x)).bind fun r _ hr => ?_
  subst hr
  cases r with
  | ok a => exact renames_pure rfl
  | error e => exact renames_throw rfl

theorem renames_loadAt (address : Int64) (ty : Ty) :
    Renames ρ Eq (loadAt address ty) (loadAt address ty) := by
  refine renames_get.bind fun σ σ' hσ => ?_
  rw [hσ.memory]
  exact renames_access _

theorem renames_storeAt (address : Int64) (ty : Ty) (a : Scalar) :
    Renames ρ Eq (storeAt address ty a) (storeAt address ty a) := by
  refine renames_get.bind fun σ σ' hσ => ?_
  rw [hσ.memory]
  refine (renames_access _).bind fun p _ hp => ?_
  subst hp
  refine renames_modify fun τ τ' hτ => { hτ with memory := ?_ }
  show τ'.memory.write p ty a = τ.memory.write p ty a
  rw [hτ.memory]

theorem renames_storageOf (hx : ρ.block x x') (i size : Nat) :
    Renames ρ Eq (storageOf (x, i) size) (storageOf (x', i) size) := by
  refine renames_get.bind fun σ σ' hσ => ?_
  rw [hσ.allocations x x' i hx]
  cases σ.allocations.get? (x, i) with
  | some address => exact renames_pure rfl
  | none =>
    refine renames_modifyGet fun τ τ' hτ => ⟨?_, ?_⟩
    · show (τ.memory.alloc size).1 = (τ'.memory.alloc size).1
      rw [hτ.memory]
    · refine { hτ with memory := ?_, allocations := fun y y' j hy => ?_ }
      · show (τ'.memory.alloc size).2 = (τ.memory.alloc size).2
        rw [hτ.memory]
      · grind [Bindings.get?_insert, ρ.block_eq, hτ.allocations, hτ.memory]

/-! ## Operations -/

variable {g g' : Graph} {hosts hosts' : Bindings String HostFn} {op op' : Operation}

theorem matched_operand (h : op.Renamed ρ op') (i : Nat) :
    Matched ρ.value (op.operand i) (op'.operand i) := by
  unfold operand
  rcases rel_cases (rel_getElem? h.operands i) with ⟨hv, hv'⟩ | ⟨v, v', hv, hv', h⟩
  · rw [hv, hv']
    exact .error _
  · rw [hv, hv']
    exact .ok h

theorem matched_target (h : op.Renamed ρ op') (i : Nat) :
    Matched ρ.block (op.target i) (op'.target i) := by
  unfold target
  rcases rel_cases (rel_getElem? h.targets i) with ⟨hx, hx'⟩ | ⟨x, x', hx, hx', h⟩
  · rw [hx, hx']
    exact .error _
  · rw [hx, hx']
    exact .ok h

theorem matched_typeOf (hg : g.Renamed ρ g') (hv : ρ.value v v') :
    Matched Eq (g.typeOf v) (g'.typeOf v') := by
  obtain ⟨ty, hty, hty'⟩ := hg.types v v' hv
  unfold typeOf
  rw [fetch_eq_ok.2 hty, fetch_eq_ok.2 hty']
  exact .ok rfl

variable (hg : g.Renamed ρ g') (h : op.Renamed ρ op')

include hg h in
theorem matched_resultType : Matched Eq (op.resultType g) (op'.resultType g') := by
  unfold resultType
  rcases rel_cases h.result with ⟨hv, hv'⟩ | ⟨v, v', hv, hv', h⟩
  · rw [hv, hv']
    exact .ok rfl
  · rw [hv, hv']
    exact matched_typeOf hg h

theorem renames_readOperand (h : op.Renamed ρ op') (i : Nat) :
    Renames ρ Eq (readOperand op i) (readOperand op' i) :=
  (renames_lift (matched_operand h i)).bind fun _ _ hv => renames_read hv

theorem renames_finish (h : op.Renamed ρ op') (a : Scalar) :
    Renames ρ (Flow.Renamed ρ) (finish op a) (finish op' a) := by
  unfold finish
  rcases rel_cases h.result with ⟨hv, hv'⟩ | ⟨v, v', hv, hv', h⟩
  · rw [hv, hv']
    exact renames_pure .next
  · rw [hv, hv']
    exact (renames_write h a).bind fun _ _ _ => renames_pure .next

theorem renames_arith (h : op.Renamed ρ op') (a : Arith) (ty : Ty) :
    Renames ρ Eq (arith a op ty) (arith a op' ty) := by
  refine (renames_readOperand h 0).bind fun l _ hl => ?_
  subst hl
  split
  · exact renames_pure rfl
  · refine (renames_readOperand h 1).bind fun r _ hr => ?_
    subst hr
    refine (renames_lift (Matched.self _)).bind fun c _ hc => ?_
    subst hc
    split
    · exact renames_pure rfl
    · exact renames_throw rfl

include hg h in
theorem renames_compare (c : Cmp) : Renames ρ Eq (compare g c op) (compare g' c op') := by
  refine (renames_readOperand h 0).bind fun l _ hl => ?_
  refine (renames_readOperand h 1).bind fun r _ hr => ?_
  refine (renames_lift (matched_operand h 0)).bind fun v _ hv => ?_
  refine (renames_lift (matched_typeOf hg hv)).bind fun ty _ hty => ?_
  subst hl hr hty
  exact renames_pure rfl

include hg h in
theorem renames_atomicAdd : Renames ρ Eq (atomicAdd g op) (atomicAdd g' op') := by
  refine (renames_readOperand h 0).bind fun address _ haddress => ?_
  refine (renames_readOperand h 1).bind fun delta _ hdelta => ?_
  refine (renames_lift (matched_operand h 1)).bind fun v _ hv => ?_
  refine (renames_lift (matched_typeOf hg hv)).bind fun ty _ hty => ?_
  subst haddress hdelta hty
  refine (renames_loadAt _ _).bind fun old _ hold => ?_
  subst hold
  exact (renames_storeAt _ _ _).bind fun _ _ _ => renames_pure rfl

theorem renames_call (hhosts : ∀ name, hosts'.get? name = hosts.get? name) (h : op.Renamed ρ op')
    (name : String) : Renames ρ Eq (call hosts name op) (call hosts' name op') := by
  refine (renames_mapM_read h.operands).bind fun args _ hargs => ?_
  subst hargs
  rw [hhosts name]
  cases hosts.get? name with
  | none => exact renames_throw rfl
  | some f =>
    refine renames_modifyGet fun σ σ' hσ => ?_
    rw [hσ.memory]
    exact ⟨rfl, { hσ with memory := rfl }⟩

theorem matched_dispatch (h : op.Renamed ρ op') (cases : List Int64) (selector : Int64) :
    Matched ρ.block (dispatch cases op selector) (dispatch cases op' selector) := by
  refine (matched_target h 0).bind fun x x' hx => ?_
  cases cases.findIdx? (· == selector) with
  | some i => exact matched_target h (i + 1)
  | none => exact .ok hx

variable (hg : g.Renamed ρ g') (hhosts : ∀ name, hosts'.get? name = hosts.get? name)

include hg hhosts in
/-- An operation does the same under other names. -/
theorem step_renames (h : op.Renamed ρ op') (hx : ρ.block x x') (i : Nat) :
    Renames ρ (Flow.Renamed ρ) (step g hosts (x, i) op) (step g' hosts' (x', i) op') := by
  unfold step
  refine (renames_lift (matched_resultType hg h)).bind fun ty _ hty => ?_
  subst hty
  rw [h.opcode]
  cases op.opcode with
  | constInt v => exact renames_finish h _
  | constFloat y => exact renames_finish h _
  | load s =>
    refine (renames_readLocal s).bind fun a _ ha => ?_
    subst ha
    exact renames_finish h a
  | store s =>
    refine (renames_readOperand h 0).bind fun a _ ha => ?_
    subst ha
    exact (renames_writeLocal s a).bind fun _ _ _ => renames_pure .next
  | storeOver =>
    refine (renames_readOperand h 1).bind fun a _ ha => ?_
    subst ha
    refine (renames_lift (matched_operand h 0)).bind fun v _ hv => ?_
    exact (renames_overwrite hv a).bind fun _ _ _ => renames_pure .next
  | arith o =>
    refine (renames_arith h o ty).bind fun a _ ha => ?_
    subst ha
    exact renames_finish h a
  | compare c =>
    refine (renames_compare hg h c).bind fun a _ ha => ?_
    subst ha
    exact renames_finish h _
  | convert unsigned =>
    refine (renames_lift (matched_operand h 0)).bind fun v _ hv => ?_
    refine (renames_lift (matched_typeOf hg hv)).bind fun source _ hsource => ?_
    refine (renames_readOperand h 0).bind fun a _ ha => ?_
    subst hsource ha
    exact renames_finish h _
  | checked o =>
    refine (renames_readOperand h 0).bind fun l _ hl => ?_
    refine (renames_readOperand h 1).bind fun r _ hr => ?_
    subst hl hr
    cases o.checked? ty l.toInt r.toInt with
    | some v => exact renames_finish h _
    | none =>
      obtain ⟨blk, blk', hblk, hblk', hsame⟩ := hg.blocks x x' hx
      refine (renames_lift (R := Block.Renamed ρ) ?_).bind fun c c' hc => ?_
      · unfold block
        rw [fetch_eq_ok.2 hblk, fetch_eq_ok.2 hblk']
        exact .ok hsame
      · rcases rel_cases (rel_head? hc.handlers) with ⟨hy, hy'⟩ | ⟨y, y', hy, hy', hyy⟩
        · rw [hy, hy']
          exact renames_throw rfl
        · rw [hy, hy']
          exact renames_pure (.jump hyy)
  | loadAt =>
    refine (renames_readOperand h 0).bind fun address _ haddress => ?_
    subst haddress
    refine (renames_loadAt _ _).bind fun a _ ha => ?_
    subst ha
    exact renames_finish h a
  | storeAt =>
    refine (renames_readOperand h 0).bind fun address _ haddress => ?_
    refine (renames_readOperand h 1).bind fun a _ ha => ?_
    refine (renames_lift (matched_operand h 1)).bind fun v _ hv => ?_
    refine (renames_lift (matched_typeOf hg hv)).bind fun ty _ hty => ?_
    subst haddress ha hty
    exact (renames_storeAt _ _ _).bind fun _ _ _ => renames_pure .next
  | indexAt size =>
    refine (renames_readOperand h 0).bind fun base _ hbase => ?_
    refine (renames_readOperand h 1).bind fun index _ hindex => ?_
    subst hbase hindex
    exact renames_finish h _
  | offsetAt offset =>
    refine (renames_readOperand h 0).bind fun base _ hbase => ?_
    subst hbase
    exact renames_finish h _
  | localAlloc size =>
    refine (renames_storageOf hx i size).bind fun address _ haddress => ?_
    subst haddress
    exact renames_finish h _
  | atomicAdd =>
    refine (renames_atomicAdd hg h).bind fun a _ ha => ?_
    subst ha
    exact renames_finish h a
  | call name =>
    refine (renames_call hhosts h name).bind fun a _ ha => ?_
    subst ha
    exact renames_finish h a
  | goto =>
    exact (renames_lift (matched_target h 0)).bind fun _ _ hx => renames_pure (.jump hx)
  | branch c =>
    refine (renames_compare hg h c).bind fun taken _ htaken => ?_
    subst htaken
    cases taken with
    | true => exact (renames_lift (matched_target h 0)).bind fun _ _ hx => renames_pure (.jump hx)
    | false => exact renames_pure .next
  | ret =>
    rcases rel_cases (rel_head? h.operands) with ⟨hv, hv'⟩ | ⟨v, v', hv, hv', hvv⟩
    · rw [hv, hv']
      exact renames_pure (.ret none)
    · rw [hv, hv']
      refine (renames_read hvv).bind fun a _ ha => ?_
      subst ha
      exact renames_pure (.ret (some a))
  | switch cases =>
    refine (renames_readOperand h 0).bind fun a _ ha => ?_
    subst ha
    exact (renames_lift (matched_dispatch h cases _)).bind fun _ _ hx => renames_pure (.jump hx)
  | transactionBegin =>
    refine (renames_lift (matched_target h 0)).bind fun y y' hy => ?_
    refine (renames_modify fun σ σ' hσ => ?_).bind fun _ _ _ => renames_pure .next
    refine { hσ with transactions := .cons ⟨hσ.memory, hy⟩ hσ.transactions }
  | transactionEnd =>
    refine renames_get.bind fun σ σ' hσ => ?_
    have hopen := hσ.transactions
    generalize σ.transactions = ts, σ'.transactions = ts' at hopen
    cases hopen with
    | nil => exact renames_throw rfl
    | cons _ hrest =>
      refine (renames_modify fun τ τ' hτ => ?_).bind fun _ _ _ => renames_pure .next
      exact { hτ with transactions := hrest }
  | transactionAbort =>
    refine renames_get.bind fun σ σ' hσ => ?_
    have hopen := hσ.transactions
    generalize σ.transactions = ts, σ'.transactions = ts' at hopen
    cases hopen with
    | nil => exact renames_throw rfl
    | cons ht hrest =>
      refine (renames_modify fun τ τ' hτ => ?_).bind fun _ _ _ => renames_pure (.jump ht.2)
      exact { hτ with memory := ht.1, transactions := hrest }

/-! ## Runs -/

include hg hhosts in
theorem runOps_renames (hx : ρ.block x x') {ops ops' : List Operation}
    (h : List.Forall₂ (Operation.Renamed ρ) ops ops') (i : Nat) :
    Renames ρ (Flow.Renamed ρ) (runOps g hosts x ops i) (runOps g' hosts' x' ops' i) := by
  induction h generalizing i with
  | nil => exact renames_pure .next
  | cons h _ ih =>
    refine (step_renames hg hhosts h hx i).bind fun flow flow' hflow => ?_
    cases hflow with
    | next => exact ih (i + 1)
    | jump hy => exact renames_pure (.jump hy)
    | ret a => exact renames_pure (.ret a)

include hg hhosts in
/-- Runs from blocks that stand for each other do the same. -/
theorem runFrom_renames (limit fuel : Nat) (hx : ρ.block x x') :
    Renames ρ Eq (runFrom g hosts limit fuel x) (runFrom g' hosts' limit fuel x') := by
  induction fuel generalizing x x' with
  | zero => exact renames_throw rfl
  | succ fuel ih =>
    have hexit := ρ.block_eq hx hg.exit
    unfold runFrom
    by_cases h : x = exit
    · rw [if_pos h, if_pos (hexit.1 h)]
      exact renames_pure rfl
    rw [if_neg h, if_neg fun h' => h (hexit.2 h')]
    obtain ⟨blk, blk', hblk, hblk', hsame⟩ := hg.blocks x x' hx
    refine (renames_lift (R := fun c c' => c = blk ∧ c' = blk') ?_).bind fun c c' hc => ?_
    · unfold block
      rw [fetch_eq_ok.2 hblk, fetch_eq_ok.2 hblk']
      exact .ok ⟨rfl, rfl⟩
    obtain ⟨rfl, rfl⟩ := hc
    refine (runOps_renames hg hhosts hx hsame.operations 0).bind fun flow flow' hflow => ?_
    cases hflow with
    | ret a => exact renames_pure rfl
    | jump hy => exact ih hy
    | next =>
      rcases rel_cases hsame.next with ⟨hy, hy'⟩ | ⟨y, y', hy, hy', hyy⟩
      · rw [hy, hy']
        exact renames_throw rfl
      · rw [hy, hy']
        exact ih hyy

end Exec

/-- Two invocations end alike: with the same fault, with errors of the same kind, or with the same
    scalar or without one. -/
inductive SameOutcome : Except Fault (Except EvalError (Option Scalar)) →
    Except Fault (Except EvalError (Option Scalar)) → Prop where
  | fault (f : Fault) : SameOutcome (.error f) (.error f)
  | error {e e' : EvalError} (h : e'.kind = e.kind) : SameOutcome (.ok (.error e)) (.ok (.error e'))
  | ok (a : Option Scalar) : SameOutcome (.ok (.ok a)) (.ok (.ok a))

/-- Compiled methods whose graphs differ in names, and which can call the same functions, give the
    same outcome. -/
theorem Compiled.invoke_renamed {c c' : Compiled} (hg : c.graph.Renamed ρ c'.graph)
    (hlayout : c'.graph.layout.isEmpty = c.graph.layout.isEmpty)
    (hname : c'.graph.name = c.graph.name)
    (hhosts : ∀ name, c'.hosts.get? name = c.hosts.get? name) (args : List Scalar) :
    SameOutcome (c.invoke args) (c'.invoke args) := by
  have hparameters : c'.graph.parameters = c.graph.parameters := by
    unfold parameters
    rw [hg.symbols]
  have hinitial : c'.graph.initialLocals args = c.graph.initialLocals args := by
    unfold initialLocals
    rw [hg.symbols]
  unfold invoke Evaluator.run
  dsimp only
  rw [hlayout, hparameters, hinitial]
  by_cases hempty : c.graph.layout.isEmpty = true
  · rw [if_pos hempty, if_pos hempty]
    exact .error (congrArg EvalError.notConnected hname)
  rw [if_neg hempty, if_neg hempty]
  by_cases hcount : args.length ≠ c.graph.parameters.length
  · rw [if_pos hcount, if_pos hcount]
    exact .error rfl
  rw [if_neg hcount, if_neg hcount]
  cases c.graph.initialLocals args with
  | error f => exact .fault f
  | ok locals =>
    have hstart : Machine.Renamed ρ
        { memory := .empty, values := .replicate c.graph.values.size none, locals }
        { memory := .empty, values := .replicate c'.graph.values.size none, locals } := by
      refine ⟨rfl, fun v v' hv => ?_, rfl, fun _ _ _ _ => rfl, .nil⟩
      obtain ⟨ty, hty, hty'⟩ := hg.types v v' hv
      have hlt : v < c.graph.values.size := get?_isSome.1 (by rw [hty]; rfl)
      have hlt' : v' < c'.graph.values.size := get?_isSome.1 (by rw [hty']; rfl)
      rw [getElem?_replicate, getElem?_replicate, if_pos hlt, if_pos hlt']
    have hends := Exec.runFrom_renames hg hhosts 1000000 1000000 hg.entry _ _ hstart
    dsimp only [pure, Except.pure, bind, Except.bind]
    generalize (Exec.runFrom c.graph c.hosts 1000000 1000000 entry).run.run _ = r,
      (Exec.runFrom c'.graph c'.hosts 1000000 1000000 entry).run.run _ = r' at hends ⊢
    cases hends with
    | fault f => exact .fault f
    | error h => exact .error h
    | ok h =>
      subst h
      exact .ok _

end MethodGraph
