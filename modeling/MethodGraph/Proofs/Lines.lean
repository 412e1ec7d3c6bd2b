import MethodGraph.Method.Bytecode
import MethodGraph.Method.Call
import MethodGraph.Method.Storage
import MethodGraph.Vm.Operands
import MethodGraph.Proofs.Growth
/-!
  Code that goes straight on.

  Much of what is asked of a builder comes down to one thing: an operation that goes straight on is
  emitted into it, with a value for its result.  Constants, locals, arithmetic and memory are like
  that, and so is all that machine states are written, read, copied and merged with.  What such code
  does to a method is therefore known once it is known what one operation does, and what new values
  and new symbols do (`Admits`), and changes to the builder's own record (`Rewrites`).

  The lemmas `within_constInt` and so on say so for each kind of code.
-/

namespace MethodGraph

open Emit

variable {operands : List ValueId} {opcode : Opcode} {c : Prop} {ty : Ty} {γ : Type}

variable {α β : Type} {m m' : Method} {b : BuilderId} {R : Method → Method → Prop}
  {f : BytecodeRecord → BytecodeRecord} {x : Emit α}

/-! ## Records of builders -/

namespace Emit

theorem record_eq_ok {r : BytecodeRecord} : (record b).run m = .ok (r, m') ↔
      (∃ d, m.builder? b = some d ∧ d.bytecode = some r) ∧ m = m' := by
  unfold record
  constructor
  · grind [bind_eq_ok, builder_eq_ok, throw_ne_ok, pure_eq_ok]
  · rintro ⟨⟨d, hd, hr⟩, rfl⟩
    refine bind_eq_ok.2 ⟨d, m, builder_eq_ok.2 ⟨hd, rfl⟩, ?_⟩
    rw [hr]
    exact pure_eq_ok.2 ⟨rfl, rfl⟩

theorem updateRecord_eq_ok {u : Unit} :
    (updateRecord b f).run m = .ok (u, m') ↔ ∃ d r, m.builder? b = some d ∧ d.bytecode = some r ∧
        m' = m.withBuilder b ({ · with bytecode := some (f r) }) := by
  unfold updateRecord
  simp only [bind_eq_ok, record_eq_ok, updateBuilder_eq_ok]
  constructor
  · rintro ⟨r, _, ⟨⟨d, hd, hr⟩, rfl⟩, -, hm⟩
    exact ⟨d, r, hd, hr, hm⟩
  · rintro ⟨d, r, hd, hr, hm⟩
    exact ⟨r, m, ⟨⟨d, hd, hr⟩, rfl⟩, Method.lt_of_builder? hd, hm⟩

theorem get?_alloc_of_some {a : Arena γ} {i : Nat} {x y : γ}
    (h : a.get? i = some x) : (a.alloc y).2.get? i = some x := by
  grind [Arena.get?_isSome, Arena.get?_alloc]

end Emit

/-! ## What is done bit by bit -/

/-- What is done bit by bit is done. -/
class Accrues (R : Method → Method → Prop) : Prop where
  refl : ∀ m, R m m
  trans : ∀ {m1 m2 m3}, R m1 m2 → R m2 m3 → R m1 m3

namespace Emit

/-- Every run that ends well leads from one method to another in this way. -/
def Within (R : Method → Method → Prop) (x : Emit α) : Prop :=
  ∀ m a m', x.run m = .ok (a, m') → R m m'

section

variable [Accrues R]

theorem within_pure (a : α) : Within R (pure a : Emit α) := by
  intro m _ m' h
  obtain ⟨-, rfl⟩ := pure_eq_ok.1 h
  exact Accrues.refl m

omit [Accrues R] in
theorem within_throw (e : Fault) : Within R (throw e : Emit α) :=
  fun _ _ _ h => absurd h throw_ne_ok

theorem within_get : Within R (get : Emit Method) := by
  intro m _ m' h
  obtain ⟨-, rfl⟩ := get_eq_ok.1 h
  exact Accrues.refl m

theorem within_lift (x : Except Fault α) : Within R (liftM x : Emit α) := by
  intro m _ m' h
  obtain ⟨-, rfl⟩ := lift_eq_ok.1 h
  exact Accrues.refl m

theorem within_bind {f : α → Emit β} (hx : Within R x) (hf : ∀ a, Within R (f a)) :
    Within R (x >>= f) := by
  intro m b m' h
  obtain ⟨a, m1, h1, h2⟩ := bind_eq_ok.1 h
  exact Accrues.trans (hx m a m1 h1) (hf a m1 b m' h2)

theorem within_map {f : α → β} (hx : Within R x) : Within R (f <$> x) := by
  rw [map_eq_pure_bind]
  exact within_bind hx fun _ => within_pure _

omit [Accrues R] in
theorem within_ite [Decidable c] {y : Emit α} (hx : Within R x) (hy : Within R y) :
    Within R (if c then x else y) := by
  split
  · exact hx
  · exact hy

/-- A step behind a guard. -/
theorem within_guard [Decidable c] {e : Fault} {k : PUnit → Emit α}
    (hk : Within R (k ⟨⟩)) : Within R (if c then throw e >>= k else k ⟨⟩) :=
  within_ite (within_bind (within_throw e) fun _ => hk) hk

variable {f : γ → Emit PUnit}

theorem within_forM_of_mem :
    ∀ {cs : List γ}, (∀ c ∈ cs, Within R (f c)) → Within R (cs.forM f)
  | [], _ => within_pure _
  | c :: _, hf => within_bind (hf c List.mem_cons_self) fun _ =>
      within_forM_of_mem fun c' hc' => hf c' (List.mem_cons_of_mem c hc')

theorem within_forM (hf : ∀ c, Within R (f c)) (cs : List γ) :
    Within R (cs.forM f) := within_forM_of_mem fun c _ => hf c

theorem within_mapM {f : γ → Emit α} (hf : ∀ c, Within R (f c)) :
    ∀ cs : List γ, Within R (cs.mapM f)
  | [] => by
    rw [List.mapM_nil]
    exact within_pure _
  | c :: cs => by
    rw [List.mapM_cons]
    exact within_bind (hf c) fun _ => within_bind (within_mapM hf cs) fun _ => within_pure _

theorem within_builder (b : BuilderId) : Within R (builder b) :=
  within_bind within_get fun _ => within_lift _

theorem within_entryOf (b : BuilderId) : Within R (entryOf b) :=
  within_bind (within_builder b) fun _ => within_pure _

theorem within_typeOf (v : ValueId) : Within R (typeOf v) :=
  within_bind within_get fun _ => within_lift _

theorem within_symbol (s : SymbolId) : Within R (symbol s) :=
  within_bind within_get fun _ => within_lift _

theorem within_record (b : BuilderId) : Within R (record b) := by
  intro m r m' h
  obtain ⟨-, rfl⟩ := record_eq_ok.1 h
  exact Accrues.refl m

end

end Emit

/-! ## One operation -/

open Emit in
/-- What the steps of a line of code in a builder do. -/
class Admits (b : BuilderId) (R : Method → Method → Prop) [Accrues R] : Prop where
  value : ∀ m ty, R m { m with graph := (m.graph.newValue ty).2 }
  symbol : ∀ m name ty kind, R m { m with graph := (m.graph.define name ty kind).2 }
  emit : ∀ {m m' op u}, op.IsStraight → (∀ g, m.graph.Keeps g → op.Suits g) →
    (emit b op).run m = .ok (u, m') → R m m'

open Emit in
/-- What the steps of a line of code do that may change the record of its builder. -/
class Rewrites (b : BuilderId) (R : Method → Method → Prop) [Accrues R] : Prop
    extends Admits b R where
  record : ∀ {m m' f u}, (∀ r, (f r).index = r.index ∧ (f r).initial = r.initial) →
    (updateRecord b f).run m = .ok (u, m') → R m m'

namespace Emit

variable [Accrues R] [Admits b R]

/-- The value that an operation computes is there before the operation is. -/
theorem emitValue_within {v : ValueId}
    (hstays : opcode.isTerminator = false) (hsafe : opcode.canThrow = false)
    (hop : ∀ g : Graph, m.graph.Keeps g → ∀ v, g.values.get? v = some ty →
      Operation.Suits g { opcode, operands, result := some v })
    (h : (emitValue b opcode operands ty).run m = .ok (v, m')) : R m m' := by
  obtain ⟨w, m1, h1, h⟩ := bind_eq_ok.1 h
  obtain ⟨_, m2, h2, h⟩ := bind_eq_ok.1 h
  obtain ⟨-, rfl⟩ := pure_eq_ok.1 h
  cases h1
  have hstraight : Operation.IsStraight { opcode, operands, result := some m.graph.values.size } :=
    ⟨hstays, hsafe, rfl⟩
  refine Accrues.trans (Admits.value b m ty) (Admits.emit hstraight (fun g hg => ?_) h2)
  have hkeeps : m.graph.Keeps (m.graph.newValue ty).2 :=
    ⟨fun _ _ h => get?_alloc_of_some h, fun _ _ h => h⟩
  refine hop g (hkeeps.trans hg) _ (hg.values _ ty ?_)
  exact (Arena.get?_alloc ..).trans (if_pos rfl)

theorem within_emit {op : Operation} (hstraight : op.IsStraight) (hop : ∀ g, op.Suits g) :
    Within R (emit b op) := fun _ _ _ h => Admits.emit hstraight (fun g _ => hop g) h

theorem within_emitValue (hstays : opcode.isTerminator = false) (hsafe : opcode.canThrow = false)
    (hop : ∀ (g : Graph) v, g.values.get? v = some ty →
      Operation.Suits g { opcode, operands, result := some v }) :
    Within R (emitValue b opcode operands ty) :=
  fun _ _ _ h => emitValue_within hstays hsafe (fun g _ => hop g) h

omit [Admits b R] in
theorem within_updateRecord [Rewrites b R]
    (hf : ∀ r, (f r).index = r.index ∧ (f r).initial = r.initial) :
    Within R (updateRecord b f) := fun _ _ _ h => Rewrites.record hf h

/-! ## Constants, locals, arithmetic and memory -/

theorem within_constInt (ty : Ty) (v : Int64) : Within R (constInt b ty v) :=
  within_emitValue rfl rfl fun _ _ _ => trivial

theorem within_constFloat (x : Binary64) : Within R (constFloat b x) :=
  within_emitValue rfl rfl fun _ _ h => ⟨_, h, rfl⟩

theorem within_constDouble (x : Binary64) : Within R (constDouble b x) :=
  within_emitValue rfl rfl fun _ _ h => ⟨_, h, rfl⟩

theorem within_zero (ty : Ty) : Within R (zero b ty) := by
  unfold zero
  split
  · next hty => exact within_emitValue rfl rfl fun _ _ h => ⟨ty, h, hty⟩
  · exact within_constInt ty 0

theorem within_loadSymbol (s : SymbolId) : Within R (loadSymbol b s) := by
  intro m v m' h
  obtain ⟨y, m1, h1, h⟩ := bind_eq_ok.1 h
  obtain ⟨_, _, h0, h1⟩ := bind_eq_ok.1 h1
  obtain ⟨rfl, rfl⟩ := get_eq_ok.1 h0
  obtain ⟨hy, rfl⟩ := lift_eq_ok.1 h1
  refine emitValue_within rfl rfl (fun g hg v hv => ?_) h
  exact ⟨y, hg.symbols s y (Arena.fetch_eq_ok.1 hy), hv⟩

theorem within_storeSymbol (s : SymbolId) (v : ValueId) :
    Within R (storeSymbol b s v) := within_emit ⟨rfl, rfl, rfl⟩ fun _ => trivial

theorem within_storeOver (dest v : ValueId) :
    Within R (storeOver b dest v) := by
  intro m u m' h
  obtain ⟨dt, _, h1, h⟩ := bind_eq_ok.1 h
  obtain ⟨hd, rfl⟩ := typeOf_eq_ok.1 h1
  obtain ⟨vt, _, h2, h⟩ := bind_eq_ok.1 h
  obtain ⟨hv, rfl⟩ := typeOf_eq_ok.1 h2
  obtain ⟨hsame, hemit⟩ := guard_eq_ok.1 h
  obtain rfl : dt = vt := by simpa using hsame
  refine Admits.emit ⟨rfl, rfl, rfl⟩ (fun g hg => ?_) hemit
  exact ⟨dest, v, dt, rfl, rfl, hg.values _ _ hd, hg.values _ _ hv⟩

omit [Accrues R] [Admits b R] in
/-- Arithmetic is done at the type of the first operand or on addresses, and not bit by bit on
    floating-point elements. -/
theorem resultType_eq_ok {op : Arith} {lt rt : Ty} (h : resultType op lt rt = .ok ty) :
    (ty = lt ∨ ty = .address) ∧ (op.isIntegerOnly && ty.element.isFloating) = false := by
  have hjoin : ∀ t, lt.join? rt = some t → t = lt ∨ t = .address := by
    intro t ht
    unfold Ty.join? at ht
    grind
  have hcheck : ∀ t, (t = lt ∨ t = .address) →
      (if op.isIntegerOnly && t.element.isFloating then throw (.needsIntegers op t) else pure t :
        Except Fault Ty) = .ok ty →
      (ty = lt ∨ ty = .address) ∧ (op.isIntegerOnly && ty.element.isFloating) = false := by
    intro t ht h
    split at h
    · cases h
    · next hfine =>
      cases h
      exact ⟨ht, Bool.eq_false_iff.2 hfine⟩
  unfold resultType at h
  split at h
  · split at h
    · exact hcheck lt (.inl rfl) h
    · cases h
  · cases ht : lt.join? rt with
    | none =>
      rw [ht] at h
      cases h
    | some t =>
      rw [ht] at h
      exact hcheck t (hjoin t ht) h

theorem within_binary (op : Arith) (x y : ValueId) :
    Within R (binary b op x y) := by
  intro m v m' h
  obtain ⟨lt, _, h1, h⟩ := bind_eq_ok.1 h
  obtain ⟨hx, rfl⟩ := typeOf_eq_ok.1 h1
  obtain ⟨rt, _, h2, h⟩ := bind_eq_ok.1 h
  obtain ⟨-, rfl⟩ := typeOf_eq_ok.1 h2
  obtain ⟨ty, _, h3, h⟩ := bind_eq_ok.1 h
  obtain ⟨hty, rfl⟩ := lift_eq_ok.1 h3
  refine emitValue_within rfl rfl (fun g hg v hv => ?_) h
  refine ⟨x, lt, rfl, hg.values x lt hx, ?_⟩
  rcases (resultType_eq_ok hty).1 with rfl | rfl
  · exact .inl hv
  · exact .inr hv

theorem within_negate (v : ValueId) : Within R (negate b v) := by
  intro m w m' h
  obtain ⟨ty, _, h1, h⟩ := bind_eq_ok.1 h
  obtain ⟨hty, rfl⟩ := typeOf_eq_ok.1 h1
  refine emitValue_within rfl rfl (fun g hg w hw => ?_) h
  exact ⟨v, ty, rfl, hg.values v ty hty, .inl hw⟩

theorem within_compare (c : Cmp) (x y : ValueId) :
    Within R (compare b c x y) := within_emitValue rfl rfl fun _ _ _ => trivial

theorem within_convertTo (ty : Ty) (v : ValueId) :
    Within R (convertTo b ty v) := within_emitValue rfl rfl fun _ _ _ => trivial

theorem within_unsignedConvertTo (ty : Ty) (v : ValueId) :
    Within R (unsignedConvertTo b ty v) := within_emitValue rfl rfl fun _ _ _ => trivial

theorem within_copy (v : ValueId) : Within R (copy b v) :=
  within_bind (within_typeOf v) fun ty => within_convertTo ty v

theorem within_loadAt (ty : Ty) (address : ValueId) :
    Within R (loadAt b ty address) := within_emitValue rfl rfl fun _ _ _ => trivial

theorem within_storeAt (address v : ValueId) :
    Within R (storeAt b address v) := within_emit ⟨rfl, rfl, rfl⟩ fun _ => trivial

theorem within_indexAt (ty : Ty) (base index : ValueId) :
    Within R (indexAt b ty base index) := within_emitValue rfl rfl fun _ _ h => h

theorem within_offsetAt (base : ValueId) (offset : Nat) :
    Within R (offsetAt b base offset) := within_emitValue rfl rfl fun _ _ h => h

theorem within_localArray (count : Nat) (ty : Ty) :
    Within R (localArray b count ty) :=
  within_bind (within_lift _) fun _ => within_emitValue rfl rfl fun _ _ h => h

theorem within_localStruct (ty : TypeId) : Within R (localStruct b ty) :=
  within_bind within_get fun _ => within_bind (within_lift _) fun _ =>
    within_emitValue rfl rfl fun _ _ h => h

theorem within_elementAt (ty : Ty) (base : ValueId) (index : Int) :
    Within R (elementAt b ty base index) :=
  within_bind (within_constInt _ _) fun i => within_indexAt ty base i

theorem within_loadElement (ty : Ty) (base : ValueId) (index : Int) :
    Within R (loadElement b ty base index) :=
  within_bind (within_elementAt ty base index) fun a => within_loadAt ty a

theorem within_storeElement (ty : Ty) (base : ValueId) (index : Int)
    (v : ValueId) : Within R (storeElement b ty base index v) :=
  within_bind (within_elementAt ty base index) fun a => within_storeAt a v

theorem within_adjustSymbol (s : SymbolId) (ty : Ty) (amount : Int64) :
    Within R (adjustSymbol b s ty amount) :=
  within_bind (within_loadSymbol s) fun _ => within_bind (within_constInt _ _) fun _ =>
    within_bind (within_binary _ _ _) fun _ => within_storeSymbol s _

end Emit

/-! ## Machine states -/

section

variable [Accrues R] [Admits b R]

namespace Register

open Emit

theorem within_load (r : Register) : Within R (r.load b) := within_loadSymbol _

theorem within_store (r : Register) (v : ValueId) : Within R (r.store b v) :=
  within_storeSymbol _ v

theorem within_adjust (r : Register) (amount : Int64) : Within R (r.adjust b amount) :=
  within_bind (within_lift _) fun _ => within_adjustSymbol _ _ _

theorem within_commit (r : Register) : Within R (r.commit b) :=
  within_bind (r.within_load) fun v => within_storeAt _ v

theorem within_reload (r : Register) : Within R (r.reload b) :=
  within_bind (within_loadAt _ _) fun v => r.within_store v

end Register

namespace FieldRegister

open Emit

theorem within_load (r : FieldRegister) : Within R (r.load b) := within_loadSymbol _

theorem within_store (r : FieldRegister) (v : ValueId) : Within R (r.store b v) :=
  within_storeSymbol _ v

theorem within_adjust (r : FieldRegister) (amount : Int64) :
    Within R (r.adjust b amount) := within_adjustSymbol _ _ amount

theorem within_address (r : FieldRegister) : Within R (r.address b) :=
  within_bind (within_loadSymbol _) fun _ => within_offsetAt _ _

theorem within_commit (r : FieldRegister) : Within R (r.commit b) :=
  within_bind (r.within_load) fun v => within_bind (r.within_address) fun a => within_storeAt a v

theorem within_reload (r : FieldRegister) : Within R (r.reload b) :=
  within_bind (r.within_address) fun _ => within_bind (within_loadAt _ _) fun v => r.within_store v

end FieldRegister

namespace OperandStack

open Emit

theorem within_commit (s : OperandStack) : Within R (s.commit b) :=
  within_bind (within_loadSymbol _) fun _ =>
    within_bind (within_forM (fun _ => within_storeElement _ _ _ _) _) fun _ =>
      within_bind (within_elementAt _ _ _) fun v =>
        within_bind (s.pointer.within_store v) fun _ => s.pointer.within_commit

theorem within_reload (s : OperandStack) : Within R (s.reload b) :=
  within_bind (s.pointer.within_reload) fun _ => within_bind (within_loadSymbol _) fun _ =>
    within_bind (within_mapM (fun _ => within_loadElement _ _ _) _) fun _ => within_pure _

end OperandStack

namespace OperandArray

open Emit

theorem within_commit (a : OperandArray) : Within R (a.commit b) :=
  within_bind (within_loadSymbol _) fun _ => within_forM (fun _ => within_storeElement _ _ _ _) _

theorem within_readSlots (ty : Ty) (base : SymbolId) (n : Nat) :
    Within R (readSlots b ty base n) :=
  within_bind (within_loadSymbol base) fun _ => within_mapM (fun _ => within_loadElement _ _ _) _

theorem within_reload (a : OperandArray) : Within R (a.reload b) :=
  within_bind (within_readSlots _ _ _) fun _ => within_pure _

end OperandArray

theorem Emit.within_mergeValues (pairs : List (ValueId × ValueId)) :
    Within R (mergeValues b pairs) := by
  have hstores : ∀ moves : List (ValueId × ValueId),
      Within R (moves.forM fun p => storeOver b p.1 p.2) :=
    within_forM fun p => within_storeOver p.1 p.2
  refine within_bind (within_lift _) fun _ => within_ite ?_ ?_
  · exact within_bind (within_mapM (within_copy) _) fun _ => hstores _
  · exact within_bind (within_pure _) fun _ => hstores _

end

namespace VmState

open Emit

mutual

theorem within_commit [Accrues R] [Admits b R] : ∀ s : VmState, Within R (s.commit b)
  | register r | fieldRegister r | stack r | array r => by
    rw [commit]
    exact r.within_commit
  | composite parts => by
    rw [commit]
    exact within_commitAll parts

theorem within_commitAll [Accrues R] [Admits b R] : ∀ ss : List VmState, Within R (commitAll b ss)
  | [] => by
    rw [commitAll]
    exact within_pure _
  | s :: ss => by
    rw [commitAll]
    exact within_bind (within_commit s) fun _ => within_commitAll ss

end

mutual

theorem within_reload [Accrues R] [Admits b R] : ∀ s : VmState, Within R (s.reload b)
  | register r | fieldRegister r | stack r | array r => by
    rw [reload]
    exact within_bind r.within_reload fun _ => within_pure _
  | composite parts => by
    rw [reload]
    exact within_bind (within_reloadAll parts) fun _ => within_pure _

theorem within_reloadAll [Accrues R] [Admits b R] : ∀ ss : List VmState, Within R (reloadAll b ss)
  | [] => by
    rw [reloadAll]
    exact within_pure _
  | s :: ss => by
    rw [reloadAll]
    exact within_bind (within_reload s) fun _ =>
      within_bind (within_reloadAll ss) fun _ => within_pure _

end

mutual

theorem within_mergeInto [Accrues R] [Admits b R] (s t : VmState) : Within R (s.mergeInto b t) := by
  cases s <;> cases t <;> simp only [mergeInto]
  case register.register | fieldRegister.fieldRegister =>
    exact within_ite (within_pure _) (within_throw _)
  case stack.stack | array.array => exact within_ite (within_mergeValues _) (within_throw _)
  case composite.composite ss ts => exact within_ite (within_mergeAll ss ts) (within_throw _)
  all_goals exact within_throw _

theorem within_mergeAll [Accrues R] [Admits b R] :
    ∀ ss ts : List VmState, Within R (mergeAll b ss ts)
  | s :: ss, t :: ts => by
    rw [mergeAll]
    exact within_bind (within_mergeInto s t) fun _ => within_mergeAll ss ts
  | [], ts => by
    cases ts <;> exact within_pure _
  | s :: ss, [] => within_pure _

end

theorem dealiasSlots_append (vs ws seen : List ValueId) : dealiasSlots b (vs ++ ws) seen = (do
    let p ← dealiasSlots b vs seen
    let q ← dealiasSlots b ws p.2
    return (p.1 ++ q.1, q.2)) := by
  induction vs generalizing seen with
  | nil => simp [dealiasSlots]
  | cons v vs ih =>
    simp only [List.cons_append, dealiasSlots, ih]
    split <;> simp

mutual

/-- Whatever the shape of a state, its slots are looked through one after the other. -/
theorem slots_dealiasWith : ∀ (s : VmState) (seen : List ValueId),
    (fun p => (p.1.slots, p.2)) <$> s.dealiasWith b seen = dealiasSlots b s.slots seen
  | register _, _ | fieldRegister _, _ => by simp [dealiasWith, slots, dealiasSlots]
  | stack _, _ | array _, _ => by simp [dealiasWith, slots]
  | composite parts, seen => by simp [dealiasWith, slots, ← slots_dealiasAll parts seen]

theorem slots_dealiasAll : ∀ (ss : List VmState) (seen : List ValueId),
    (fun p => (slotsOfAll p.1, p.2)) <$> dealiasAll b ss seen = dealiasSlots b (slotsOfAll ss) seen
  | [], _ => by simp [dealiasAll, slotsOfAll, dealiasSlots]
  | s :: ss, seen => by
    simp [dealiasAll, slotsOfAll, dealiasSlots_append, ← slots_dealiasWith s, ← slots_dealiasAll ss]

end

/-- So what becomes of a state is seen from its slots. -/
theorem of_dealias {s t : VmState} (h : (s.dealias b).run m = .ok (t, m')) :
    ∃ seen, (dealiasSlots b s.slots []).run m = .ok ((t.slots, seen), m') := by
  obtain ⟨⟨t', seen⟩, _, h1, h⟩ := bind_eq_ok.1 h
  obtain ⟨rfl, rfl⟩ := pure_eq_ok.1 h
  refine ⟨seen, ?_⟩
  rw [← slots_dealiasWith, StateT.run_map, h1]
  rfl

theorem within_dealiasSlots [Accrues R] [Admits b R] : ∀ vs seen, Within R (dealiasSlots b vs seen)
  | [], _ => within_pure _
  | v :: vs, seen => by
    have hrest : ∀ w, Within R (do
        let p ← dealiasSlots b vs (w :: seen)
        return (w :: p.1, p.2)) :=
      fun w => within_bind (within_dealiasSlots vs (w :: seen)) fun _ => within_pure _
    exact within_ite (within_bind (within_copy v) hrest) (within_bind (within_pure v) hrest)

theorem within_dealias [Accrues R] [Admits b R] (s : VmState) : Within R (s.dealias b) := by
  intro m t m' h
  obtain ⟨seen, h⟩ := of_dealias h
  exact within_dealiasSlots s.slots [] m _ m' h

theorem within_loadRegister [Accrues R] [Admits b R] (s : VmState) :
    Within R (s.loadRegister b) := by
  cases s with
  | register r => exact within_map (r.within_load)
  | fieldRegister r => exact within_map (r.within_load)
  | stack | array | composite => exact within_pure _

theorem within_storeRegister [Accrues R] [Admits b R] (s : VmState) (v : ValueId) :
    Within R (s.storeRegister b v) := by
  cases s with
  | register r => exact within_bind (r.within_store v) fun _ => within_pure _
  | fieldRegister r => exact within_bind (r.within_store v) fun _ => within_pure _
  | stack | array | composite => exact within_pure _

theorem within_adjustRegister [Accrues R] [Admits b R] (s : VmState) (amount : Int64) :
    Within R (s.adjustRegister b amount) := by
  cases s with
  | register r => exact within_bind (r.within_adjust amount) fun _ => within_pure _
  | fieldRegister r => exact within_bind (r.within_adjust amount) fun _ => within_pure _
  | stack | array | composite => exact within_pure _

end VmState

/-! ## The state of a builder -/

namespace Emit

variable [Accrues R]

theorem within_replaceState [Rewrites b R] (s : VmState) : Within R (replaceState b s) :=
  within_bind (within_record b) fun _ => within_ite (within_pure _)
    (within_bind (within_updateRecord fun _ => ⟨rfl, rfl⟩) fun _ => within_pure _)

theorem within_commitState [Admits b R] : Within R (commitState b) := by
  refine within_bind (within_record b) fun r => ?_
  cases r.state with
  | none => exact within_pure _
  | some s => exact s.within_commit

theorem within_reloadState [Rewrites b R] : Within R (reloadState b) := by
  refine within_bind (within_record b) fun r => ?_
  cases r.state with
  | none => exact within_pure _
  | some s => exact within_bind s.within_reload fun _ => within_updateRecord fun _ => ⟨rfl, rfl⟩

theorem within_operandStack : Within R (operandStack b) := by
  grind [within_bind, within_record, within_throw, within_pure, operandStack]

theorem within_setOperandStack [Rewrites b R] (s : OperandStack) : Within R (setOperandStack b s) :=
  within_updateRecord fun _ => ⟨rfl, rfl⟩

theorem within_stackPush [Rewrites b R] (v : ValueId) : Within R (stackPush b v) :=
  within_bind within_operandStack fun _ => within_setOperandStack _

theorem within_stackPop [Rewrites b R] : Within R (stackPop b) :=
  within_bind within_operandStack fun _ => within_bind (within_lift _) fun _ =>
    within_bind (within_setOperandStack _) fun _ => within_pure _

theorem within_stackTop : Within R (stackTop b) :=
  within_bind within_operandStack fun _ => within_lift _

theorem within_stackPick (n : Nat) : Within R (stackPick b n) :=
  within_bind within_operandStack fun _ => within_lift _

theorem within_stackDrop [Rewrites b R] (n : Nat) : Within R (stackDrop b n) :=
  within_bind within_operandStack fun _ => within_bind (within_lift _) fun _ =>
    within_setOperandStack _

theorem within_stackDup [Rewrites b R] : Within R (stackDup b) :=
  within_bind within_operandStack fun _ => within_bind (within_lift _) fun _ =>
    within_setOperandStack _

end Emit

/-! ## Computations that can fail -/

namespace Build

/-- Every run that ends well, whether it fails or not, leads from one method to another in this
    way. -/
def Within (R : Method → Method → Prop) (x : Build α) : Prop := Emit.Within R x.run

theorem within_lift (hx : Emit.Within R x) : Within R (liftM x : Build α) := by
  intro m r m' h
  obtain ⟨a, h, -⟩ := lift_eq_ok.1 h
  exact hx m a m' h

section

variable [Accrues R]

theorem within_pure (a : α) : Within R (pure a : Build α) := by
  intro m r m' h
  obtain ⟨-, rfl⟩ := pure_eq_ok.1 h
  exact Accrues.refl m

theorem within_throw (e : BuildError) : Within R (throw e : Build α) := by
  intro m r m' h
  obtain ⟨-, rfl⟩ := throw_eq_ok.1 h
  exact Accrues.refl m

omit [Accrues R] in
theorem within_fault (e : Fault) : Within R (throwThe Fault e : Build α) := by
  intro m r m' h
  cases h

theorem within_get : Within R (get : Build Method) := by
  intro m r m' h
  obtain ⟨-, rfl⟩ := get_eq_ok.1 h
  exact Accrues.refl m

theorem within_bind {x : Build α} {f : α → Build β} (hx : Within R x) (hf : ∀ a, Within R (f a)) :
    Within R (x >>= f) := by
  intro m r m' h
  rcases bind_eq_ok.1 h with ⟨a, m1, h1, h2⟩ | ⟨e, m1, h1, hr⟩
  · exact Accrues.trans (hx m _ m1 h1) (hf a m1 r m' h2)
  · cases hr
    exact hx m _ m' h1

omit [Accrues R] in
theorem within_ite [Decidable c] {x y : Build α} (hx : Within R x) (hy : Within R y) :
    Within R (if c then x else y) := by
  split
  · exact hx
  · exact hy

theorem within_definedSymbol (name : String) : Within R (definedSymbol name) := by
  grind [within_bind, within_get, within_throw, within_pure, definedSymbol]

theorem within_field (aggregate part : String) : Within R (field aggregate part) := by
  grind [within_bind, within_get, within_throw, within_pure, field]

end

/-! ## Symbols and memory -/

theorem within_localSymbol [Accrues R] (b : BuilderId) [Admits b R] (name : String)
    (ty : Ty) : Within R (localSymbol name ty) := by
  intro m r m' h
  rcases bind_eq_ok.1 h with ⟨_, _, h1, h⟩ | ⟨e, m1, h1, -⟩
  · obtain ⟨h1, rfl⟩ := get_eq_ok.1 h1
    cases h1
    cases hs : m.graph.lookup name with
    | some s =>
      rw [hs] at h
      exact within_pure _ _ _ _ h
    | none =>
      rw [hs] at h
      dsimp only at h
      split at h
      · rcases bind_eq_ok.1 h with ⟨_, _, h2, -⟩ | ⟨e, m2, h2, hr⟩
        · obtain ⟨h2, -⟩ := throw_eq_ok.1 h2
          cases h2
        · cases hr
          exact within_throw _ _ _ _ h2
      · rcases bind_eq_ok.1 h with ⟨_, m2, h2, h⟩ | ⟨e, m2, h2, -⟩
        · cases h2
          obtain ⟨-, rfl⟩ := pure_eq_ok.1 h
          exact Admits.symbol b m name ty .localVar
        · cases h2
  · obtain ⟨h1, -⟩ := get_eq_ok.1 h1
    cases h1

variable [Accrues R] [Admits b R]

theorem within_load (name : String) : Within R (load b name) :=
  within_bind (within_definedSymbol name) fun s => within_lift (within_loadSymbol s)

theorem within_store (name : String) (v : ValueId) : Within R (store b name v) :=
  within_bind (within_lift (within_typeOf v)) fun ty =>
    within_bind (within_localSymbol b name ty) fun s => within_lift (within_storeSymbol s v)

theorem within_fieldAddress (aggregate part : String) (object : ValueId) :
    Within R (fieldAddress b aggregate part object) :=
  within_bind (within_field aggregate part) fun _ => within_lift (within_offsetAt _ _)

theorem within_loadIndirect (aggregate part : String) (object : ValueId) :
    Within R (loadIndirect b aggregate part object) :=
  within_bind (within_field aggregate part) fun _ =>
    within_bind (within_lift (within_offsetAt _ _)) fun _ =>
      within_lift (within_loadAt _ _)

theorem within_storeIndirect (aggregate part : String) (object v : ValueId) :
    Within R (storeIndirect b aggregate part object v) :=
  within_bind (within_field aggregate part) fun _ =>
    within_bind (within_lift (within_offsetAt _ _)) fun _ =>
      within_lift (within_storeAt _ _)

theorem within_atomicAdd (address v : ValueId) : Within R (atomicAdd b address v) := by
  refine within_bind within_get fun m => ?_
  have hadd : Within R (do
      let ty ← typeOf v
      emitValue b .atomicAdd [address, v] ty : Build ValueId) := by
    intro m r m' h
    rcases bind_eq_ok.1 h with ⟨ty, m1, h1, h⟩ | ⟨e, m1, h1, -⟩
    · obtain ⟨_, h1, hty⟩ := lift_eq_ok.1 h1
      cases hty
      obtain ⟨hv, rfl⟩ := typeOf_eq_ok.1 h1
      obtain ⟨w, h, -⟩ := lift_eq_ok.1 h
      refine emitValue_within rfl rfl (fun g hg w hw => ?_) h
      exact ⟨v, ty, rfl, hg.values v ty hv, hw⟩
    · obtain ⟨_, -, he⟩ := lift_eq_ok.1 h1
      cases he
  exact within_ite (within_bind (within_throw _) fun _ => hadd) hadd

/-! ## New states -/

theorem within_register (name : String) (ty : Ty) (step : Int64) (address : ValueId) :
    Within R (Register.create b name ty step address) :=
  within_bind (within_localSymbol b name ty) fun _ =>
    within_bind (within_lift (Register.within_reload _)) fun _ => within_pure _

theorem within_fieldRegister (aggregate object part name : String) :
    Within R (FieldRegister.create b aggregate object part name) :=
  within_bind (within_definedSymbol object) fun _ =>
    within_bind (within_field aggregate part) fun _ =>
      within_bind (within_localSymbol b name _) fun _ =>
        within_bind (within_lift (FieldRegister.within_reload _)) fun _ => within_pure _

theorem within_operandStack (pointer : Register) (element : Ty) (growsUp : Bool) (offset : Int) :
    Within R (OperandStack.create b pointer element growsUp offset) := by
  refine within_bind (within_lift (within_symbol _)) fun y =>
    within_bind (within_localSymbol b _ _) fun base =>
      within_bind (within_lift pointer.within_load) fun top => ?_
  have hbase : Within R (do
      let address ← elementAt b element top (if growsUp then -offset else offset)
      storeSymbol b base address
      return { element, pointer, base, growsUp, offset } : Build OperandStack) :=
    within_bind (within_lift (within_elementAt _ _ _)) fun _ =>
      within_bind (within_lift (within_storeSymbol _ _)) fun _ => within_pure _
  exact within_ite (within_bind (within_fault _) fun _ => hbase) hbase

theorem within_operandArray (count : Nat) (element : Ty) (base : String) :
    Within R (OperandArray.create b count element base) :=
  within_bind (within_definedSymbol base) fun _ =>
    within_bind (within_lift (OperandArray.within_readSlots _ _ _)) fun _ => within_pure _

end Build

end MethodGraph
