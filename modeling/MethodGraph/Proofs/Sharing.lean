import MethodGraph.Proofs.Distinct
/-!
  Arrivals at slots that share a value.

  A state that arrives is stored over the one that a builder starts from, and that is turned down if
  a slot would have to receive two values.  Where all slots have values of their own this cannot
  happen, whatever the state that arrives.  `Emit.Apportions` says of a computation that it does not
  find such a slot.

  Main statement: whatever a caller has asked for, the slots of the state that a builder starts from
  are distinct unless a registration made it, and so no later arrival there is turned down because
  slots share a value (`Method.initial_slots_distinct`).
-/

namespace MethodGraph

open List

variable {source target : BuilderId} {f : Fault} {p : Prop} {γ : Type}

variable {α β : Type} {m : Method} {b : BuilderId} {x : Emit α}

/-! ## Arrivals that are turned down -/

/-- Slots that are to be stored over share a value. -/
def Fault.isShared : Fault → Bool
  | mergeShared .. => true
  | _ => false

namespace Emit

/-- The computation never finds that slots share a value. -/
def Apportions (x : Emit α) : Prop := ∀ m f, x.run m = .error f → f.isShared = false

namespace Apportions

theorem pure (a : α) : Apportions (pure a : Emit α) := fun _ _ h => nomatch h

theorem throw (hf : f.isShared = false) : Apportions (throw f : Emit α) := by
  intro m f' h
  cases h
  exact hf

theorem lift {x : Except Fault α} (hx : ∀ f, x = .error f → f.isShared = false) :
    Apportions (liftM x : Emit α) := by
  intro m f h
  cases x with
  | error f' =>
    cases h
    exact hx f rfl
  | ok a => cases h

theorem bind {f : α → Emit β} (hx : Apportions x) (hf : ∀ a, Apportions (f a)) :
    Apportions (x >>= f) := by grind [bind_eq_error, Apportions]

theorem ite [Decidable p] {y : Emit α} (hx : Apportions x) (hy : Apportions y) :
    Apportions (if p then x else y) := by
  split
  · exact hx
  · exact hy

theorem guard [Decidable p] {k : PUnit → Emit α} (hf : f.isShared = false)
    (hk : Apportions (k ⟨⟩)) : Apportions (if p then MonadExcept.throw f >>= k else k ⟨⟩) := by
  grind [bind_eq_error, throw, Apportions]

theorem get : Apportions (get : Emit Method) := fun _ _ h => nomatch h

theorem modify (f : Method → Method) : Apportions (modify f : Emit PUnit) := fun _ _ h => nomatch h

theorem forM {f : γ → Emit PUnit} (hf : ∀ c, Apportions (f c)) :
    ∀ cs : List γ, Apportions (cs.forM f)
  | [] => pure _
  | c :: cs => bind (hf c) fun _ => forM hf cs

theorem mapM {f : γ → Emit α} (hf : ∀ c, Apportions (f c)) : ∀ cs : List γ, Apportions (cs.mapM f)
  | [] => by
    rw [mapM_nil]
    exact pure _
  | c :: cs => by
    rw [mapM_cons]
    exact bind (hf c) fun _ => bind (mapM hf cs) fun _ => pure _

theorem fetch (a : Arena γ) (i : Nat) : Apportions (liftM (a.fetch i) : Emit γ) := by
  refine lift fun f h => ?_
  unfold Arena.fetch at h
  split at h <;> cases h
  rfl

theorem typeOf (v : ValueId) : Apportions (typeOf v) := bind get fun _ => fetch _ _

theorem builder (b : BuilderId) : Apportions (builder b) := bind get fun _ => fetch _ _

theorem updateBuilder (b : BuilderId) (f : Builder → Builder) :
    Apportions (updateBuilder b f) :=
  bind get fun _ => ite (fun _ _ h => nomatch h) (throw rfl)

theorem record (b : BuilderId) : Apportions (record b) := by
  refine bind (builder b) fun d => ?_
  cases d.bytecode with
  | none => exact throw rfl
  | some r => exact pure r

theorem updateRecord (b : BuilderId) (f : BytecodeRecord → BytecodeRecord) :
    Apportions (updateRecord b f) := bind (record b) fun _ => updateBuilder b _

/-- A change of the graph of which a block may be missing. -/
theorem onGraph {f : Graph → Except Fault Graph}
    (hf : ∀ g flt, f g = .error flt → flt.isShared = false) : Apportions (onGraph f) :=
  bind get fun m => bind (lift (hf m.graph)) fun _ _ _ h => nomatch h

theorem updateBlock_error {g : Graph} {x : BlockId} {f : Block → Block} {flt : Fault}
    (h : g.updateBlock x f = .error flt) : flt.isShared = false := by
  unfold Graph.updateBlock at h
  split at h <;> cases h
  rfl

theorem push (x : BlockId) (op : Operation) : Apportions (Emit.onGraph (·.push x op)) :=
  onGraph fun _ _ h => updateBlock_error h

theorem addEdge (x y : BlockId) : Apportions (addEdge x y) := by
  refine onGraph fun g flt h => ?_
  unfold Graph.addEdge at h
  cases hx : g.updateBlock x (·.addSucc y) with
  | error e =>
    rw [hx] at h
    cases h
    exact updateBlock_error hx
  | ok g' =>
    rw [hx] at h
    exact updateBlock_error h

theorem extend (b : BuilderId) (entry : Entry) (tail : Tail) (target : BlockId) :
    Apportions (extend b entry tail target) := by
  refine bind (builder b) fun d => guard (p := d.connected = true) rfl ?_
  refine bind (updateBuilder b _) fun _ => ?_
  cases d.tail.block? with
  | none => exact pure _
  | some x => exact addEdge x target

theorem newBlock : Apportions newBlock := fun _ _ h => nomatch h

theorem openBlock (b : BuilderId) : Apportions (openBlock b) := by
  grind [bind, builder, appendBlock, newBlock, extend, pure, openBlock]

theorem emit (b : BuilderId) (op : Operation) : Apportions (emit b op) :=
  bind (openBlock b) fun _ => push _ op

theorem emitValue (b : BuilderId) (opcode : Opcode) (operands : List ValueId) (ty : Ty) :
    Apportions (emitValue b opcode operands ty) :=
  bind (fun _ _ h => nomatch h) fun _ => bind (emit b _) fun _ => pure _

theorem transfer (b : BuilderId) (opcode : Opcode) (operands : List ValueId)
    (targets : List BlockId) : Apportions (transfer b opcode operands targets) :=
  bind (openBlock b) fun x => bind (push x _) fun _ => bind (forM (addEdge x) targets) fun _ =>
    updateBuilder b _

theorem gotoBuilder (b target : BuilderId) : Apportions (gotoBuilder b target) :=
  bind (bind (builder target) fun _ => pure _) fun _ => transfer b _ _ _

theorem ifCmp (b : BuilderId) (c : Cmp) (target : BuilderId) (v w : ValueId) :
    Apportions (ifCmp b c (some target) v w) :=
  bind (pure target) fun t => bind (bind (builder t) fun _ => pure _) fun _ =>
    bind (transfer b _ _ _) fun _ => pure _

theorem ifCmpZero (b : BuilderId) (c : Cmp) (target : BuilderId) (v : ValueId) :
    Apportions (ifCmpZero b c (some target) v) :=
  bind (typeOf v) fun _ => bind (ite (emitValue b _ _ _) (emitValue b _ _ _)) fun _ =>
    ifCmp b c target v _

theorem copy (b : BuilderId) (v : ValueId) : Apportions (copy b v) :=
  bind (typeOf v) fun _ => emitValue b _ _ _

theorem storeOver (b : BuilderId) (w v : ValueId) : Apportions (storeOver b w v) :=
  bind (typeOf w) fun _ => bind (typeOf v) fun _ => guard rfl (emit b _)

theorem orphanBytecode (index : Int) (name : Option String) :
    Apportions (orphanBytecode index name) := by
  unfold Emit.orphanBytecode
  exact guard rfl fun _ _ h => nomatch h

theorem enqueue (b : BuilderId) : Apportions (enqueue b) := by
  grind [bind, builder, pure, modify, enqueue]

end Apportions

/-- Where all targets are distinct, none receives two values. -/
theorem checkShared_distinct {seen pairs : List (ValueId × ValueId)}
    (h : ((seen ++ pairs).map Prod.snd).Nodup) : checkShared seen pairs = .ok () := by
  induction pairs generalizing seen with
  | nil => rfl
  | cons p pairs ih => grind [checkShared]

theorem mergeValues_apportions {vs ws : List ValueId} (hlen : vs.length = ws.length)
    (h : ws.Nodup) : Apportions (mergeValues b (vs.zip ws)) := by
  have hstores : ∀ moves : List (ValueId × ValueId),
      Apportions (moves.forM fun p => storeOver b p.1 p.2) :=
    .forM fun p => .storeOver b p.1 p.2
  have hshared : checkShared [] (vs.zip ws) = .ok () := by
    refine checkShared_distinct ?_
    rw [nil_append, map_snd_zip hlen.symm.le]
    exact h
  refine .bind (.lift fun f hf => ?_) fun _ => .ite ?_ ?_
  · rw [hshared] at hf
    cases hf
  · exact .bind (.mapM (.copy b) _) fun _ => hstores _
  · exact .bind (.pure _) fun _ => hstores _

end Emit

namespace VmState

open Emit

mutual

/-- A state can be stored over one whose slots are distinct, as far as sharing goes. -/
theorem mergeInto_apportions (s t : VmState) (h : t.slots.Nodup) :
    Apportions (s.mergeInto b t) := by
  cases s <;> cases t <;> simp only [mergeInto]
  case register.register | fieldRegister.fieldRegister => exact .ite (.pure _) (.throw rfl)
  case stack.stack =>
    split
    · next halike =>
      simp only [OperandStack.alike, Bool.and_eq_true, beq_iff_eq] at halike
      exact mergeValues_apportions halike.1.1.1 h
    · exact .throw rfl
  case array.array =>
    split
    · next halike =>
      simp only [OperandArray.alike, Bool.and_eq_true, beq_iff_eq] at halike
      exact mergeValues_apportions halike.1.1 h
    · exact .throw rfl
  case composite.composite ss ts => exact .ite (mergeAll_apportions ss ts h) (.throw rfl)
  all_goals exact .throw rfl

theorem mergeAll_apportions : ∀ ss ts : List VmState, (slotsOfAll ts).Nodup →
    Apportions (mergeAll b ss ts)
  | s :: ss, t :: ts => by
    intro h
    simp only [slotsOfAll] at h
    rw [mergeAll]
    exact .bind (mergeInto_apportions s t (nodup_append.1 h).1) fun _ =>
      mergeAll_apportions ss ts (nodup_append.1 h).2.1
  | [], ts => by
    intro _
    cases ts <;> exact .pure _
  | s :: ss, [] => fun _ => .pure _

end

theorem dealiasSlots_apportions (b : BuilderId) :
    ∀ vs seen, Apportions (dealiasSlots b vs seen)
  | [], _ => .pure _
  | v :: vs, seen => by
    have hrest : ∀ w, Apportions (do
        let p ← dealiasSlots b vs (w :: seen)
        return (w :: p.1, p.2)) :=
      fun w => .bind (dealiasSlots_apportions b vs (w :: seen)) fun _ => .pure _
    exact .ite (.bind (.copy b v) hrest) (.bind (.pure v) hrest)

theorem dealias_apportions (b : BuilderId) (s : VmState) : Apportions (s.dealias b) := by
  intro m f h
  rcases bind_eq_error.1 h with h | ⟨_, _, -, h⟩
  · refine dealiasSlots_apportions b s.slots [] m f ?_
    rw [← slots_dealiasWith, StateT.run_map, h]
    rfl
  · cases h

end VmState

variable (ht : ∀ t, m.initial? target = some t → t.slots.Nodup)

namespace Emit

open Method

/-- The computation does not find on this method that slots share a value. -/
def ApportionsOn (m : Method) (x : Emit α) : Prop :=
  ∀ f, x.run m = .error f → f.isShared = false

theorem ApportionsOn.bind {f : α → Emit β} (hx : ApportionsOn m x) (hf : ∀ a, Apportions (f a)) :
    ApportionsOn m (x >>= f) := by
  grind [bind_eq_error, ApportionsOn, Apportions]

include ht in
/-- A state that arrives at a builder is not turned down for slots that share a value, if the state
    that the builder starts from has distinct slots. -/
theorem carryState_apportions : ApportionsOn m (carryState source target) := by
  intro f h
  rcases bind_eq_error.1 h with h | ⟨rs, _, h1, h⟩
  · exact Apportions.record source m f h
  obtain ⟨-, rfl⟩ := record_eq_ok.1 h1
  split at h
  · next s _ =>
    rcases bind_eq_error.1 h with h | ⟨rt, _, h2, h⟩
    · exact Apportions.record target m f h
    obtain ⟨⟨dt, hdt, hrt⟩, rfl⟩ := record_eq_ok.1 h2
    cases hinitial : rt.initial with
    | none =>
      rw [hinitial] at h
      have hfirst : Apportions (do
          let s ← s.dealias source
          startFrom target s
          updateRecord source fun r => { r with state := some s }
          return target) :=
        .bind (VmState.dealias_apportions source s) fun _ =>
          .bind (.updateRecord target _) fun _ => .bind (.updateRecord source _) fun _ => .pure _
      exact hfirst m f h
    | some t =>
      rw [hinitial] at h
      have hdistinct := ht t (record?_bind_eq_some.2 ⟨dt, rt, hdt, hrt, hinitial⟩)
      have hlater : Apportions (mergeBuilder s t target) :=
        .bind (.record target) fun r => .bind (.orphanBytecode _ _) fun b =>
          .bind (VmState.mergeInto_apportions s t hdistinct) fun _ =>
          .bind (.gotoBuilder b target) fun _ => .bind (.updateRecord b _) fun _ => .pure _
      exact hlater m f h
  · exact Apportions.throw rfl m f h

theorem addSuccessor_apportions (source : BuilderId)
    (ht : ∀ t, m.initial? target = some t → t.slots.Nodup) :
    ApportionsOn m (addSuccessor source target) := by
  refine (carryState_apportions ht).bind fun p => .bind (.record source) fun _ =>
    .bind (.record target) fun _ => ?_
  have hrest : Apportions (do
      updateRecord source fun r => { r with successors := r.successors ++ [p] }
      enqueue target
      return p) :=
    .bind (.updateRecord source _) fun _ => .bind (.enqueue target) fun _ => .pure _
  exact .ite (.bind (.modify _) fun _ => hrest) hrest

include ht in
theorem addFallThrough_apportions : ApportionsOn m (addFallThrough source target) := by
  intro f h
  rcases bind_eq_error.1 h with h | ⟨d, _, h1, h⟩
  · exact Apportions.builder source m f h
  obtain ⟨-, rfl⟩ := builder_eq_ok.1 h1
  dsimp only at h
  split at h
  · rcases bind_eq_error.1 h with h | ⟨_, m1, h2, -⟩
    · exact Apportions.throw rfl m f h
    · exact absurd h2 throw_ne_ok
  · refine (addSuccessor_apportions _ ht).bind (fun p => ?_) f h
    exact .bind (.updateRecord source _) fun _ => .bind (.gotoBuilder source p) fun _ => .pure _

end Emit

open Emit in
/-- No registration of a successor that starts from distinct slots finds that slots share a
    value. -/
theorem Call.apply_apportions {c : Call} (hc : c.arrival? = some (source, target))
    (ht : ∀ t, m.initial? target = some t → t.slots.Nodup)
    (h : c.apply m = .error f) : f.isShared = false := by
  have of_emit : ∀ {x : Emit BuilderId}, c.run = discard (liftM x : Build BuilderId) →
      ApportionsOn m x → f.isShared = false := by
    intro x hrun hx
    refine hx f ?_
    have hfault : c.run.run.run m = .error f := by
      unfold Call.apply at h
      cases hr : c.run.run.run m with
      | error f' =>
        rw [hr] at h
        cases h
        rfl
      | ok p =>
        rw [hr] at h
        cases h
    rw [hrun] at hfault
    rcases Build.bind_eq_error.1 hfault with h | ⟨a, m1, -, h⟩
    · exact Build.lift_eq_error.1 h
    · cases h
  have hadd := addSuccessor_apportions source ht
  cases c with
  | addSuccessor =>
    cases hc
    exact of_emit rfl hadd
  | addFallThrough =>
    cases hc
    exact of_emit rfl (addFallThrough_apportions ht)
  | bytecodeGoto =>
    cases hc
    exact of_emit rfl (hadd.bind fun p => .bind (.gotoBuilder _ p) fun _ => .pure _)
  | bytecodeIfCmp _ cmp _ v w =>
    cases hc
    exact of_emit rfl (hadd.bind fun p => .ifCmp _ cmp p v w)
  | bytecodeIfCmpZero _ cmp _ v =>
    cases hc
    exact of_emit rfl (hadd.bind fun p => .ifCmpZero _ cmp p v)
  | _ => cases hc

/-! ## Methods that a caller can get to -/

namespace Method

/-- In every method that calls lead to, if they only put values into states that there are, the
    state that a builder starts from has distinct slots, across all its components, unless the
    builder was made by a registration.  So any state can be stored over it as far as sharing goes,
    and no registration that lets a state arrive at the builder finds that slots share a value. -/
theorem initial_slots_distinct {name : String} {config : Config} {calls : List Call}
    (hafter : (Method.new name config).after calls = .ok m)
    (hedits : (Method.new name config).ownsEdits calls = true) {b : BuilderId} {s : VmState}
    (hb : b ∉ (Method.new name config).intermediates calls) (hs : m.initial? b = some s) :
    s.slots.Nodup ∧
    (∀ (t : VmState) e m' v u w, (t.mergeInto e s).run m' ≠ .error (.mergeShared v u w)) ∧
    ∀ (c : Call) source v u w, c.arrival? = some (source, b) →
      c.apply m ≠ .error (.mergeShared v u w) := by
  have hdistinct := after_distinct (.new name config fun _ => False) hedits hafter
  have hnodup : s.slots.Nodup :=
    (hdistinct.initials b s hs).2 fun hmade => hmade.elim id hb
  refine ⟨hnodup, fun t e m' v u w h => ?_, fun c source v u w hc h => ?_⟩
  · cases VmState.mergeInto_apportions t s hnodup m' _ h
  · have hsame : ∀ t, m.initial? b = some t → t.slots.Nodup := by
      intro t ht
      cases hs.symm.trans ht
      exact hnodup
    cases Call.apply_apportions hc hsame h

/-- A builder is arrived at with both slots sharing a value, and then with both sharing another. -/
def sharing : List Call := [
  .constInt 0 .int32 7, .setVmState (twoInts 0 0), .orphanBytecode 0 none, .appendBytecode 1,
  .orphanBytecode 1 none, .replaceState 1 (twoInts 0 0), .addSuccessor 1 2,
  .replaceState 1 (twoInts 1 1), .addSuccessor 1 2]

/-- A case of it: the builder starts from two values, and only the one that was made on the way of
    the second arrival starts from one value twice. -/
theorem initial_slots_distinct_sharing : ∃ m s,
    (Method.new "sharing" {}).after sharing = .ok m ∧
    (Method.new "sharing" {}).intermediates sharing = [3] ∧
    (m.initial? 3).map (·.slots) = some [1, 1] ∧ m.initial? 2 = some s ∧ s.slots = [0, 2] ∧
    s.slots.Nodup ∧ ∀ v u w, (Call.bytecodeGoto 1 2).apply m ≠ .error (.mergeShared v u w) := by
  have hcheck : passes ((Method.new "sharing" {}).after sharing) (fun m => decide (
      (Method.new "sharing" {}).intermediates sharing = [3] ∧
      (Method.new "sharing" {}).ownsEdits sharing = true ∧
      (m.initial? 3).map (·.slots) = some [1, 1] ∧
      (m.initial? 2).map (·.slots) = some [0, 2])) = true := by decide +kernel
  obtain ⟨m, hafter, hmade, hedits, hthird, hsecond⟩ := of_passes_decide hcheck
  obtain ⟨s, hs, hslots⟩ := Option.map_eq_some_iff.1 hsecond
  obtain ⟨hnodup, -, hnever⟩ := initial_slots_distinct hafter hedits (by rw [hmade]; decide) hs
  exact ⟨m, s, hafter, hmade, hthird, hs, hslots, hnodup, fun v u w => hnever _ 1 v u w rfl⟩

end Method
end MethodGraph
