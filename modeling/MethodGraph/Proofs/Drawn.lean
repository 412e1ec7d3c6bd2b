import MethodGraph.Method.Loop
import MethodGraph.Proofs.Sketch
/-!
  What constructs add to the texts of builders.

  Each construct is a run of primitives, so its sketch is found by composing theirs.  The builders
  that a loop makes are the next ones that there are, and the text of each is known to its end.
-/

namespace MethodGraph

open List Emit Function Sketch Nat Makes

variable {name : String} {y : Symbol} {s : SymbolId} {ty : Ty} {v : ValueId}

variable {sk : Sketch} {b c : BuilderId}

namespace Build

variable {α β : Type} {x : Build α} {Q : α → Sketch → Prop} {a : α} {f : α → Build β}
  {R : β → Sketch → Prop}

/-- On every method with the sketch the computation succeeds, and what it gives and the sketch of
    the method then satisfy `Q`. -/
def Makes (x : Build α) (sk : Sketch) (Q : α → Sketch → Prop) : Prop :=
  ∀ m, m.Shows sk → ∃ a m' sk', x.run.run m = .ok (.ok a, m') ∧ m'.Shows sk' ∧ Q a sk'

namespace Makes

theorem pure (h : Q a sk) : Makes (Pure.pure a) sk Q :=
  fun m hm => ⟨a, m, sk, rfl, hm, h⟩

theorem bind (hx : Makes x sk Q) (hf : ∀ a sk', Q a sk' → Makes (f a) sk' R) :
    Makes (x >>= f) sk R := by
  grind [bind_eq_ok, Makes]

theorem imp {R : α → Sketch → Prop} (hx : Makes x sk Q) (h : ∀ a sk', Q a sk' → R a sk') :
    Makes x sk R := by grind [Makes]

theorem lift {y : Emit α} (h : Emit.Makes y sk Q) : Makes (liftM y) sk Q := by
  grind [lift_eq_ok, Makes, Emit.Makes]

end Makes
end Build

/-- The symbol called `name`. -/
def Sketch.lookup (sk : Sketch) (name : String) : Option SymbolId :=
  sk.symbols.items.findIdx? (·.name == name)

variable (hb : b < sk.count)

namespace Emit

/-! ## Values -/

include hb in
theorem zero_makes (hty : ty.isFloating = false) :
    Makes (zero b ty) sk (sk.Computes b ty (.constInt 0) []) := by
  unfold zero
  rw [hty]
  exact emitValue_makes hb [] ty rfl rfl

include hb in
theorem loadSymbol_makes (h : sk.symbols.get? s = some y) :
    Makes (loadSymbol b s) sk (sk.Computes b y.ty (.load s) []) := by
  exact .read (symbol_reads h) (emitValue_makes hb [] _ rfl rfl)

include hb in
theorem storeSymbol_makes (s : SymbolId) (v : ValueId) :
    Makes (storeSymbol b s v) sk fun _ => sk.Writes b ⟨.store s, [v], none, []⟩ :=
  emit_makes hb rfl rfl rfl

include hb in
theorem binary_makes {op : Arith} {l r : ValueId} {lt rt : Ty} (hl : sk.values.get? l = some lt)
    (hr : sk.values.get? r = some rt) (hty : resultType op lt rt = .ok ty) :
    Makes (binary b op l r) sk (sk.Computes b ty (.arith op) [l, r]) := by
  refine .read (typeOf_reads hl) (.read (typeOf_reads hr) ?_)
  exact .read (fun m _ => lift_eq_ok.2 ⟨hty, rfl⟩) (emitValue_makes hb [l, r] _ rfl rfl)

include hb in
theorem negate_makes (hv : sk.values.get? v = some ty) :
    Makes (negate b v) sk (sk.Computes b ty (.arith .neg) [v]) := by
  exact .read (typeOf_reads hv) (emitValue_makes hb [v] _ rfl rfl)

/-! ## Transfers -/

include hb in
theorem ifCmp_makes (hc : c < sk.count) (cmp : Cmp) (l r : ValueId) :
    Makes (ifCmp b cmp (some c) l r) sk fun _ =>
      sk.Writes b ⟨.branch cmp, [l, r], none, [sk.entry c]⟩ := by
  refine .read (fun _ _ => rfl) (.read (entryOf_reads hc) ?_)
  have htarget : ∀ t ∈ [sk.entry c], sk.IsTarget t := forall_mem_singleton.2 (.inr ⟨c, hc, rfl⟩)
  exact (transfer_makes hb [l, r] rfl htarget).bind fun _ _ h => .pure h

include hb in
theorem gotoBlock_makes {target : BlockId} (ht : sk.IsTarget target) :
    Makes (gotoBlock b target) sk fun _ => sk.Writes b ⟨.goto, [], none, [target]⟩ :=
  transfer_makes hb [] rfl (forall_mem_singleton.2 ht)

include hb in
theorem returnVoid_makes : Makes (returnVoid b) sk fun _ => sk.Writes b ⟨.ret, [], none, []⟩ :=
  transfer_makes hb [] rfl fun _ h => absurd h not_mem_nil

include hb in
theorem returnValue_makes (hv : sk.values.get? v = some sk.returnType) :
    Makes (returnValue b v) sk fun _ => sk.Writes b ⟨.ret, [v], none, []⟩ := by
  refine .read (typeOf_reads hv) fun m hm => ?_
  have hsame : ¬ sk.returnType ≠ m.graph.returnType := by
    rw [hm.returnType]
    exact not_not_intro rfl
  have htransfer : Makes (transfer b .ret [v] []) sk _ :=
    transfer_makes hb [v] rfl fun _ h => absurd h not_mem_nil
  obtain ⟨u, m', sk', hrun, hm', hQ⟩ := htransfer m hm
  refine ⟨u, m', sk', bind_eq_ok.2 ⟨m, m, get_eq_ok.2 ⟨rfl, rfl⟩, ?_⟩, hm', hQ⟩
  exact guard_eq_ok.2 ⟨hsame, hrun⟩

include hb in
theorem gotoBuilder_makes (hc : c < sk.count) :
    Makes (gotoBuilder b c) sk fun _ => sk.Writes b ⟨.goto, [], none, [sk.entry c]⟩ :=
  .read (entryOf_reads hc) (gotoBlock_makes hb (.inr ⟨c, hc, rfl⟩))

/-- The text that compares a value with zero and goes elsewhere if the comparison holds. -/
def ZeroTest (cmp : Cmp) (v z : ValueId) (target : BlockId) (ts : List Token) : Prop :=
  ∃ t1 t2, ts = t1 ++ t2 ∧ Operation.Emits { opcode := .constInt 0, result := some z } t1 ∧
    Operation.Emits { opcode := .branch cmp, operands := [v, z], targets := [target] } t2

include hb in
theorem ifCmpZero_makes (hc : c < sk.count) (cmp : Cmp) (hv : sk.values.get? v = some ty)
    (hty : ty.isFloating = false) :
    Makes (ifCmpZero b cmp (some c) v) sk fun _ sk' => ∃ ts,
      ZeroTest cmp v sk.values.size (sk.entry c) ts ∧ sk' = (sk.value ty).put b ts := by
  refine .read (typeOf_reads hv) ((zero_makes hb hty).bind ?_)
  rintro z _ ⟨rfl, t1, ht1, rfl⟩
  have hb' : b < ((sk.value ty).put b t1).count := hb
  have hc' : c < ((sk.value ty).put b t1).count := hc
  refine (ifCmp_makes hb' hc' cmp v _).imp ?_
  rintro - _ ⟨t2, ht2, rfl⟩
  exact ⟨t1 ++ t2, ⟨t1, t2, rfl, ht1, ht2⟩, put_put ..⟩

/-! ## Paths -/

include hb in
theorem beginPaths_makes (hv : sk.values.get? v = some ty) (hty : ty.isFloating = false) :
    Makes (beginPaths b v) sk fun r sk' => r.1 = sk.values.size ∧ ∃ ts,
      Operation.Emits { opcode := .constInt 0, result := some r.1 } ts ∧
        sk' = ((sk.value ty).put b ts).withLoose (r.2 :: sk.loose) := by
  refine .read (typeOf_reads hv) ((zero_makes hb hty).bind ?_)
  rintro z _ ⟨hz, ts, hts, rfl⟩
  refine newBlock_makes.bind ?_
  rintro merge _ rfl
  exact .pure ⟨hz, ts, hts, rfl⟩

/-- A path that is part of no sequence is appended. -/
theorem follow_makes (h : sk.Free b c) :
    Makes (follow b c) sk fun _ sk' => sk' = sk.nest b c := by
  exact .read (isPlaced_reads h.lt' h.placed) (append_makes h)

theorem ifNot_makes (h : sk.Free b c) (cmp : Cmp) (hv : sk.values.get? v = some ty)
    (hty : ty.isFloating = false) :
    Makes (ifNot b cmp (some c) v) sk fun _ sk' => ∃ merge ts,
      ZeroTest cmp v sk.values.size merge ts ∧
        sk' = (((sk.value ty).put b ts).nest b c).put b [.label merge] := by
  refine (beginPaths_makes h.lt hv hty).bind ?_
  rintro ⟨z, merge⟩ _ ⟨rfl, t1, ht1, rfl⟩
  refine .read (fun _ _ => rfl) ?_
  have htarget : ∀ t ∈ [merge],
      (((sk.value ty).put b t1).withLoose (merge :: sk.loose)).IsTarget t :=
    forall_mem_singleton.2 (.inl mem_cons_self)
  refine bind (transfer_makes (by exact h.lt) _ rfl htarget) ?_
  rintro - _ ⟨t2, ht2, rfl⟩
  refine bind (follow_makes (h.congr le_rfl rfl)) ?_
  rintro - _ rfl
  refine bind (appendBlock_makes (by exact h.lt) mem_cons_self) ?_
  rintro - _ rfl
  refine .pure ⟨merge, t1 ++ t2, ⟨t1, t2, rfl, ht1, ht2⟩, ?_⟩
  rw [← put_put]
  unfold withLoose nest put
  simp only [erase_cons_head, value_loose]

theorem ifBoth_makes {p q : BuilderId} (hp : sk.Free b p) (hq : sk.Free b q) (hpq : p ≠ q)
    (hv : sk.values.get? v = some ty) (hty : ty.isFloating = false) :
    Makes (ifBoth b (some p) (some q) v) sk fun _ sk' => ∃ merge ts us,
      ZeroTest .ne v sk.values.size (sk.entry p) ts ∧
        Operation.Emits { opcode := .goto, targets := [merge] } us ∧
        sk' = (((((sk.value ty).put b ts).nest b q).put b us).nest b p).put b [.label merge] := by
  refine (beginPaths_makes hp.lt hv hty).bind ?_
  rintro ⟨z, merge⟩ _ ⟨rfl, t1, ht1, rfl⟩
  refine .read (fun _ _ => rfl) (.read (fun _ _ => rfl) ?_)
  refine .read (entryOf_reads (by exact hp.lt')) ?_
  refine bind (transfer_makes (by exact hp.lt) _ rfl ?_) ?_
  · exact forall_mem_singleton.2 (.inr ⟨p, hp.lt', rfl⟩)
  rintro - _ ⟨t2, ht2, rfl⟩
  refine bind (follow_makes (hq.congr le_rfl rfl)) ?_
  rintro - _ rfl
  refine bind (gotoBlock_makes (by exact hp.lt) (.inl mem_cons_self)) ?_
  rintro - _ ⟨us, hus, rfl⟩
  refine .read (isPlaced_reads (by exact hp.lt') ((update_of_ne hpq ..).trans hp.placed)) ?_
  refine bind (append_makes (hp.congr le_rfl (update_of_ne hpq ..))) ?_
  rintro - _ rfl
  refine bind (appendBlock_makes (by exact hp.lt) mem_cons_self) ?_
  rintro - _ rfl
  refine .pure ⟨merge, t1 ++ t2, us, ⟨t1, t2, rfl, ht1, ht2⟩, hus, ?_⟩
  rw [← put_put]
  unfold withLoose nest put
  simp only [erase_cons_head, value_loose]

end Emit

variable (h : sk.Free b c) (hs : sk.lookup name = some s) (hy : sk.symbols.get? s = some y)
  (hty : y.ty.isFloating = false)

namespace Build

variable {α β : Type}

/-- On every method with the sketch the computation gives `a` and leaves the method as it is. -/
def Reads (x : Build α) (sk : Sketch) (a : α) : Prop :=
  ∀ m, m.Shows sk → x.run.run m = .ok (.ok a, m)

/-- A step that only reads. -/
theorem Makes.read {x : Build α} (hx : Reads x sk a) (hf : Makes (f a) sk R) :
    Makes (x >>= f) sk R := by
  grind [bind_eq_ok, Makes, Reads]

theorem Reads.lift {x : Emit α} (h : Emit.Reads x sk a) : Reads (liftM x) sk a :=
  fun m hm => lift_eq_ok.2 ⟨a, h m hm, rfl⟩

/-! ## Locals -/

theorem lookup_of_shows {m : Method} (hm : m.Shows sk) (h : sk.lookup name = some s) :
    m.graph.lookup name = some s := by
  unfold Graph.lookup
  rw [hm.symbols]
  exact h

theorem localSymbol_reads (ty : Ty) (h : sk.lookup name = some s) :
    Reads (localSymbol name ty) sk s := by
  intro m hm
  refine bind_eq_ok.2 (.inl ⟨m, m, rfl, ?_⟩)
  rw [lookup_of_shows hm h]
  rfl

theorem definedSymbol_reads (h : sk.lookup name = some s) : Reads (definedSymbol name) sk s := by
  intro m hm
  refine bind_eq_ok.2 (.inl ⟨m, m, rfl, ?_⟩)
  rw [lookup_of_shows hm h]
  rfl

include hb in
theorem load_makes (hs : sk.lookup name = some s) (hy : sk.symbols.get? s = some y) :
    Makes (load b name) sk (sk.Computes b y.ty (.load s) []) :=
  .read (definedSymbol_reads hs) (.lift (loadSymbol_makes hb hy))

include hb in
theorem store_makes (hs : sk.lookup name = some s) (hv : sk.values.get? v = some ty) :
    Makes (store b name v) sk fun _ => sk.Writes b ⟨.store s, [v], none, []⟩ :=
  .read (.lift (typeOf_reads hv))
    (.read (localSymbol_reads ty hs) (.lift (storeSymbol_makes hb s v)))

/-! ## Loops -/

theorem setMayLoop_makes : Makes setMayLoop sk fun _ sk' => sk = sk' := by
  intro m hm
  have hquiet : m.Quiet { m with mayLoop := true } :=
    ⟨rfl, rfl, rfl, rfl, rfl, fun _ _ h => h, fun _ _ h => h⟩
  have hbuilds : Builds .plain ⟨m, sk.loose, []⟩ ⟨{ m with mayLoop := true }, sk.loose, []⟩ :=
    (Step.quiet hquiet (.inr rfl) (.inl rfl)).builds
  exact ⟨(), _, sk, rfl, ⟨⟨hm.count, hm.stream, hm.builders, hm.values, hm.symbols,
    hm.returnType⟩, hbuilds.ready rfl hm.ready⟩, rfl⟩

include h hs hy hty in
theorem whileDo_makes :
    Makes (whileDo b name (some c)) sk fun _ sk' => ∃ x1 y1 x2 y2 t1 t2 t3,
      Operation.Emits { opcode := .load s, result := some sk.values.size } t1 ∧
      Emit.ZeroTest .eq sk.values.size (sk.values.size + 1) x1 t2 ∧
      Operation.Emits { opcode := .goto, targets := [x2] } t3 ∧
      sk' = (((((((((sk.grow x1 y1).grow x2 y2).nest b (sk.count + 1)).value y.ty).put
        (sk.count + 1) t1).value y.ty).put (sk.count + 1) t2).nest b c).put b t3).nest b
        sk.count := by
  refine setMayLoop_makes.bind ?_
  rintro - _ rfl
  refine .read (.lift fun _ _ => rfl) (.read (localSymbol_reads _ hs) ?_)
  refine (Makes.lift orphan_makes).bind ?_
  rintro leave _ ⟨rfl, x1, y1, rfl⟩
  refine (Makes.lift orphan_makes).bind ?_
  rintro again _ ⟨rfl, x2, y2, rfl⟩
  have hbody := (h.grow x1 y1).grow x2 y2
  have hleave := (Free.made sk h.lt x1 y1).grow x2 y2
  have hagain := Free.made _ (h.grow x1 y1).lt x2 y2
  refine Makes.bind (.lift (append_makes hagain)) ?_
  rintro - _ rfl
  refine Makes.bind (.lift (loadSymbol_makes (by exact hagain.lt') hy)) ?_
  rintro v _ ⟨rfl, t1, ht1, rfl⟩
  refine Makes.bind (.lift (ifCmpZero_makes (by exact hagain.lt') (by exact hleave.lt') _
    (Sketch.get?_value_self ..) hty)) ?_
  rintro - _ ⟨t2, ht2, rfl⟩
  refine Makes.bind (.lift (append_makes (hbody.congr le_rfl
    (update_of_ne (h.grow x1 y1).lt'.ne ..)))) ?_
  rintro - _ rfl
  refine Makes.bind (.lift (gotoBuilder_makes (by exact hbody.lt) (by exact hagain.lt'))) ?_
  rintro - _ ⟨t3, ht3, rfl⟩
  refine Makes.bind (.lift (append_makes (hleave.congr le_rfl ?_))) ?_
  · simp [h.lt'.ne']
  rintro - _ rfl
  refine .pure ⟨x1, y1, x2, y2, t1, t2, t3, ht1, ?_, ?_, rfl⟩
  · simpa [Function.update_apply] using ht2
  · simpa [Function.update_apply] using ht3

include h hs hy hty in
theorem doWhile_makes :
    Makes (doWhile b name (some c)) sk fun _ sk' => ∃ x1 y1 x2 y2 t1 t2,
      Operation.Emits { opcode := .load s, result := some sk.values.size } t1 ∧
      Emit.ZeroTest .ne sk.values.size (sk.values.size + 1) (sk.entry c) t2 ∧
      sk' = (((((((((sk.nest b c).grow x1 y1).nest b sk.count).value y.ty).put sk.count t1).value
        y.ty).put sk.count t2).grow x2 y2).nest b (sk.count + 1)) := by
  refine setMayLoop_makes.bind ?_
  rintro - _ rfl
  refine .read (.lift fun _ _ => rfl) (.read (localSymbol_reads _ hs) ?_)
  refine Makes.bind (.lift (append_makes h)) ?_
  rintro - _ rfl
  refine (Makes.lift orphan_makes).bind ?_
  rintro again _ ⟨rfl, x1, y1, rfl⟩
  have hagain := Free.made (sk.nest b c) h.lt x1 y1
  refine Makes.bind (.lift (append_makes hagain)) ?_
  rintro - _ rfl
  refine Makes.bind (.lift (loadSymbol_makes (by exact hagain.lt') hy)) ?_
  rintro v _ ⟨rfl, t1, ht1, rfl⟩
  refine Makes.bind (.lift (ifCmpZero_makes (by exact hagain.lt') (by exact (h.grow x1 y1).lt') _
    (Sketch.get?_value_self ..) hty)) ?_
  rintro - _ ⟨t2, ht2, rfl⟩
  refine (Makes.lift orphan_makes).bind ?_
  rintro leave _ ⟨rfl, x2, y2, rfl⟩
  refine Makes.bind (.lift (append_makes (.made _ (by exact hagain.lt) x2 y2))) ?_
  rintro - _ rfl
  refine .pure ⟨x1, y1, x2, y2, t1, t2, ht1, ?_, rfl⟩
  simpa [Function.update_apply, h.lt'.ne] using ht2

/-- The comparison that keeps a counting loop going. -/
def loopCmp (up : Bool) : Cmp := if up then .lt else .gt

/-- The operator that counts. -/
def loopOp (up : Bool) : Arith := if up then .add else .sub

theorem resultType_loopOp (up : Bool) (ty : Ty) :
    Emit.resultType (loopOp up) ty ty = .ok ty := by
  cases up <;> cases ty <;> rfl

theorem forLoop_makes (h : sk.Free b c) (up : Bool) {i z d : ValueId}
    (hs : sk.lookup name = some s) (hy : sk.symbols.get? s = some y)
    (hi : sk.values.get? i = some ty) (hd : sk.values.get? d = some y.ty) :
    Makes (forLoop b up name (some c) i z d) sk fun _ sk' => ∃ x1 y1 x2 y2 x3 y3 merge,
      ∃ t1 t2 t3 t4 u1 u2 u3 u4 u5 sk1 sk2, Operation.Emits ⟨.store s, [i], none, []⟩ t1 ∧
      Operation.Emits ⟨.load s, [], some sk.values.size, []⟩ t2 ∧
      Operation.Emits
        ⟨.compare (loopCmp up), [sk.values.size, z], some (sk.values.size + 1), []⟩ t3 ∧
      Emit.ZeroTest .eq (sk.values.size + 1) (sk.values.size + 2) merge t4 ∧
      Operation.Emits ⟨.load s, [], some (sk.values.size + 3), []⟩ u1 ∧
      Operation.Emits
        ⟨.arith (loopOp up), [sk.values.size + 3, d], some (sk.values.size + 4), []⟩ u2 ∧
      Operation.Emits ⟨.store s, [sk.values.size + 4], none, []⟩ u3 ∧
      Operation.Emits ⟨.load s, [], some (sk.values.size + 5), []⟩ u4 ∧
      Operation.Emits ⟨.branch (loopCmp up), [sk.values.size + 5, z], none, [x1]⟩ u5 ∧
      sk1 = (((((((((sk.put b t1).grow x1 y1).value y.ty).put b t2).value .int32).put b t3).value
        .int32).put b t4).nest b sk.count).put b [.label merge] ∧
      sk2 = ((((((((((sk1.grow x2 y2).nest sk.count c).nest sk.count (sk.count + 1)).value
        y.ty).put (sk.count + 1) u1).value y.ty).put (sk.count + 1) u2).put (sk.count + 1)
        u3).value y.ty).put (sk.count + 1) u4).put (sk.count + 1) u5 ∧
      sk' = (sk2.grow x3 y3).nest b (sk.count + 2) := by
  refine setMayLoop_makes.bind ?_
  rintro - _ rfl
  refine .read (.lift fun _ _ => rfl) ((store_makes h.lt hs hi).bind ?_)
  rintro - _ ⟨t1, ht1, rfl⟩
  refine (Makes.lift orphan_makes).bind ?_
  rintro round _ ⟨rfl, x1, y1, rfl⟩
  have hround := Free.made (sk.put b t1) h.lt x1 y1
  -- the test before the first round
  refine Makes.bind (load_makes (by exact hround.lt) (by exact hs) hy) ?_
  rintro current _ ⟨rfl, t2, ht2, rfl⟩
  refine Makes.bind (.lift (emitValue_makes (by exact hround.lt) _ _ rfl rfl)) ?_
  rintro enter _ ⟨rfl, t3, ht3, rfl⟩
  refine Makes.bind (.lift (ifNot_makes (by exact hround.congr le_rfl rfl) _
    (Sketch.get?_value_self ..) rfl)) ?_
  rintro - _ ⟨merge, t4, ht4, rfl⟩
  refine (Makes.lift orphan_makes).bind ?_
  rintro again _ ⟨rfl, x2, y2, rfl⟩
  -- a round: the body and what decides on the next
  have hbody : ((sk.grow x1 y1).grow x2 y2).Free sk.count c :=
    { (h.grow x1 y1).grow x2 y2 with
      lt := (hround.grow x2 y2).lt'
      ne := h.lt'.ne }
  have hagain := Free.made (sk.grow x1 y1) hround.lt' x2 y2
  refine Makes.bind (.lift (append_makes (hbody.congr le_rfl ?_))) ?_
  · simp [h.lt'.ne, (Nat.lt_succ_of_lt h.lt').ne]
  rintro - _ rfl
  refine Makes.bind (.lift (append_makes (hagain.congr le_rfl ?_))) ?_
  · simp [(Nat.lt_succ_of_lt h.lt').ne']
  rintro - _ rfl
  refine Makes.bind (load_makes (by exact hagain.lt') (by exact hs) hy) ?_
  rintro current _ ⟨rfl, u1, hu1, rfl⟩
  refine Makes.bind (.lift (binary_makes (by exact hagain.lt') (Sketch.get?_value_self ..) ?_
    (resultType_loopOp up y.ty))) ?_
  · exact get?_alloc_of_some (get?_alloc_of_some
      (get?_alloc_of_some (get?_alloc_of_some hd)))
  rintro next _ ⟨rfl, u2, hu2, rfl⟩
  refine Makes.bind (store_makes (by exact hagain.lt') (by exact hs) (Sketch.get?_value_self ..)) ?_
  rintro - _ ⟨u3, hu3, rfl⟩
  refine Makes.bind (load_makes (by exact hagain.lt') (by exact hs) hy) ?_
  rintro current _ ⟨rfl, u4, hu4, rfl⟩
  refine Makes.bind (.lift (ifCmp_makes (by exact hagain.lt') (by exact hagain.lt) _ _ _)) ?_
  rintro - _ ⟨u5, hu5, rfl⟩
  refine (Makes.lift orphan_makes).bind ?_
  rintro leave _ ⟨rfl, x3, y3, rfl⟩
  refine Makes.bind (.lift (append_makes (.made _ (by exact (hround.grow x2 y2).lt) x3 y3))) ?_
  rintro - _ rfl
  refine .pure ⟨x1, y1, x2, y2, x3, y3, merge, t1, t2, t3, t4, u1, u2, u3, u4, u5, _, _, ht1,
    ht2, ?_, ?_, ?_, ?_, ?_, ?_, ?_, rfl, rfl, rfl⟩
  · simpa [loopCmp] using ht3
  · simpa using ht4
  · simpa using hu1
  · simpa [loopOp] using hu2
  · simpa using hu3
  · simpa using hu4
  · simpa [Function.update_apply, loopCmp] using hu5

end Build

end MethodGraph
