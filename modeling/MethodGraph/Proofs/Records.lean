import MethodGraph.Method.Bytecode
import MethodGraph.Proofs.Constructs
/-!
  The records of bytecode builders.

  What changes records does so under a license: a builder keeps its index, and once it has an
  initial state it keeps that too, unless it is made to start anew.
-/

namespace MethodGraph

variable {b p target : BuilderId}

variable {α β : Type} {l : License} {m m' : Method} {loose risky : List BlockId}
  {f : BytecodeRecord → BytecodeRecord}

/-! ## Records -/

namespace Method

/-- The state that a bytecode builder starts from. -/
def initial? (m : Method) (b : BuilderId) : Option VmState := (m.record? b).bind (·.initial)

/-- The state of a bytecode builder at the end of what has been built. -/
def state? (m : Method) (b : BuilderId) : Option VmState := (m.record? b).bind (·.state)

theorem record?_bind_eq_some {f : BytecodeRecord → Option α} {a : α} :
    (m.record? b).bind f = some a ↔
      ∃ d r, m.builder? b = some d ∧ d.bytecode = some r ∧ f r = some a := by
  grind [Option.bind_eq_some_iff, record?, builder?]

end Method

/-- The license for what every construct does. -/
def License.plain : License := ⟨false, false, false, true⟩

/-- What is lawful without any license leaves every record alone. -/
theorem Emit.Lawful.records {x : Emit α} (hx : Lawful .plain x) {a : α}
    (h : x.run m = .ok (a, m')) {d : Builder} (hd : m.builder? b = some d) :
    ∃ e, m'.builder? b = some e ∧ e.bytecode = d.bytecode := by
  obtain ⟨e, he, hde⟩ := (hx m a m' [] [] h).below.builders b d hd
  rcases hde.record with hr | ⟨hl, -⟩
  · exact ⟨e, he, hr⟩
  · exact absurd hl Bool.false_ne_true

variable (hl : l.records = true) (ha : l.strays = true)

variable (hl : l.records = true)

namespace Emit

theorem lawful_record (b : BuilderId) : Lawful l (record b) := .of_within fun _ _ => within_record b

include hl in
/-- Changing a record, where the license permits what becomes of it. -/
theorem updateRecord_builds {u : Unit} (h : (updateRecord b f).run m = .ok (u, m'))
    (hf : ∀ d r, m.builder? b = some d → d.bytecode = some r → (f r).index = r.index ∧
      (l.restarts = true ∨ r.initial = none ∨ (f r).initial = r.initial)) :
    Builds l ⟨m, loose, risky⟩ ⟨m', loose, risky⟩ := by
  obtain ⟨d, r, hd, hr, rfl⟩ := updateRecord_eq_ok.1 h
  refine (Step.tag b _ fun d' hd' => ?_).builds
  cases hd.symm.trans hd'
  obtain ⟨hindex, hinitial⟩ := hf d r hd hr
  exact ⟨⟨rfl, rfl, rfl, rfl, rfl, rfl, rfl, rfl, rfl⟩,
    .inr ⟨hl, r, f r, hr, rfl, hindex, hinitial⟩⟩

include hl in
theorem rewrites_grows (b : BuilderId) :
    Rewrites b (Grows l loose risky) where
  record hf h := updateRecord_builds hl h fun _ r _ _ => ⟨(hf r).1, .inr (.inr (hf r).2)⟩

include hl in
/-- Changing what is not the initial state. -/
theorem lawful_updateRecord (b : BuilderId)
    (hf : ∀ r, (f r).index = r.index ∧ (f r).initial = r.initial) : Lawful l (updateRecord b f) :=
  fun _ _ _ _ _ h => (rewrites_grows hl b).record hf h

theorem lawful_orphanBytecode (index : Int) (name : Option String) :
    Lawful l (orphanBytecode index name) := by
  unfold orphanBytecode
  refine lawful_guard (lawful_newBuilder ?_)
  rintro _ ⟨⟩
  exact ⟨rfl, rfl⟩

theorem lawful_bytecodeBuilder (index : Int) : Lawful l (bytecodeBuilder index) := by
  grind [lawful_bind, lawful_get, lawful_orphanBytecode, lawful_pure, bytecodeBuilder]

theorem lawful_enqueue (hl : l.strays = true) (b : BuilderId) : Lawful l (enqueue b) := by
  refine lawful_bind (lawful_builder b) fun d => ?_
  cases d.bytecode with
  | none => exact lawful_pure _
  | some r =>
    refine lawful_modify hl (fun m => ?_) (.inr fun _ => rfl)
    exact ⟨rfl, rfl, rfl, rfl, rfl, fun _ _ h => h, fun _ _ h => h⟩

theorem lawful_nextBytecode (hl : l.strays = true) : Lawful l nextBytecode := by
  intro m i m' loose risky h
  obtain ⟨_, _, h1, h⟩ := bind_eq_ok.1 h
  obtain ⟨rfl, rfl⟩ := get_eq_ok.1 h1
  cases hi : m.worklist.first? with
  | none =>
    rw [hi] at h
    obtain ⟨-, rfl⟩ := pure_eq_ok.1 h
    exact .refl
  | some j =>
    rw [hi] at h
    obtain ⟨_, m2, h2, h⟩ := bind_eq_ok.1 h
    obtain rfl := set_eq_ok.1 h2
    obtain ⟨-, rfl⟩ := pure_eq_ok.1 h
    refine Step.builds (.quiet ?_ (.inr rfl) (.inl hl))
    exact ⟨rfl, rfl, rfl, rfl, rfl, fun _ _ h => h, fun _ _ h => h⟩

/-! ## State along edges -/

theorem orphanBytecode_eq_ok {index : Int} {name : Option String}
    (h : (orphanBytecode index name).run m = .ok (b, m')) :
    m.builders.size = b ∧ m' = m.addBuilder (some { index := index.toNat, name }) := by
  unfold orphanBytecode at h
  exact newBuilder_eq_ok.1 (guard_eq_ok.1 h).2

theorem mergeBuilder_eq_ok {s t : VmState} (h : (mergeBuilder s t target).run m = .ok (p, m')) :
    ∃ d r m1 m2 m3, m.builder? target = some d ∧ d.bytecode = some r ∧
      (orphanBytecode r.index r.name).run m = .ok (p, m1) ∧
      (s.mergeInto p t).run m1 = .ok ((), m2) ∧ (gotoBuilder p target).run m2 = .ok ((), m3) ∧
      (updateRecord p fun r => { r with
        initial := some s, state := some t, fallThrough := some target }).run m3 =
          .ok ((), m') := by
  obtain ⟨r, _, h0, h⟩ := bind_eq_ok.1 h
  obtain ⟨⟨d, hd, hr⟩, rfl⟩ := record_eq_ok.1 h0
  obtain ⟨p, m1, h1, h⟩ := bind_eq_ok.1 h
  obtain ⟨_, m2, h2, h⟩ := bind_eq_ok.1 h
  obtain ⟨_, m3, h3, h⟩ := bind_eq_ok.1 h
  obtain ⟨_, m4, h4, h⟩ := bind_eq_ok.1 h
  obtain ⟨rfl, rfl⟩ := pure_eq_ok.1 h
  exact ⟨d, r, m1, m2, m3, hd, hr, h1, h2, h3, h4⟩

/-- The first state to arrive at a builder is what it starts from, and a later one is stored over
    that in a builder of its own. -/
theorem carryState_eq_ok {source : BuilderId} (h : (carryState source target).run m = .ok (p, m')) :
    ∃ s d r, m.state? source = some s ∧ m.builder? target = some d ∧ d.bytecode = some r ∧
      ((∃ t, r.initial = some t ∧ (mergeBuilder s t target).run m = .ok (p, m')) ∨
        r.initial = none ∧ target = p ∧ ∃ t m1 m2, (s.dealias source).run m = .ok (t, m1) ∧
          (startFrom target t).run m1 = .ok ((), m2) ∧
          (updateRecord source fun r => { r with state := some t }).run m2 = .ok ((), m')) := by
  obtain ⟨rs, _, h1, h⟩ := bind_eq_ok.1 h
  obtain ⟨⟨ds, hds, hrs⟩, rfl⟩ := record_eq_ok.1 h1
  cases hs : rs.state with
  | none =>
    rw [hs] at h
    exact absurd h throw_ne_ok
  | some s =>
    rw [hs] at h
    obtain ⟨rt, _, h2, h⟩ := bind_eq_ok.1 h
    obtain ⟨⟨dt, hdt, hrt⟩, rfl⟩ := record_eq_ok.1 h2
    refine ⟨s, dt, rt, Method.record?_bind_eq_some.2 ⟨ds, rs, hds, hrs, hs⟩, hdt, hrt, ?_⟩
    cases hi : rt.initial with
    | some t =>
      rw [hi] at h
      exact .inl ⟨t, rfl, h⟩
    | none => grind [bind_eq_ok, pure_eq_ok]

include hl in
theorem lawful_appendBytecode (hs : l.restarts = true) (ha : l.strays = true) (b : BuilderId)
    : Lawful l (appendBytecode b) := by
  refine lawful_bind lawful_get fun m =>
    lawful_bind (.of_within fun _ _ => VmState.within_dealias _) fun s =>
    lawful_bind ?_ fun _ => lawful_bind (lawful_append _ _) fun _ => lawful_enqueue ha b
  exact fun _ _ _ _ _ h => updateRecord_builds hl h fun _ _ _ _ => ⟨rfl, .inl hs⟩

include hl in
/-- The builder made for a later arrival is new, so it gets its initial state only once. -/
theorem lawful_mergeBuilder (s initial : VmState) (target : BuilderId) :
    Lawful l (mergeBuilder s initial target) := by
  intro m p m' loose risky h
  obtain ⟨_, r, m1, m2, m3, -, -, h1, h2, h3, h4⟩ := mergeBuilder_eq_ok h
  have hnew := lawful_orphanBytecode (l := l) _ _ _ _ _ loose risky h1
  obtain ⟨rfl, rfl⟩ := orphanBytecode_eq_ok h1
  obtain ⟨d2, hd2, hr2⟩ := (Lawful.of_within fun _ _ => s.within_mergeInto initial).records h2
    ((Method.builder?_addBuilder _ _).trans (if_pos rfl))
  obtain ⟨d3, hd3, hr3⟩ := (lawful_gotoBuilder _ target).records h3 hd2
  have hstart : Builds l ⟨m3, loose, risky⟩ ⟨m', loose, risky⟩ := by grind [updateRecord_builds]
  calc Builds l ⟨m, loose, risky⟩ ⟨m.addBuilder _, loose, risky⟩ := hnew
    Builds l _ ⟨m2, loose, risky⟩ := s.within_mergeInto initial (R := Grows l _ _) _ _ _ h2
    Builds l _ ⟨m3, loose, risky⟩ := lawful_gotoBuilder _ target _ _ _ _ risky h3
    Builds l _ ⟨m', loose, risky⟩ := hstart

include hl in
/-- The first to arrive gives the target its initial state, which it did not have. -/
theorem lawful_carryState (source target : BuilderId) : Lawful l (carryState source target) := by
  intro m p m' loose risky h
  obtain ⟨s, d, r, -, hd, hr, ⟨t, -, h⟩ | ⟨hnone, -, t, m1, m2, h1, h2, h3⟩⟩ := carryState_eq_ok h
  · exact lawful_mergeBuilder hl s t target _ _ _ _ risky h
  · obtain ⟨d1, hd1, hr1⟩ := (Lawful.of_within fun _ _ => s.within_dealias).records h1 hd
    have hstart : Builds l ⟨m1, loose, risky⟩ ⟨m2, loose, risky⟩ := by
      grind [updateRecord_builds, startFrom]
    calc Builds l ⟨m, loose, risky⟩ ⟨m1, loose, risky⟩ :=
        s.within_dealias (R := Grows l _ _) _ _ _ h1
      Builds l _ ⟨m2, loose, risky⟩ := hstart
      Builds l _ ⟨m', loose, risky⟩ :=
        updateRecord_builds hl h3 fun _ _ _ _ => ⟨rfl, .inr (.inr rfl)⟩

theorem lawful_markLoop (hl : l.strays = true) :
    Lawful l (modify fun m => { m with mayLoop := true }) :=
  lawful_modify hl (fun _ => ⟨rfl, rfl, rfl, rfl, rfl, fun _ _ h => h, fun _ _ h => h⟩)
    (.inr fun _ => rfl)

include hl ha in
theorem lawful_addSuccessor (b target : BuilderId) : Lawful l (addSuccessor b target) := by
  refine lawful_bind (lawful_carryState hl b target) fun p =>
    lawful_bind (lawful_record b) fun rb => lawful_bind (lawful_record target) fun rt => ?_
  have hrest : Lawful l (do
      updateRecord b fun r => { r with successors := r.successors ++ [p] }
      enqueue target
      return p) :=
    lawful_bind (lawful_updateRecord hl b fun _ => ⟨rfl, rfl⟩) fun _ =>
      lawful_bind (lawful_enqueue ha target) fun _ => lawful_pure p
  exact lawful_ite (lawful_bind (lawful_markLoop ha) fun _ => hrest) hrest

include hl ha in
theorem lawful_addFallThrough (b target : BuilderId) : Lawful l (addFallThrough b target) := by
  refine lawful_bind (lawful_builder b) fun d => ?_
  refine lawful_guard (c := (!d.comesBack) = true) ?_
  exact lawful_bind (lawful_addSuccessor hl ha b target) fun p =>
    lawful_bind (lawful_updateRecord hl b fun _ => ⟨rfl, rfl⟩) fun _ =>
      lawful_bind (lawful_gotoBuilder b p) fun _ => lawful_pure p

include hl ha in
theorem lawful_bytecodeGoto (b target : BuilderId) : Lawful l (bytecodeGoto b target) :=
  lawful_bind (lawful_addSuccessor hl ha b target) fun p =>
    lawful_bind (lawful_gotoBuilder b p) fun _ => lawful_pure p

include hl ha in
theorem lawful_bytecodeIfCmp (b : BuilderId) (c : Cmp) (target : BuilderId) (v w : ValueId)
    : Lawful l (bytecodeIfCmp b c target v w) :=
  lawful_bind (lawful_addSuccessor hl ha b target) fun _ => lawful_ifCmp b c _ v w

include hl ha in
theorem lawful_bytecodeIfCmpZero (b : BuilderId) (c : Cmp) (target : BuilderId) (v : ValueId)
    : Lawful l (bytecodeIfCmpZero b c target v) :=
  lawful_bind (lawful_addSuccessor hl ha b target) fun _ => lawful_ifCmpZero b c _ v

end Emit
end MethodGraph
