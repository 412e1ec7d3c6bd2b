import MethodGraph.Method.Handler
import MethodGraph.Method.Switch
import MethodGraph.Proofs.Lawful
/-!
  Everything that a caller can ask for is lawful.

  The constructs with several paths make a block where the paths meet before they place it; checked
  arithmetic has a block that waits for its handler in between.  What changes the records of
  bytecode builders needs the license to do so, and so does giving a handler to a block of the
  caller's choice.
-/

namespace MethodGraph

open List

variable {x : BlockId} {d : Builder} {b done p : BuilderId} {handler : Option BuilderId} {u : Unit}

variable {α β : Type} {l : License} {m m' : Method} {loose risky : List BlockId}
  {arms : List SwitchArm}

/-! ## Transfers -/

namespace Emit

theorem lawful_gotoBuilder (b target : BuilderId) : Lawful l (gotoBuilder b target) := by
  intro m u m' loose risky h
  obtain ⟨x, _, h1, h⟩ := bind_eq_ok.1 h
  obtain ⟨⟨d, hd, hx⟩, rfl⟩ := entryOf_eq_ok.1 h1
  exact transfer_builds rfl (forall_mem_singleton.2 (.inr (.inl ⟨target, d, hd, hx⟩))) h

theorem lawful_goto (b : BuilderId) (target : Option BuilderId) : Lawful l (goto b target) :=
  lawful_bind (lawful_prepare target) fun t =>
    lawful_bind (lawful_gotoBuilder b t) fun _ => lawful_pure t

theorem lawful_returnVoid (b : BuilderId) : Lawful l (returnVoid b) := lawful_leave b [] rfl

theorem lawful_returnValue (b : BuilderId) (v : ValueId) : Lawful l (returnValue b v) := by
  refine lawful_bind (lawful_typeOf v) fun _ => lawful_bind lawful_get fun _ => ?_
  exact lawful_guard (lawful_leave b [v] rfl)

theorem lawful_abort (b : BuilderId) : Lawful l (abort b) := lawful_leave b [] rfl

theorem lawful_ifCmp (b : BuilderId) (c : Cmp) (target : Option BuilderId) (x y : ValueId) :
    Lawful l (ifCmp b c target x y) := by
  refine lawful_bind (lawful_prepare target) fun t => ?_
  intro m u m' loose risky h
  obtain ⟨e, _, h1, h⟩ := bind_eq_ok.1 h
  obtain ⟨⟨d, hd, he⟩, rfl⟩ := entryOf_eq_ok.1 h1
  obtain ⟨_, m2, h2, h⟩ := bind_eq_ok.1 h
  obtain ⟨-, rfl⟩ := pure_eq_ok.1 h
  exact transfer_builds rfl (forall_mem_singleton.2 (.inr (.inl ⟨t, d, hd, he⟩))) h2

theorem lawful_ifCmpZero (b : BuilderId) (c : Cmp) (target : Option BuilderId) (v : ValueId) :
    Lawful l (ifCmpZero b c target v) :=
  lawful_bind (lawful_typeOf v) fun ty =>
    lawful_bind (.of_within fun _ _ => within_zero ty) fun z => lawful_ifCmp b c target v z

/-- A transfer to a block that is part of no sequence yet. -/
theorem gotoBlock_builds (hx : x ∈ loose) (h : (gotoBlock b x).run m = .ok (u, m')) :
    Builds l ⟨m, loose, risky⟩ ⟨m', loose, risky⟩ :=
  transfer_builds rfl (forall_mem_singleton.2 (.inl hx)) h

/-! ## Paths -/

theorem lawful_follow (b path : BuilderId) : Lawful l (follow b path) :=
  lawful_bind (lawful_isPlaced path) fun _ =>
    lawful_ite (lawful_gotoBuilder b path) (lawful_append b path)

theorem beginPaths_builds {v z : ValueId} (h : (beginPaths b v).run m = .ok ((z, x), m')) :
    Builds l ⟨m, loose, risky⟩ ⟨m', x :: loose, risky⟩ := by
  obtain ⟨ty, _, h1, h⟩ := bind_eq_ok.1 h
  obtain ⟨-, rfl⟩ := typeOf_eq_ok.1 h1
  obtain ⟨z', m2, h2, h⟩ := bind_eq_ok.1 h
  obtain ⟨y, m3, h3, h⟩ := bind_eq_ok.1 h
  obtain ⟨rfl, rfl⟩ := newBlock_eq_ok.1 h3
  obtain ⟨h, rfl⟩ := pure_eq_ok.1 h
  cases h
  have hzero : Grows l loose risky m m2 := within_zero ty _ _ _ h2
  exact hzero.tail .newBlock

/-- The block where the paths meet is placed at the end of the construct. -/
theorem meet_builds (h : (appendBlock b x).run m = .ok (u, m')) :
    Builds l ⟨m, x :: loose, risky⟩ ⟨m', loose, risky⟩ := by
  have hplace : Builds l ⟨m, x :: loose, risky⟩ ⟨m', (x :: loose).erase x, risky⟩ :=
    appendBlock_builds mem_cons_self h
  rwa [erase_cons_head] at hplace

theorem lawful_ifNot (b : BuilderId) (c : Cmp) (path : Option BuilderId) (v : ValueId) :
    Lawful l (ifNot b c path v) := by
  intro m p m' loose risky h
  obtain ⟨⟨z, x⟩, m1, h1, h⟩ := bind_eq_ok.1 h
  obtain ⟨q, m2, h2, h⟩ := bind_eq_ok.1 h
  obtain ⟨_, m3, h3, h⟩ := bind_eq_ok.1 h
  obtain ⟨_, m4, h4, h⟩ := bind_eq_ok.1 h
  obtain ⟨_, m5, h5, h⟩ := bind_eq_ok.1 h
  obtain ⟨-, rfl⟩ := pure_eq_ok.1 h
  have hbranch : Builds l ⟨m2, x :: loose, risky⟩ ⟨m3, x :: loose, risky⟩ :=
    transfer_builds rfl (forall_mem_singleton.2 (.inl mem_cons_self)) h3
  calc Builds l ⟨m, loose, risky⟩ ⟨m1, x :: loose, risky⟩ := beginPaths_builds h1
    Builds l _ ⟨m2, x :: loose, risky⟩ := lawful_prepare path _ _ _ _ risky h2
    Builds l _ ⟨m3, x :: loose, risky⟩ := hbranch
    Builds l _ ⟨m4, x :: loose, risky⟩ := lawful_follow b q _ _ _ _ risky h4
    Builds l _ ⟨m5, loose, risky⟩ := meet_builds h5

theorem lawful_ifBoth (b : BuilderId) (thenPath elsePath : Option BuilderId) (v : ValueId) :
    Lawful l (ifBoth b thenPath elsePath v) := by
  intro m p m' loose risky h
  obtain ⟨⟨z, x⟩, m1, h1, h⟩ := bind_eq_ok.1 h
  obtain ⟨q, m2, h2, h⟩ := bind_eq_ok.1 h
  obtain ⟨r, m3, h3, h⟩ := bind_eq_ok.1 h
  obtain ⟨y, _, h4, h⟩ := bind_eq_ok.1 h
  obtain ⟨⟨d, hd, hy⟩, rfl⟩ := entryOf_eq_ok.1 h4
  obtain ⟨_, m5, h5, h⟩ := bind_eq_ok.1 h
  obtain ⟨_, m6, h6, h⟩ := bind_eq_ok.1 h
  obtain ⟨_, m7, h7, h⟩ := bind_eq_ok.1 h
  obtain ⟨placed, _, h8, h⟩ := bind_eq_ok.1 h
  obtain ⟨-, rfl⟩ := isPlaced_eq_ok.1 h8
  have hbranch : Builds l ⟨m3, x :: loose, risky⟩ ⟨m5, x :: loose, risky⟩ :=
    transfer_builds rfl (forall_mem_singleton.2 (.inr (.inl ⟨q, d, hd, hy⟩))) h5
  have hthen : Builds l ⟨m7, x :: loose, risky⟩ ⟨m', loose, risky⟩ := by
    -- the first path is appended here unless it has a place already
    cases placed with
    | true => grind [bind_eq_ok, pure_eq_ok, meet_builds]
    | false =>
      obtain ⟨_, m8, h8, h⟩ := bind_eq_ok.1 h
      obtain ⟨_, m9, h9, h⟩ := bind_eq_ok.1 h
      obtain ⟨-, rfl⟩ := pure_eq_ok.1 h
      exact (append_builds h8).trans (meet_builds h9)
  calc Builds l ⟨m, loose, risky⟩ ⟨m1, x :: loose, risky⟩ := beginPaths_builds h1
    Builds l _ ⟨m2, x :: loose, risky⟩ := lawful_prepare thenPath _ _ _ _ risky h2
    Builds l _ ⟨m3, x :: loose, risky⟩ := lawful_prepare elsePath _ _ _ _ risky h3
    Builds l _ ⟨m5, x :: loose, risky⟩ := hbranch
    Builds l _ ⟨m6, x :: loose, risky⟩ := lawful_follow b r _ _ _ _ risky h6
    Builds l _ ⟨m7, x :: loose, risky⟩ := gotoBlock_builds mem_cons_self h7
    Builds l _ ⟨m', loose, risky⟩ := hthen

theorem lawful_ifThen (b : BuilderId) (path : Option BuilderId) (v : ValueId) :
    Lawful l (ifThen b path v) := lawful_ifNot b .eq path v

theorem lawful_ifElse (b : BuilderId) (path : Option BuilderId) (v : ValueId) :
    Lawful l (ifElse b path v) := lawful_ifNot b .ne path v

theorem lawful_ifThenElse (b : BuilderId) (thenPath elsePath : Option (Option BuilderId))
    (v : ValueId) : Lawful l (ifThenElse b thenPath elsePath v) := by
  cases thenPath with
  | none =>
    cases elsePath with
    | none => grind [bind_eq_ok, throw_ne_ok, Lawful, ifThenElse]
    | some e => exact lawful_bind (lawful_ifElse b e v) fun _ => lawful_pure _
  | some t =>
    cases elsePath with
    | none => exact lawful_bind (lawful_ifThen b t v) fun _ => lawful_pure _
    | some e => exact lawful_bind (lawful_ifBoth b t e v) fun _ => lawful_pure _

theorem lawful_appendTerms (b : BuilderId) (c : Cmp) (target : BuilderId) :
    ∀ terms, Lawful l (appendTerms b c target terms)
  | [] => lawful_pure _
  | (term, v) :: rest =>
    lawful_bind (lawful_append b term) fun _ =>
      lawful_bind (lawful_ifCmpZero term c (some target) v) fun _ =>
        lawful_appendTerms b c target rest

theorem lawful_appendPaths (b first second merge : BuilderId) :
    Lawful l (appendPaths b first second merge) :=
  lawful_bind (lawful_append b first) fun _ => lawful_bind (lawful_gotoBuilder b merge) fun _ =>
    lawful_bind (lawful_append b second) fun _ => lawful_append b merge

theorem lawful_ifAnd (b : BuilderId) (allTrue anyFalse : Option BuilderId)
    (terms : List (BuilderId × ValueId)) : Lawful l (ifAnd b allTrue anyFalse terms) := by
  unfold ifAnd
  refine lawful_guard (c := terms.isEmpty = true) ?_
  refine lawful_bind (lawful_prepare allTrue) fun _ =>
    lawful_bind (lawful_prepare anyFalse) fun _ => lawful_bind lawful_orphan fun _ =>
    lawful_bind (lawful_appendTerms b _ _ terms) fun _ => ?_
  exact lawful_bind (lawful_appendPaths b _ _ _) fun _ => lawful_pure _

theorem lawful_ifOr (b : BuilderId) (anyTrue allFalse : Option BuilderId)
    (terms : List (BuilderId × ValueId)) : Lawful l (ifOr b anyTrue allFalse terms) := by
  unfold ifOr
  cases terms.getLast? with
  | none => exact lawful_throw _
  | some last =>
    grind [lawful_bind, lawful_prepare, lawful_orphan, lawful_appendTerms, lawful_appendPaths,
      lawful_pure]

/-! ## Switches -/

theorem switchArm_builds (l : License) (loose risky : List BlockId) {c : SwitchCase} {a : SwitchArm}
    (h : (switchArm done c).run m = .ok (a, m')) : Builds l ⟨m, loose, risky⟩ ⟨m', loose, risky⟩ ∧
      ∃ d, m'.builder? a.arm = some d ∧ d.entry = a.entry := by
  obtain ⟨code, m1, h1, h⟩ := bind_eq_ok.1 h
  have hcode := lawful_prepare (l := l) c.code _ _ _ loose risky h1
  split at h
  · grind [bind_eq_ok, entryOf_eq_ok, pure_eq_ok]
  · obtain ⟨arm, m2, h2, h⟩ := bind_eq_ok.1 h
    obtain ⟨_, m3, h3, h⟩ := bind_eq_ok.1 h
    obtain ⟨_, m4, h4, h⟩ := bind_eq_ok.1 h
    obtain ⟨x, _, h5, h⟩ := bind_eq_ok.1 h
    obtain ⟨hd, rfl⟩ := entryOf_eq_ok.1 h5
    obtain ⟨rfl, rfl⟩ := pure_eq_ok.1 h
    exact ⟨hcode.trans <| (lawful_orphan _ _ _ loose risky h2).trans <|
      (append_builds h3).trans (lawful_gotoBuilder _ _ _ _ _ loose risky h4), hd⟩

theorem switchArms_builds (l : License) (loose risky : List BlockId) {cases : List SwitchCase}
    (h : (cases.mapM (switchArm done)).run m = .ok (arms, m')) :
    Builds l ⟨m, loose, risky⟩ ⟨m', loose, risky⟩ ∧
      ∀ a ∈ arms, ∃ d, m'.builder? a.arm = some d ∧ d.entry = a.entry := by
  induction cases generalizing m arms with
  | nil => grind [pure_eq_ok]
  | cons c cases ih =>
    rw [mapM_cons] at h
    obtain ⟨a, m1, h1, h⟩ := bind_eq_ok.1 h
    obtain ⟨as, m2, h2, h⟩ := bind_eq_ok.1 h
    obtain ⟨rfl, rfl⟩ := pure_eq_ok.1 h
    obtain ⟨hfirst, d, hd, hentry⟩ := switchArm_builds l loose risky h1
    obtain ⟨hrest, has⟩ := ih h2
    refine ⟨hfirst.trans hrest, fun a' ha' => ?_⟩
    rcases mem_cons.1 ha' with rfl | ha'
    · obtain ⟨e, he, hde⟩ := hrest.below.builders _ _ hd
      exact ⟨e, he, hde.entry.trans hentry⟩
    · exact has a' ha'

theorem dispatch_builds {q : BuilderId} {values : List Int64} {selector : ValueId}
    (hd : m.builder? q = some d)
    (harms : ∀ a ∈ arms, ∃ d, m.builder? a.arm = some d ∧ d.entry = a.entry)
    (h : (transfer b (.switch values) [selector] (d.entry :: arms.map (·.entry))).run m =
      .ok (u, m')) : Builds l ⟨m, loose, risky⟩ ⟨m', loose, risky⟩ := by
  refine transfer_builds rfl (fun t ht => .inr (.inl ?_)) h
  rcases mem_cons.1 ht with rfl | ht
  · exact ⟨q, d, hd, rfl⟩
  · obtain ⟨a, ha, rfl⟩ := mem_map.1 ht
    exact ⟨a.arm, harms a ha⟩

theorem lawful_switch (b : BuilderId) (selector : ValueId) (default : Option BuilderId)
    (cases : List SwitchCase) : Lawful l (switch b selector default cases) := by
  intro m p m' loose risky h
  obtain ⟨dflt, m1, h1, h⟩ := bind_eq_ok.1 h
  obtain ⟨done, m2, h2, h⟩ := bind_eq_ok.1 h
  obtain ⟨x, _, h3, h⟩ := bind_eq_ok.1 h
  obtain ⟨⟨d, hd, hx⟩, rfl⟩ := entryOf_eq_ok.1 h3
  obtain ⟨arms, m4, h4, h⟩ := bind_eq_ok.1 h
  obtain ⟨_, m5, h5, h⟩ := bind_eq_ok.1 h
  obtain ⟨_, m6, h6, h⟩ := bind_eq_ok.1 h
  obtain ⟨_, m7, h7, h⟩ := bind_eq_ok.1 h
  obtain ⟨_, m8, h8, h⟩ := bind_eq_ok.1 h
  obtain ⟨-, rfl⟩ := pure_eq_ok.1 h
  obtain ⟨harms, hentries⟩ := switchArms_builds l loose risky h4
  obtain ⟨d', hd', hdd⟩ := harms.below.builders dflt d hd
  calc Builds l ⟨m, loose, risky⟩ ⟨m1, loose, risky⟩ := lawful_prepare default _ _ _ _ risky h1
    Builds l _ ⟨m2, loose, risky⟩ := lawful_orphan _ _ _ _ risky h2
    Builds l _ ⟨m4, loose, risky⟩ := harms
    Builds l _ ⟨m5, loose, risky⟩ := dispatch_builds hd' hentries (hdd.entry.trans hx ▸ h5)
    Builds l _ ⟨m6, loose, risky⟩ :=
      lawful_forM (fun a => lawful_append b a.arm) arms _ _ _ _ risky h6
    Builds l _ ⟨m7, loose, risky⟩ := append_builds h7
    Builds l _ ⟨m8, loose, risky⟩ := append_builds h8

/-! ## Handlers and transactions -/

/-- Closing a block that control falls from: it is split off, or there is none and the end of the
    sequence is forgotten. -/
theorem closeBlock_builds (h : (closeBlock b true).run m = .ok (u, m'))
    (hb : l.forgets = true ∨ ∃ d x, m.builder? b = some d ∧ d.tail = .current x) :
    Builds l ⟨m, loose, risky⟩ ⟨m', loose, risky⟩ := by
  obtain ⟨hlt, rfl⟩ := updateBuilder_eq_ok.1 h
  obtain ⟨d, hd⟩ := Method.exists_builder? hlt
  have hsame : ∀ t, d.tail.close true = t →
      m.withBuilder b (fun d => { d with tail := d.tail.close true }) =
        m.withBuilder b (fun d => { d with tail := t }) := by
    rintro _ rfl
    -- the two functions agree on the builder that is there
    refine congrArg (fun bs => { m with builders := bs }) (congrArg Arena.mk ?_)
    refine Array.ext_getElem? fun i => ?_
    rw [Array.getElem?_modify, Array.getElem?_modify]
    by_cases hi : b = i
    · subst hi
      have : m.builders.items[b]? = some d := hd
      simp [this]
    · simp [hi]
  have hforget : (∀ x, d.tail ≠ .current x) → d.tail.close true = .closed →
      Builds l ⟨m, loose, risky⟩ ⟨m.withBuilder b fun d =>
        { d with tail := d.tail.close true }, loose, risky⟩ := by
    intro hfull hclosed
    rcases hb with hl | ⟨d', x, hd', hx⟩
    · rw [hsame .closed hclosed]
      exact (Step.forget hl hd hfull).builds
    · cases hd.symm.trans hd'
      exact absurd hx (hfull x)
  cases ht : d.tail with
  | current x =>
    rw [hsame (.owed x) (by rw [ht]; rfl)]
    exact (Step.split hd ht).builds
  | owed x => exact hforget (by simp [ht]) (by rw [ht]; rfl)
  | closed => exact hforget (by simp [ht]) (by rw [ht]; rfl)

theorem builder?_prepare {o : Option BuilderId}
    (h : (prepare o).run m = .ok (p, m')) (hd : m.builder? b = some d) :
    m'.builder? b = some d := by
  cases o with
  | some q =>
    obtain ⟨-, rfl⟩ := pure_eq_ok.1 h
    exact hd
  | none =>
    obtain ⟨-, rfl⟩ := newBuilder_eq_ok.1 h
    rw [Method.builder?_addBuilder, if_neg (Nat.ne_of_lt (Method.lt_of_builder? hd))]
    exact hd

variable (h : (appendHandler b x handler).run m = .ok (p, m'))

include h in
/-- The parts of giving a block a handler. -/
theorem appendHandler_eq_ok :
    ∃ after e m1 m2 m3 m4 m5 m6, (prepare handler).run m = .ok (p, m1) ∧
      orphan.run m1 = .ok (after, m2) ∧ (closeBlock b true).run m2 = .ok ((), m3) ∧
      (gotoBuilder b after).run m3 = .ok ((), m4) ∧ (markHandler p).run m4 = .ok ((), m5) ∧
      m5.builder? p = some e ∧ x < m5.graph.blocks.size ∧ e.entry < m5.graph.blocks.size ∧
      (append b p).run (m5.withHandler x e.entry) = .ok ((), m6) ∧
      (append b after).run m6 = .ok ((), m') := by
  obtain ⟨_, m1, h1, h⟩ := bind_eq_ok.1 h
  obtain ⟨after, m2, h2, h⟩ := bind_eq_ok.1 h
  obtain ⟨_, m3, h3, h⟩ := bind_eq_ok.1 h
  obtain ⟨_, m4, h4, h⟩ := bind_eq_ok.1 h
  obtain ⟨_, m5, h5, h⟩ := bind_eq_ok.1 h
  obtain ⟨_, _, h6, h⟩ := bind_eq_ok.1 h
  obtain ⟨⟨e, he, rfl⟩, rfl⟩ := entryOf_eq_ok.1 h6
  obtain ⟨_, _, h7, h⟩ := bind_eq_ok.1 h
  obtain ⟨hx, hy, rfl⟩ := addHandlerEdge_eq_ok.1 h7
  obtain ⟨_, m6, h8, h⟩ := bind_eq_ok.1 h
  obtain ⟨_, _, h9, h⟩ := bind_eq_ok.1 h
  obtain ⟨rfl, rfl⟩ := pure_eq_ok.1 h
  exact ⟨after, e, m1, m2, m3, m4, m5, m6, h1, h2, h3, h4, h5, he, hx, hy, h8, h9⟩

include h in
/-- A handler for a block; the block may be one that waits for it. -/
theorem appendHandler_builds {risky' : List BlockId}
    (hb : l.forgets = true ∨ ∃ d y, m.builder? b = some d ∧ d.tail = .current y)
    (hr : ∀ y ∈ risky, y = x ∨ y ∈ risky') : Builds l ⟨m, loose, risky⟩ ⟨m', loose, risky'⟩ := by
  obtain ⟨after, e, m1, m2, m3, m4, m5, m6, h1, h2, h3, h4, h5, he, hx, hy, h6, h7⟩ :=
    appendHandler_eq_ok h
  have hopen : l.forgets = true ∨ ∃ d y, m2.builder? b = some d ∧ d.tail = .current y := by
    grind [builder?_prepare, prepare]
  calc Builds l ⟨m, loose, risky⟩ ⟨m1, loose, risky⟩ := lawful_prepare handler _ _ _ _ risky h1
    Builds l _ ⟨m2, loose, risky⟩ := lawful_orphan _ _ _ _ risky h2
    Builds l _ ⟨m3, loose, risky⟩ := closeBlock_builds h3 hopen
    Builds l _ ⟨m4, loose, risky⟩ := lawful_gotoBuilder b after _ _ _ _ risky h4
    Builds l _ ⟨m5, loose, risky⟩ := lawful_markHandler p _ _ _ _ risky h5
    Builds l _ ⟨m5.withHandler x e.entry, loose, risky'⟩ :=
      (Step.handle x e.entry hx hy (.inr (.inl ⟨p, e, he, rfl⟩)) hr).builds
    Builds l _ ⟨m6, loose, risky'⟩ := append_builds h6
    Builds l _ ⟨m', loose, risky'⟩ := append_builds h7

/-- A handler for a block of the caller's choice. -/
theorem lawful_appendHandler (hl : l.forgets = true) (b : BuilderId) (x : BlockId)
    (handler : Option BuilderId) : Lawful l (appendHandler b x handler) :=
  fun _ _ _ _ _ h => appendHandler_builds h (.inl hl) fun _ hy => .inr hy

theorem openBlock_current {y : BlockId} (hd : m.builder? b = some d) (hx : d.tail = .current x)
    (h : (openBlock b).run m = .ok (y, m')) : x = y ∧ m = m' := by grind [openBlock_eq_ok]

theorem lawful_checked (b : BuilderId) (op : Arith) (handler : Option BuilderId) (v w : ValueId) :
    Lawful l (checked b op handler v w) := by
  refine lawful_bind (lawful_typeOf v) fun lt => lawful_bind (lawful_typeOf w) fun rt => ?_
  refine lawful_guard (c := (!(lt.isInteger && lt = rt)) = true) ?_
  intro m p m' loose risky h
  obtain ⟨u, m1, h1, h⟩ := bind_eq_ok.1 h
  obtain ⟨u', m2, h2, h1⟩ := bind_eq_ok.1 h1
  obtain ⟨_, m3, h3, h1⟩ := bind_eq_ok.1 h1
  obtain ⟨-, rfl⟩ := pure_eq_ok.1 h1
  obtain ⟨x, m4, h4, h3⟩ := bind_eq_ok.1 h3
  obtain ⟨hopen, d, hd, hx⟩ := openBlock_builds l loose risky h4
  obtain ⟨-, rfl⟩ := push_eq_ok.1 h3
  obtain ⟨y, m5, h5, h⟩ := bind_eq_ok.1 h
  obtain ⟨rfl, rfl⟩ := openBlock_current (m := m4.withBlock x _) hd hx h5
  obtain ⟨hd', m6, h6, h⟩ := bind_eq_ok.1 h
  obtain ⟨-, rfl⟩ := pure_eq_ok.1 h
  -- between the operation and its handler the open block waits
  have hpush : Step l ⟨m4, loose, risky⟩ ⟨m4.withBlock x _, loose, x :: risky⟩ :=
    .push { opcode := .checked op, operands := [v, w], result := some u' } hd hx rfl rfl
      (.inr trivial)
  refine ((lawful_newValue lt _ _ _ loose risky h2).trans hopen).trans
    ((appendHandler_builds h6 (.inr ⟨d, x, hd, hx⟩) ?_).head hpush)
  intro z hz
  exact mem_cons.1 hz

theorem lawful_runTransaction (b : BuilderId) (t : TransactionBuilders) :
    Lawful l (runTransaction b t) := by
  refine lawful_bind (lawful_markCold _) fun _ => ?_
  intro m u m' loose risky h
  obtain ⟨x, _, h1, h⟩ := bind_eq_ok.1 h
  obtain ⟨⟨d, hd, hx⟩, rfl⟩ := entryOf_eq_ok.1 h1
  obtain ⟨y, _, h2, h⟩ := bind_eq_ok.1 h
  obtain ⟨⟨e, he, hy⟩, rfl⟩ := entryOf_eq_ok.1 h2
  obtain ⟨_, m3, h3, h⟩ := bind_eq_ok.1 h
  obtain ⟨_, m4, h4, h⟩ := bind_eq_ok.1 h
  have hbegin : Builds l ⟨m, loose, risky⟩ ⟨m3, loose, risky⟩ :=
    transfer_builds rfl (forall_mem_cons.2 ⟨.inr (.inl ⟨_, d, hd, hx⟩),
      forall_mem_singleton.2 (.inr (.inl ⟨_, e, he, hy⟩))⟩) h3
  refine (hbegin.trans (append_builds h4)).trans (emit_builds ?_ (.inr ?_) h)
  · exact ⟨rfl, rfl, rfl⟩
  · exact fun _ _ => trivial

theorem lawful_failTransaction (b : BuilderId) (t : TransactionBuilders) :
    Lawful l (failTransaction b t) :=
  lawful_bind (lawful_gotoBuilder b _) fun _ => lawful_append b _

theorem lawful_transaction (b : BuilderId) (persistent transient body : Option BuilderId) :
    Lawful l (transaction b persistent transient body) := by
  refine lawful_bind (lawful_prepare persistent) fun p =>
    lawful_bind (lawful_prepare transient) fun t => lawful_bind (lawful_prepare body) fun c => ?_
  intro m r m' loose risky h
  obtain ⟨x, m1, h1, h⟩ := bind_eq_ok.1 h
  obtain ⟨rfl, rfl⟩ := newBlock_eq_ok.1 h1
  obtain ⟨_, _, h2, h⟩ := bind_eq_ok.1 h
  obtain ⟨rfl, rfl⟩ := get_eq_ok.1 h2
  have hmerge : ∀ {m3 m4 : Method}, Builds l ⟨m.addBlock, m.graph.blocks.size :: loose, risky⟩
      ⟨m3, m.graph.blocks.size :: loose, risky⟩ →
      (do gotoBlock b m.graph.blocks.size
          append b t
          gotoBlock b m.graph.blocks.size
          append b p
          appendBlock b m.graph.blocks.size
          return ({ persistent := p, transient := t, body := c } : TransactionBuilders)).run m3 =
        .ok (r, m4) → Builds l ⟨m, loose, risky⟩ ⟨m4, loose, risky⟩ := by
    intro m3 m4 hbody h
    obtain ⟨_, m5, h5, h⟩ := bind_eq_ok.1 h
    obtain ⟨_, m6, h6, h⟩ := bind_eq_ok.1 h
    obtain ⟨_, m7, h7, h⟩ := bind_eq_ok.1 h
    obtain ⟨_, m8, h8, h⟩ := bind_eq_ok.1 h
    obtain ⟨_, m9, h9, h⟩ := bind_eq_ok.1 h
    obtain ⟨-, rfl⟩ := pure_eq_ok.1 h
    refine Relation.ReflTransGen.head .newBlock (hbody.trans ?_)
    calc Builds l ⟨m3, m.graph.blocks.size :: loose, risky⟩
          ⟨m5, m.graph.blocks.size :: loose, risky⟩ := gotoBlock_builds mem_cons_self h5
      Builds l _ ⟨m6, m.graph.blocks.size :: loose, risky⟩ := append_builds h6
      Builds l _ ⟨m7, m.graph.blocks.size :: loose, risky⟩ :=
        gotoBlock_builds mem_cons_self h7
      Builds l _ ⟨m8, m.graph.blocks.size :: loose, risky⟩ := append_builds h8
      Builds l _ ⟨m9, loose, risky⟩ := meet_builds h9
  split at h
  · obtain ⟨_, m3, h3, h⟩ := bind_eq_ok.1 h
    exact hmerge (lawful_runTransaction b _ _ _ _ _ risky h3) h
  · obtain ⟨_, m3, h3, h⟩ := bind_eq_ok.1 h
    exact hmerge (lawful_failTransaction b _ _ _ _ _ risky h3) h

end Emit

end MethodGraph
