import MethodGraph.Method.Connect
import MethodGraph.Proofs.Nesting
/-!
  How builders are counted and connected.

  Connecting leaves the sequences of all builders alone (`Method.Alike`), so the recursions over
  builders that contain each other run over a fixed forest.  Two recursions do so, one that counts
  blocks and one that connects.  Connecting a tree connects its builders one after the other, the
  parts before the whole, and no builder twice; `connectTree_keeps` says this for an invariant of
  any kind that speaks of the builders connected so far, and gives that nothing goes wrong on the
  way.  Counting keeps the counts that are there already, so its invariant is that the counts which
  are there are right (`Counted`).
-/

namespace MethodGraph

open Method List Builder

variable {d e : Builder} {m1 m2 m3 : Method}

variable {m m' : Method} {P : BuilderId → Option Builder} {n size fuel : Nat} {loose : List BlockId}
  {b : BuilderId} {I : List BuilderId → Method → Prop}

/-! ## What connecting leaves alone -/

/-- A builder without what connecting finds out about it. -/
def Builder.frame (d : Builder) : Builder :=
  { d with placed := false, connected := false, count := none, blocks := [], derived := none }

/-- The methods have the same builders, up to what connecting finds out about them. -/
structure Method.Alike (m m' : Method) : Prop where
  frames : ∀ b, (m'.builder? b).map Builder.frame = (m.builder? b).map Builder.frame
  size : m'.builders.size = m.builders.size
  config : m'.config = m.config

namespace Method.Alike

theorem refl (m : Method) : m.Alike m := ⟨fun _ => rfl, rfl, rfl⟩

theorem trans (h1 : m1.Alike m2) (h2 : m2.Alike m3) : m1.Alike m3 :=
  ⟨fun b => (h2.frames b).trans (h1.frames b), h2.size.trans h1.size,
    h2.config.trans h1.config⟩

theorem builder? (h : m.Alike m') (hd : m.builder? b = some d) :
    ∃ e, m'.builder? b = some e ∧ e.frame = d.frame := by
  have hframe := h.frames b
  rw [hd] at hframe
  exact Option.map_eq_some_iff.1 hframe

theorem symm (h : m.Alike m') : m'.Alike m :=
  ⟨fun b => (h.frames b).symm, h.size.symm, h.config.symm⟩

theorem withBuilder (b : BuilderId) {f : Builder → Builder}
    (hf : ∀ d, m.builder? b = some d → (f d).frame = d.frame) : m.Alike (m.withBuilder b f) := by
  refine ⟨fun c => ?_, size_withBuilder .., rfl⟩
  rw [builder?_withBuilder]
  split
  · next h =>
    subst h
    cases hd : m.builder? b with
    | none => rfl
    | some d => exact congrArg some (hf d hd)
  · rfl

end Method.Alike

namespace Builder

variable {d e : Builder}

theorem sequence_eq_of_frame (h : e.frame = d.frame) : e.sequence = d.sequence :=
  show e.frame.sequence = d.frame.sequence by rw [h]

theorem exit_eq_of_frame (h : e.frame = d.frame) : e.exit = d.exit :=
  show e.frame.exit = d.frame.exit by rw [h]

theorem entry_eq_of_frame (h : e.frame = d.frame) : e.entry = d.entry :=
  show e.frame.entry = d.frame.entry by rw [h]

theorem tail_eq_of_frame (h : e.frame = d.frame) : e.tail = d.tail :=
  show e.frame.tail = d.frame.tail by rw [h]

end Builder

/-- The plans speak of the sequences that a method has. -/
def Plans (P : BuilderId → Option Builder) (m : Method) : Prop :=
  ∀ b d, P b = some d →
    ∃ e, m.builder? b = some e ∧ e.sequence = d.sequence ∧ e.exit = d.exit ∧ e.entry = d.entry

theorem Plans.self (m : Method) : Plans m.plan? m := by
  intro b d hd
  obtain ⟨e, he, rfl⟩ := builder?_of_plan? hd
  exact ⟨e, he, rfl, rfl, rfl⟩

theorem Plans.alike (h : Plans P m) (ha : m.Alike m') : Plans P m' := by
  grind [sequence_eq_of_frame, exit_eq_of_frame, entry_eq_of_frame, Plans, ha.builder?]

/-! ## The order of connecting -/

/-- A builder and all that hangs from it, the parts before the whole. -/
def nested (P : BuilderId → Option Builder) : Nat → BuilderId → List BuilderId
  | 0, _ => []
  | fuel + 1, b => ((P b).elim [] Builder.children).flatMap (nested P fuel) ++ [b]

variable (hf : Forest P n loose) (hsize : ∀ a d, P a = some d → a < size)

include hf hsize in
theorem mem_nested (hb : Deep P size fuel b) : ∀ k, k ∈ nested P fuel b ↔ Under P b k := by
  refine Deep.induct hf hsize (M := fun fuel b => ∀ k, k ∈ nested P fuel b ↔ Under P b k) ?_ hb
  intro fuel b d _ hd ih k
  rw [nested, hd, mem_append, mem_singleton]
  show k ∈ d.children.flatMap (nested P fuel) ∨ k = b ↔ _
  rw [mem_flatMap]
  constructor
  · rintro (⟨c, hc, hk⟩ | rfl)
    · exact .head ⟨d, hd, hc⟩ ((ih c hc k).1 hk)
    · exact .refl
  · intro hk
    rcases Relation.ReflTransGen.cases_head hk with rfl | ⟨c, ⟨d', hd', hc⟩, hk⟩
    · exact .inr rfl
    · cases hd.symm.trans hd'
      exact .inl ⟨c, hc, (ih c hc k).2 hk⟩

namespace Emit

include hf hsize in
/-- An invariant that connecting each part of a builder keeps is kept by connecting them from left
    to right. -/
theorem connectParts_keeps {d : Builder} (hdeep : Deep P size (fuel + 1) b) (hd : P b = some d)
    (ih : ∀ c ∈ d.children, ∀ done m, I done m → (∀ k, Under P c k → k ∉ done) →
      ∃ m', (connectTree fuel c).run m = .ok ((), m') ∧ I (done ++ nested P fuel c) m') :
    ∀ (es : List Entry) (done : List BuilderId) (m : Method), I done m →
      (∀ c, .builder c ∈ es → c ∈ d.children) → (es.filterMap Entry.builder?).Nodup →
      (∀ c, .builder c ∈ es → ∀ k, Under P c k → k ∉ done) →
      ∃ m', (es.forM fun
          | .block _ => pure ()
          | .builder c => connectTree fuel c).run m = .ok ((), m') ∧
        I (done ++ (es.filterMap Entry.builder?).flatMap (nested P fuel)) m' := by
  have htree := hdeep.tree
  intro es
  induction es with
  | nil =>
    intro done m hI _ _ _
    refine ⟨m, rfl, ?_⟩
    rwa [filterMap_nil, flatMap_nil, append_nil]
  | cons e es ihes =>
    intro done m hI hchild hnodup hfresh
    cases e with
    | block x =>
      obtain ⟨m', hrun, hI'⟩ := ihes done m hI (fun c hc => hchild c (mem_cons_of_mem _ hc))
        hnodup fun c hc => hfresh c (mem_cons_of_mem _ hc)
      exact ⟨m', bind_eq_ok.2 ⟨(), m, rfl, hrun⟩, hI'⟩
    | builder c =>
      have hnodup' := nodup_cons.1 hnodup
      have hc := hchild c mem_cons_self
      obtain ⟨m1, hrun1, hI1⟩ := ih c hc done m hI (hfresh c mem_cons_self)
      have hdeepc := hdeep.child hf ⟨d, hd, hc⟩
      have hapart : ∀ c', .builder c' ∈ es → ∀ k, Under P c' k → k ∉ done ++ nested P fuel c := by
        intro c' hc' k hk hmem
        rcases mem_append.1 hmem with hmem | hmem
        · exact hfresh c' (mem_cons_of_mem _ hc') k hk hmem
        · have hkc := (mem_nested hf hsize hdeepc k).1 hmem
          have heq := hf.child_unique htree ⟨d, hd, hc⟩
            ⟨d, hd, hchild c' (mem_cons_of_mem _ hc')⟩ hkc hk
          subst heq
          exact hnodup'.1 (mem_filterMap.2 ⟨_, hc', rfl⟩)
      obtain ⟨m', hrun, hI'⟩ := ihes (done ++ nested P fuel c) m1 hI1
        (fun c hc => hchild c (mem_cons_of_mem _ hc)) hnodup'.2 hapart
      refine ⟨m', bind_eq_ok.2 ⟨(), m1, hrun1, hrun⟩, ?_⟩
      rw [append_assoc] at hI'
      exact hI'

include hf hsize in
/-- An invariant that connecting one builder keeps, when the parts of the builder are connected and
    the builder is not, is kept by connecting a tree. -/
theorem connectTree_keeps (hplans : ∀ {done m}, I done m → Plans P m)
    (hstep : ∀ {done m b d}, I done m → P b = some d → (∀ c ∈ d.children, c ∈ done) → b ∉ done →
      ¬ Circular P b → ∃ m', (connectBuilder b).run m = .ok ((), m') ∧ I (done ++ [b]) m')
    (hb : Deep P size fuel b) : ∀ done m, I done m → (∀ k, Under P b k → k ∉ done) →
      ∃ m', (connectTree fuel b).run m = .ok ((), m') ∧ I (done ++ nested P fuel b) m' := by
  refine Deep.induct hf hsize (M := fun fuel b => ∀ done m, I done m →
    (∀ k, Under P b k → k ∉ done) → ∃ m', (connectTree fuel b).run m = .ok ((), m') ∧
      I (done ++ nested P fuel b) m') ?_ hb
  intro fuel b d hdeep hd ih done m hI hfresh
  have htree := hdeep.tree
  obtain ⟨e, he, hseq, -, -⟩ := hplans hI b d hd
  obtain ⟨m1, hrun1, hI1⟩ := connectParts_keeps hf hsize hdeep hd ih d.sequence done m hI
    (fun c hc => mem_children.2 hc) (hf.once hd)
    fun c hc k hk => hfresh k (.head ⟨d, hd, mem_children.2 hc⟩ hk)
  have hbefore : b ∉ done ++ d.children.flatMap (nested P fuel) := by
    intro hmem
    rcases mem_append.1 hmem with hmem | hmem
    · exact hfresh b .refl hmem
    · obtain ⟨c, hc, hmem⟩ := mem_flatMap.1 hmem
      have hcb := (mem_nested hf hsize (hdeep.child hf ⟨d, hd, hc⟩) b).1 hmem
      exact htree (.head' ⟨d, hd, hc⟩ hcb)
  obtain ⟨m', hrun, hI'⟩ := hstep hI1 hd (fun c hc => mem_append_right _ (mem_flatMap.2
    ⟨c, hc, (mem_nested hf hsize (hdeep.child hf ⟨d, hd, hc⟩) c).2 .refl⟩)) hbefore htree
  refine ⟨m', ?_, ?_⟩
  · rw [connectTree]
    refine bind_eq_ok.2 ⟨e, m, builder_eq_ok.2 ⟨he, rfl⟩, ?_⟩
    rw [hseq]
    exact bind_eq_ok.2 ⟨(), m1, hrun1, hrun⟩
  · rw [nested, hd, ← append_assoc]
    exact hI'

end Emit
/-! ## What a builder comes to -/

/-- What a builder comes to: its sequence written out, and its exit unless it is the body. -/
def Flat (P : BuilderId → Option Builder) (b : BuilderId) (xs : List BlockId) : Prop :=
  ∃ d ys, P b = some d ∧ Writes P d.sequence ys ∧
    xs = if b = Method.root then ys else ys ++ [d.exit]

theorem Flat.unique {xs ys : List BlockId} (h : Flat P b xs) (h' : Flat P b ys) : xs = ys := by
  obtain ⟨d, zs, hd, hzs, rfl⟩ := h
  obtain ⟨d', zs', hd', hzs', rfl⟩ := h'
  cases hd.symm.trans hd'
  rw [hzs.unique hzs']

/-! ## Counting -/

/-- The methods differ in the counts of their builders only, and what was counted stays so. -/
structure Method.Counts (m m' : Method) : Prop where
  builders : ∀ b, (m'.builder? b).map ({ · with count := none }) =
    (m.builder? b).map ({ · with count := none })
  size : m'.builders.size = m.builders.size
  graph : m'.graph = m.graph
  config : m'.config = m.config
  connected : m'.connected = m.connected
  kept : ∀ b d k, m.builder? b = some d → d.count = some k →
    ∃ e, m'.builder? b = some e ∧ e.count = some k

namespace Method.Counts

theorem refl (m : Method) : m.Counts m :=
  ⟨fun _ => rfl, rfl, rfl, rfl, rfl, fun _ d _ hd hk => ⟨d, hd, hk⟩⟩

theorem trans (h1 : m1.Counts m2) (h2 : m2.Counts m3) : m1.Counts m3 where
  builders b := (h2.builders b).trans (h1.builders b)
  size := h2.size.trans h1.size
  graph := h2.graph.trans h1.graph
  config := h2.config.trans h1.config
  connected := h2.connected.trans h1.connected
  kept b d k hd hk := by
    obtain ⟨e, he, hek⟩ := h1.kept b d k hd hk
    exact h2.kept b e k he hek

theorem builder? (h : m.Counts m') (hd : m.builder? b = some d) :
    ∃ k, m'.builder? b = some { d with count := k } := by
  have hb := h.builders b
  rw [hd] at hb
  obtain ⟨e, he, hde⟩ := Option.map_eq_some_iff.1 hb
  refine ⟨e.count, ?_⟩
  rw [he]
  congr 1
  cases e
  cases d
  simp only [Builder.mk.injEq] at hde ⊢
  tauto

theorem alike (h : m.Counts m') : m.Alike m' := by
  refine ⟨fun b => ?_, h.size, h.config⟩
  have hframe : frame ∘ ({ · with count := none }) = frame := rfl
  rw [← hframe, ← Option.map_map, ← Option.map_map, h.builders b]

theorem setCount {k : Nat} (hd : m.builder? b = some d) (hk : ∀ j, d.count = some j → j = k) :
    m.Counts (m.withBuilder b ({ · with count := some k })) := by
  refine ⟨fun c => ?_, size_withBuilder .., rfl, rfl, rfl, fun c e j he hj => ?_⟩
  · rw [builder?_withBuilder]
    split
    · rw [Option.map_map]
      rfl
    · rfl
  · grind [builder?_withBuilder]

end Method.Counts

/-- The counts that are there are right, and whatever hangs from a builder that is counted is
    counted too. -/
structure Counted (P : BuilderId → Option Builder) (m : Method) : Prop where
  right : ∀ {b e k}, m.builder? b = some e → e.count = some k →
    ∃ xs, Flat P b xs ∧ xs.length = k
  closed : ∀ {b e k c}, m.builder? b = some e → e.count = some k → Holds P b c →
    ∃ e' k', m.builder? c = some e' ∧ e'.count = some k'

namespace Emit

theorem countBlocks_eq {e : Builder} (he : m.builder? b = some e) :
    (countBlocks (fuel + 1) b).run m = match e.count with
      | some k => .ok (k, m)
      | none => (do
        let counts ← e.sequence.mapM fun
          | .block _ => pure 1
          | .builder c => countBlocks fuel c
        let k := total counts + (if b = root then 0 else 1)
        updateBuilder b fun d => { d with count := some k }
        return k : Emit Nat).run m := by
  have hb : (builder b).run m = .ok (e, m) := builder_eq_ok.2 ⟨he, rfl⟩
  rw [countBlocks, StateT.run_bind, hb]
  obtain ⟨entry, exit, sequence, tail, placed, isHandler, connected, count, blocks, derived,
    bytecode⟩ := e
  cases count <;> rfl

include hf hsize in
/-- Counting a tree: the answer is the length of what the builder comes to, and everything that
    hangs from it has been counted. -/
theorem countBlocks_run (hb : Deep P size fuel b) : ∀ m, Plans P m → Counted P m →
      ∃ xs m', (countBlocks fuel b).run m = .ok (xs.length, m') ∧ Flat P b xs ∧ m.Counts m' ∧
        Counted P m' ∧ ∃ e, m'.builder? b = some e ∧ e.count = some xs.length := by
  refine Deep.induct hf hsize (M := fun fuel b => ∀ m, Plans P m → Counted P m →
    ∃ xs m', (countBlocks fuel b).run m = .ok (xs.length, m') ∧ Flat P b xs ∧ m.Counts m' ∧
      Counted P m' ∧ ∃ e, m'.builder? b = some e ∧ e.count = some xs.length) ?_ hb
  intro fuel b d hdeep hd ih m hplans hcounted
  obtain ⟨e, he, hseq, hexit, -⟩ := hplans b d hd
  cases hk : e.count with
  | some k =>
    obtain ⟨xs, hxs, rfl⟩ := hcounted.right he hk
    exact ⟨xs, m, by rw [countBlocks_eq he, hk], hxs, .refl m, hcounted, e, he, hk⟩
  | none =>
    -- the entries, from left to right
    have hparts : ∀ (es : List Entry) (m : Method), Plans P m → Counted P m →
        (∀ c, .builder c ∈ es → c ∈ d.children) → ∃ counts ys m',
          (es.mapM fun (entry : Entry) => (match entry with
            | .block _ => pure 1
            | .builder c => countBlocks fuel c : Emit Nat)).run m = .ok (counts, m') ∧
          total counts = ys.length ∧ Writes P es ys ∧ m.Counts m' ∧ Counted P m' ∧
          ∀ c, .builder c ∈ es → ∃ e k, m'.builder? c = some e ∧ e.count = some k := by
      intro es
      induction es with
      | nil =>
        intro m _ hcounted _
        exact ⟨[], [], m, rfl, rfl, .nil, .refl m, hcounted,
          fun _ hc => absurd hc not_mem_nil⟩
      | cons entry es ihes =>
        intro m hplans hcounted hchild
        have hrest := fun c hc => hchild c (mem_cons_of_mem entry hc)
        cases entry with
        | block x =>
          obtain ⟨counts, ys, m', hrun, htotal, hys, hcm, hcounted', hall⟩ :=
            ihes m hplans hcounted hrest
          refine ⟨1 :: counts, x :: ys, m', ?_, ?_, .block x hys, hcm, hcounted', ?_⟩
          · rw [mapM_cons]
            exact bind_eq_ok.2 ⟨1, m, rfl, bind_eq_ok.2 ⟨counts, m', hrun, rfl⟩⟩
          · rw [total_cons, htotal, length_cons, Nat.add_comm]
          · intro c hc
            rcases mem_cons.1 hc with hc | hc
            · cases hc
            · exact hall c hc
        | builder c =>
          have hc := hchild c mem_cons_self
          obtain ⟨xs, m1, hrun1, ⟨f, zs, hf', hzs, hxs⟩, hcm1, hcounted1, e1, he1, hk1⟩ :=
            ih c hc m hplans hcounted
          rw [if_neg (hf.child hd hc).1] at hxs
          subst hxs
          obtain ⟨counts, ys, m', hrun, htotal, hys, hcm, hcounted', hall⟩ :=
            ihes m1 (hplans.alike hcm1.alike) hcounted1 hrest
          refine ⟨(zs ++ [f.exit]).length :: counts, zs ++ f.exit :: ys, m', ?_, ?_,
            .builder hf' hzs hys, hcm1.trans hcm, hcounted', ?_⟩
          · rw [mapM_cons]
            exact bind_eq_ok.2 ⟨_, m1, hrun1, bind_eq_ok.2 ⟨counts, m', hrun, rfl⟩⟩
          · grind [total_cons]
          · grind [hcm.kept]
    obtain ⟨counts, ys, m1, hrun, htotal, hys, hcm, hcounted1, hall⟩ :=
      hparts d.sequence m hplans hcounted fun c hc => mem_children.2 hc
    obtain ⟨k1, he1⟩ := hcm.builder? he
    let xs := if b = root then ys else ys ++ [d.exit]
    have hlen : total counts + (if b = root then 0 else 1) = xs.length := by
      rw [htotal]
      by_cases hr : b = root <;> simp [xs, hr]
    have hflat : Flat P b xs := ⟨d, ys, hd, hys, rfl⟩
    -- a count that is there already is the same
    have hsame : ∀ j, k1 = some j → j = xs.length := by
      rintro j rfl
      obtain ⟨zs, hzs, rfl⟩ := hcounted1.right he1 rfl
      rw [hzs.unique hflat]
    have hset := Method.Counts.setCount he1 hsame
    have hb' : (m1.withBuilder b ({ · with count := some xs.length })).builder? b =
        some { e with count := some xs.length } := by
      rw [builder?_withBuilder, if_pos rfl, he1]
      rfl
    refine ⟨xs, m1.withBuilder b ({ · with count := some xs.length }), ?_, hflat,
      hcm.trans hset, ⟨?_, ?_⟩, _, hb', rfl⟩
    · rw [countBlocks_eq he, hk, hseq]
      refine bind_eq_ok.2 ⟨counts, m1, hrun, ?_⟩
      rw [hlen]
      refine bind_eq_ok.2 ⟨(), _, updateBuilder_eq_ok.2 ⟨lt_of_builder? he1, rfl⟩, rfl⟩
    · grind [builder?_withBuilder, hcounted1.right]
    · grind [builder?_withBuilder, mem_children, Holds, hcounted1.closed]
end Emit

/-! ## Connecting one builder -/

namespace Method

/-- Whether control reaches the end of a builder that consists of the given blocks. -/
def comesBack (m : Method) (d : Builder) (members : List BlockId) : Bool :=
  d.fallsOut && m.graph.reachesLast d.entry members

/-- The edge to the exit of a builder whose end control reaches. -/
def joinExit (m : Method) (d : Builder) (members : List BlockId) : Method :=
  match members.getLast? with
  | some last => if m.comesBack d members then m.withEdge last d.exit else m
  | none => m

/-- The method with a builder connected that consists of the given blocks. -/
def joined (m : Method) (b : BuilderId) (d : Builder) (members : List BlockId) : Method :=
  (m.joinExit d members).withBuilder b fun e =>
    { e with
      blocks := if b = Method.root then members else members ++ [d.exit]
      derived := some (m.comesBack d members)
      connected := true }

theorem joinExit_cases (m : Method) (d : Builder) (members : List BlockId) :
    m.joinExit d members = m ∧ (m.comesBack d members = false ∨ members = []) ∨
      ∃ last, members.getLast? = some last ∧ m.comesBack d members = true ∧
        m.joinExit d members = m.withEdge last d.exit := by grind [joinExit, getLast?_eq_none_iff]

@[simp] theorem builder?_joinExit (m : Method) (d : Builder) (members : List BlockId)
    (b : BuilderId) : (m.joinExit d members).builder? b = m.builder? b := by
  rcases m.joinExit_cases d members with ⟨h, -⟩ | ⟨last, -, -, h⟩ <;> rw [h]
  rfl

@[simp] theorem size_joinExit (m : Method) (d : Builder) (members : List BlockId) :
    (m.joinExit d members).graph.blocks.size = m.graph.blocks.size := by
  grind [size_withEdge, m.joinExit_cases]

theorem alike_joinExit (m : Method) (d : Builder) (members : List BlockId) :
    m.Alike (m.joinExit d members) := by
  rcases m.joinExit_cases d members with ⟨h, -⟩ | ⟨last, -, -, h⟩ <;> rw [h]
  · exact .refl m
  · exact ⟨fun _ => rfl, rfl, rfl⟩

theorem alike_joined (m : Method) (b : BuilderId) (d : Builder) (members : List BlockId) :
    m.Alike (m.joined b d members) :=
  (m.alike_joinExit d members).trans (.withBuilder b fun _ _ => rfl)

theorem builder?_joined_self (d : Builder) (members : List BlockId)
    (he : m.builder? b = some e) : (m.joined b d members).builder? b = some { e with
      blocks := if b = Method.root then members else members ++ [d.exit]
      derived := some (m.comesBack d members)
      connected := true } := by
  unfold joined
  rw [builder?_withBuilder, if_pos rfl, builder?_joinExit, he]
  rfl

theorem builder?_joined_of_ne {c : BuilderId} (d : Builder) (members : List BlockId)
    (hne : b ≠ c) : (m.joined b d members).builder? c = m.builder? c := by
  unfold joined
  rw [builder?_withBuilder, if_neg hne, builder?_joinExit]

end Method

/-- The blocks of a builder are what it comes to. -/
def Connected (P : BuilderId → Option Builder) (m : Method) (b : BuilderId) : Prop :=
  ∃ e, m.builder? b = some e ∧ Flat P b e.blocks

namespace Emit

/-- The blocks of a sequence whose builders are connected are what it comes to. -/
theorem entryBlocks_run (es : List Entry)
    (hes : ∀ c, .builder c ∈ es → c ≠ Method.root ∧ Connected P m c) :
    ∃ xss, (es.mapM entryBlocks).run m = .ok (xss, m) ∧ Writes P es xss.flatten := by
  induction es with
  | nil => exact ⟨[], rfl, .nil⟩
  | cons entry es ih =>
    obtain ⟨xss, hrun, hw⟩ := ih fun c hc => hes c (mem_cons_of_mem _ hc)
    cases entry with
    | block x =>
      refine ⟨[x] :: xss, ?_, .block x hw⟩
      rw [mapM_cons]
      exact bind_eq_ok.2 ⟨[x], m, rfl, bind_eq_ok.2 ⟨xss, m, hrun, rfl⟩⟩
    | builder c =>
      obtain ⟨hroot, e, he, d, ys, hd, hys, hblocks⟩ := hes c mem_cons_self
      rw [if_neg hroot] at hblocks
      have hread : (entryBlocks (.builder c)).run m = .ok (ys ++ [d.exit], m) :=
        bind_eq_ok.2 ⟨e, m, builder_eq_ok.2 ⟨he, rfl⟩, pure_eq_ok.2 ⟨hblocks, rfl⟩⟩
      refine ⟨(ys ++ [d.exit]) :: xss, ?_, ?_⟩
      · rw [mapM_cons]
        exact bind_eq_ok.2 ⟨_, m, hread, bind_eq_ok.2 ⟨xss, m, hrun, rfl⟩⟩
      · rw [flatten_cons, append_assoc]
        exact .builder hd hys hw

theorem connectBuilder_run {xss : List (List BlockId)} (hd : m.builder? b = some d)
    (hxss : (d.sequence.mapM entryBlocks).run m = .ok (xss, m))
    (hmembers : ∀ x ∈ xss.flatten, x < m.graph.blocks.size) (hexit : d.exit < m.graph.blocks.size) :
    (connectBuilder b).run m = .ok ((), m.joined b d xss.flatten) := by
  have hlt : b < m.builders.size := lt_of_builder? hd
  refine bind_eq_ok.2 ⟨d, m, builder_eq_ok.2 ⟨hd, rfl⟩, ?_⟩
  refine bind_eq_ok.2 ⟨xss, m, hxss, ?_⟩
  refine bind_eq_ok.2 ⟨m, m, get_eq_ok.2 ⟨rfl, rfl⟩, ?_⟩
  have hfinish : ∀ m1 : Method, m1.builders = m.builders → m1 = m.joinExit d xss.flatten →
      (updateBuilder b fun e => { e with
        blocks := if b = root then xss.flatten else xss.flatten ++ [d.exit]
        derived := some (m.comesBack d xss.flatten)
        connected := true }).run m1 = .ok ((), m.joined b d xss.flatten) := by
    rintro m1 hbuilders rfl
    exact updateBuilder_eq_ok.2 ⟨by rw [hbuilders]; exact hlt, rfl⟩
  cases hl : xss.flatten.getLast? with
  | none =>
    refine hfinish m rfl ?_
    unfold joinExit
    rw [hl]
  | some last =>
    have hlast : last < m.graph.blocks.size := hmembers last (mem_of_getLast? hl)
    dsimp only
    split
    · next hback =>
      refine bind_eq_ok.2 ⟨(), m.withEdge last d.exit, addEdge_eq_ok.2 ⟨hlast, hexit, rfl⟩, ?_⟩
      refine hfinish _ rfl ?_
      unfold joinExit
      rw [hl]
      exact (if_pos hback).symm
    · grind [Method.joinExit, Method.comesBack]

end Emit

/-- The method with a transfer from a block to the exit of the method. -/
def Method.leaving (m : Method) (x : BlockId) : Method :=
  (m.withBlock x (·.push { opcode := .goto, targets := [Graph.exit] })).withEdge x Graph.exit

/-- Control that reaches the exit of a builder is sent to the exit of the method. -/
def Method.sentOut (m : Method) (d : Builder) : Method :=
  if d.derived = some true then m.leaving d.exit else m

namespace Emit

include hf hsize in
/-- An invariant as before is kept by connecting builders that are contained in none, if it is kept
    by sending control from their ends to the exit of the method.  It may speak of the builders for
    which this has been done. -/
theorem connectDetached_keeps {I : List BuilderId → List BuilderId → Method → Prop}
    (hplans : ∀ {done left m}, I done left m → Plans P m)
    (hstep : ∀ {done left m b d}, I done left m → P b = some d → (∀ c ∈ d.children, c ∈ done) →
      b ∉ done → ¬ Circular P b →
      ∃ m', (connectBuilder b).run m = .ok ((), m') ∧ I (done ++ [b]) left m')
    {tops : List BuilderId} (htops : ∀ t ∈ tops, (∀ a, ¬ Holds P a t) ∧ ∃ d, P t = some d)
    (hleave : ∀ {done left m t e}, I done left m → t ∈ tops → t ∈ done → t ∉ left →
      m.builder? t = some e → e.exit < m.graph.blocks.size ∧ Graph.exit < m.graph.blocks.size ∧
        I done (left ++ [t]) (m.sentOut e)) :
    ∀ (ts done left : List BuilderId) (m : Method), ts ⊆ tops → ts.Nodup → I done left m →
      (∀ t ∈ ts, ∀ k, Under P t k → k ∉ done) → (∀ t ∈ ts, t ∉ left) →
      ∃ m', (ts.forM (connectDetached size)).run m = .ok ((), m') ∧
        I (done ++ ts.flatMap (nested P size)) (left ++ ts) m' := by
  intro ts
  induction ts with
  | nil =>
    intro done left m _ _ hI _ _
    refine ⟨m, rfl, ?_⟩
    rwa [flatMap_nil, append_nil, append_nil]
  | cons t ts ih =>
    intro done left m hsub hnodup hI hfresh hstay
    have hnodup' := nodup_cons.1 hnodup
    have ht : t ∈ tops := hsub mem_cons_self
    obtain ⟨htop, d, hd⟩ := htops t ht
    have hdeep : Deep P size size t := .top hf htop ⟨d, hd⟩
    obtain ⟨m1, hrun1, hI1⟩ := connectTree_keeps (I := fun done m => I done left m) hf hsize
      hplans hstep hdeep done m hI (hfresh t mem_cons_self)
    have hdone : t ∈ done ++ nested P size t :=
      mem_append_right _ ((mem_nested hf hsize hdeep t).2 .refl)
    obtain ⟨e, he, -⟩ := hplans hI1 t d hd
    obtain ⟨hx, hexit, hI2⟩ := hleave hI1 ht hdone (hstay t mem_cons_self) he
    -- the end of the builder
    have hrun2 : (connectDetached size t).run m = .ok ((), m1.sentOut e) := by
      refine bind_eq_ok.2 ⟨(), m1, hrun1, ?_⟩
      refine bind_eq_ok.2 ⟨e, m1, builder_eq_ok.2 ⟨he, rfl⟩, ?_⟩
      unfold sentOut
      by_cases hback : e.derived = some true
      · rw [if_pos hback, if_pos hback]
        refine bind_eq_ok.2 ⟨(), _, push_eq_ok.2 ⟨hx, rfl⟩, addEdge_eq_ok.2 ⟨?_, ?_, rfl⟩⟩
        · rw [size_withBlock]
          exact hx
        · rw [size_withBlock]
          exact hexit
      · rw [if_neg hback, if_neg hback]
        rfl
    have hapart : ∀ t' ∈ ts, ∀ k, Under P t' k → k ∉ done ++ nested P size t := by
      intro t' ht' k hk hmem
      rcases mem_append.1 hmem with hmem | hmem
      · exact hfresh t' (mem_cons_of_mem _ ht') k hk hmem
      · have hkt := (mem_nested hf hsize hdeep k).1 hmem
        have htop' := (htops t' (hsub (mem_cons_of_mem _ ht'))).1
        have heq := hf.top_unique htop htop' hkt hk
        subst heq
        exact hnodup'.1 ht'
    have hstay' : ∀ t' ∈ ts, t' ∉ left ++ [t] := by
      intro t' ht' hmem
      rcases mem_append.1 hmem with hmem | hmem
      · exact hstay t' (mem_cons_of_mem _ ht') hmem
      · rw [mem_singleton.1 hmem] at ht'
        exact hnodup'.1 ht'
    obtain ⟨m', hrun, hI'⟩ := ih (done ++ nested P size t) (left ++ [t]) (m1.sentOut e)
      (fun a ha => hsub (mem_cons_of_mem _ ha)) hnodup'.2 hI2 hapart hstay'
    refine ⟨m', bind_eq_ok.2 ⟨(), _, hrun2, hrun⟩, ?_⟩
    rw [append_assoc, append_assoc] at hI'
    exact hI'

end Emit

/-! ## What connecting keeps -/

/-- The builders connected so far consist of what they come to, and nothing else has changed but
    edges and the ends of exits; `m0` is the method before. -/
structure Joined (P : BuilderId → Option Builder) (m0 : Method) (done : List BuilderId)
    (m : Method) : Prop where
  alike : m0.Alike m
  size : m.graph.blocks.size = m0.graph.blocks.size
  counts : ∀ b d, m0.builder? b = some d → ∃ e, m.builder? b = some e ∧ e.count = d.count
  blocks : ∀ b ∈ done, Connected P m b

namespace Joined

variable {m0 : Method} {done : List BuilderId} {d : Builder}

theorem start (P : BuilderId → Option Builder) (m : Method) : Joined P m [] m :=
  ⟨.refl m, rfl, fun _ d hd => ⟨d, hd, rfl⟩, fun _ hb => absurd hb not_mem_nil⟩

/-- Connecting one builder succeeds when its parts are connected. -/
theorem step (hf : Forest P m0.graph.blocks.size loose) (hplans : Plans P m0)
    (h : Joined P m0 done m) (hd : P b = some d) (hparts : ∀ c ∈ d.children, c ∈ done)
    (hnew : b ∉ done) : ∃ e xs, m.builder? b = some e ∧ e.sequence = d.sequence ∧
      e.exit = d.exit ∧ e.entry = d.entry ∧ Writes P d.sequence xs ∧
      (Emit.connectBuilder b).run m = .ok ((), m.joined b e xs) ∧
      Joined P m0 (done ++ [b]) (m.joined b e xs) := by
  obtain ⟨e, he, hseq, hexit, hentry⟩ := hplans.alike h.alike b d hd
  obtain ⟨xss, hrun, hw⟩ := Emit.entryBlocks_run (P := P) (m := m) d.sequence fun c hc =>
    ⟨(hf.child hd (mem_children.2 hc)).1, h.blocks c (hparts c (mem_children.2 hc))⟩
  have hbound : ∀ x ∈ xss.flatten, x < m.graph.blocks.size := by
    intro x hx
    rw [h.size]
    rcases Forest.writes_mem hd hw hx with hx | ⟨k, f, -, hk, hx⟩
    · exact hf.bound hd (mem_cons_of_mem _ hx)
    · exact hf.bound hk hx
  have hexit' : e.exit < m.graph.blocks.size := by
    rw [h.size, hexit]
    exact hf.bound hd mem_cons_self
  refine ⟨e, xss.flatten, he, hseq, hexit, hentry, hw,
    Emit.connectBuilder_run he (hseq ▸ hrun) hbound hexit', ?_, ?_, ?_, ?_⟩
  · exact h.alike.trans (m.alike_joined b e xss.flatten)
  · rw [← h.size]
    exact size_joinExit ..
  · grind [builder?_joined_self, builder?_joined_of_ne, h.counts]
  · intro c hc
    rcases mem_append.1 hc with hc | hc
    · have hblocks := @h.blocks
      grind [builder?_joined_of_ne, Connected]
    · rw [mem_singleton.1 hc]
      refine ⟨_, builder?_joined_self e _ he, d, xss.flatten, hd, hw, ?_⟩
      show (if b = root then _ else _) = _
      rw [hexit]

theorem leave (h : Joined P m0 done m) (d : Builder) : Joined P m0 done (m.sentOut d) := by
  unfold sentOut
  split
  · refine ⟨h.alike.trans ⟨fun _ => rfl, rfl, rfl⟩, ?_, h.counts, h.blocks⟩
    unfold leaving
    rw [size_withEdge, size_withBlock, h.size]
  · exact h

end Joined
end MethodGraph
