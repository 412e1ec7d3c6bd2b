import MethodGraph.Proofs.Readings
import MethodGraph.Proofs.Straight
import MethodGraph.Proofs.Verified
/-!
  Blocks that are finished.

  Operations go into a block only while it is the end of a sequence that takes them.  The end of a
  sequence is part of the sequence (`Draft.Bare`), and no block is part of two.  So once a block
  is closed it is settled: whatever is built afterwards, its operations stay as they are
  (`Builds.settled`), and the connected graph has them.  What is between them is fixed as well:
  control goes from one entry of a sequence to the next (`Method.Reachable.connect_courses`).
-/

namespace MethodGraph

open Method List Builder

variable {z : BlockId} {d e : Builder} {s t : Draft}

variable {l : License} {m m' : Method} {b : BuilderId} {x : BlockId} {g : Graph}

/-! ## Settled blocks -/

theorem Tail.close_ne_current (t : Tail) (falls : Bool) (x : BlockId) :
    t.close falls ≠ .current x := by
  cases t with
  | current y => cases falls <;> exact nofun
  | owed y => exact nofun
  | closed => exact nofun

/-- A block that is there, belongs to a builder and takes no operations any more. -/
structure Method.Settled (m : Method) (loose : List BlockId) (x : BlockId) : Prop where
  lt : x < m.graph.blocks.size
  placed : x ∉ loose
  shut : ∀ b d, m.builder? b = some d → d.tail ≠ .current x

/-- A step of building leaves the operations of a settled block alone, and it stays settled. -/
theorem Step.settled (h : Step l s t) (hs : s.method.Settled s.loose x) :
    t.method.Settled t.loose x ∧ t.method.ops x = s.method.ops x := by
  obtain ⟨old, hold⟩ := exists_block? hs.lt
  obtain ⟨blk, hblk, -⟩ := h.below.blocks x old hold
  refine ⟨⟨lt_of_block? hblk, fun hx => hs.placed (h.loose_of_old hx hold), fun b e he hx => ?_⟩,
    h.ops hs.lt fun hd => hs.shut _ _ hd⟩
  obtain ⟨-, hnone | hloose⟩ | ⟨d, hd, -, hx⟩ := h.current he hx
  · cases hold.symm.trans hnone
  · exact hs.placed hloose
  · exact hs.shut b d hd hx

theorem Builds.settled (h : Builds l s t) (hs : s.method.Settled s.loose x) :
    t.method.Settled t.loose x ∧ t.method.ops x = s.method.ops x := by
  induction h with
  | refl => exact ⟨hs, rfl⟩
  | tail _ hstep ih =>
    obtain ⟨hsettled, hops⟩ := hstep.settled ih.1
    exact ⟨hsettled, hops.trans ih.2⟩

/-! ## Sequences that are written out -/

namespace Writes

variable {P : BuilderId → Option Builder} {es es' : List Entry} {e : Entry} {zs : List BlockId}
  {n : Nat} {loose : List BlockId}

theorem split (h : Writes P (es ++ es') zs) :
    ∃ xs ys, zs = xs ++ ys ∧ Writes P es xs ∧ Writes P es' ys := by
  induction es generalizing zs with
  | nil => exact ⟨[], zs, rfl, .nil, h⟩
  | cons e es ih =>
    cases h with
    | block x h =>
      obtain ⟨xs, ys, rfl, hxs, hys⟩ := ih h
      exact ⟨x :: xs, ys, rfl, .block x hxs, hys⟩
    | @builder _ us _ c f hc hu h =>
      obtain ⟨xs, ys, rfl, hxs, hys⟩ := ih h
      exact ⟨us ++ f.exit :: xs, ys, (append_assoc us (f.exit :: xs) ys).symm,
        .builder hc hu hxs, hys⟩

/-- Behind the end of an entry stands the beginning of the next one, or what comes behind it all. -/
theorem next (hf : Forest P n loose) (hplans : Plans P m) (h : Writes P (es ++ e :: es') zs)
    (z : BlockId) : ∃ x y, m.Ends e x ∧ [x, y] <:+: zs ++ [z] ∧
      (es' = [] ∧ y = z ∨ ∃ e', es'.head? = some e' ∧ m.Begins e' y) := by
  have h' : Writes P ((es ++ [e]) ++ es') zs := by
    rw [append_assoc]
    exact h
  obtain ⟨xs, ys, rfl, hxs, hys⟩ := h'.split
  obtain ⟨x, hx⟩ : ∃ x, xs.getLast? = some x := by
    cases hlast : xs.getLast? with
    | some x => exact ⟨x, rfl⟩
    | none => exact absurd (hxs.eq_nil (getLast?_eq_none_iff.1 hlast)) (by simp)
  obtain ⟨e', he', hends⟩ := hxs.ends hplans hx
  rw [getLast?_concat] at he'
  cases he'
  obtain ⟨xs, rfl⟩ := getLast?_eq_some_iff.1 hx
  cases hys' : ys with
  | nil => grind [hys.eq_nil]
  | cons y ys' =>
    rw [hys'] at hys
    obtain ⟨e', he', hbegins⟩ := hys.begins hf hplans rfl
    exact ⟨x, y, hends, ⟨xs, ys' ++ [z], by simp⟩, .inr ⟨e', he', hbegins⟩⟩

/-- What hangs from a builder is written out inside of it, up to its exit. -/
theorem inside {t : BuilderId} (hd : P t = some d) (h : Writes P d.sequence zs)
    (hb : Under P t b) : ∃ e ys, P b = some e ∧ Writes P e.sequence ys ∧
      ys ++ [e.exit] <:+: zs ++ [d.exit] := by
  induction hb with
  | refl => exact ⟨d, zs, hd, h, infix_rfl⟩
  | @tail b c _ hbc ih =>
    obtain ⟨e, ys, he, hys, hin⟩ := ih
    obtain ⟨e', he', hc⟩ := hbc
    cases he.symm.trans he'
    obtain ⟨before, after, hseq⟩ := append_of_mem (Builder.mem_children.1 hc)
    rw [hseq] at hys
    obtain ⟨us, vs, rfl, -, hvs⟩ := hys.split
    cases hvs with
    | @builder _ ws xs _ f hf hws _ =>
      refine ⟨f, ws, hf, hws, List.IsInfix.trans ?_ hin⟩
      exact ⟨us, xs ++ [e.exit], by simp⟩

end Writes

namespace Forest

variable {P : BuilderId → Option Builder} {n : Nat} {loose : List BlockId} {d : Builder}

theorem entry_here (hf : Forest P n loose) (hd : P b = some d) : d.entry ∈ d.blocksHere := by
  obtain ⟨rest, hseq⟩ := hf.opens hd
  exact mem_blocksHere.2 (hseq ▸ mem_cons_self)

/-- Only the exit of the body is the exit of the method. -/
theorem ne_exit (hf : Forest P n loose) (hd : P b = some d)
    (h : x ∈ d.blocksHere ∨ x = d.exit ∧ b ≠ Method.root) : x ≠ Graph.exit := by
  obtain ⟨r, hr, -, hexit⟩ := hf.root
  have howned : x ∈ d.owned := by
    rcases h with h | ⟨rfl, -⟩
    · exact mem_cons_of_mem _ h
    · exact mem_cons_self
  rintro rfl
  obtain rfl := hf.owner hd hr howned (hexit ▸ mem_cons_self)
  cases hd.symm.trans hr
  have hhere := h.resolve_right fun h => h.2 rfl
  exact (nodup_cons.1 (hf.nodup hd)).1 (hexit ▸ hhere)

/-- A sequence of which a block is in the layout is written out in it, up to the exit of the method
    if nothing comes behind the body. -/
theorem written (hf : Forest P n loose) {ts : List BuilderId} {flats : List (List BlockId)}
    (hflats : List.Forall₂ (Flat P) (Method.root :: ts) flats) (hd : P b = some d)
    (hhere : z ∈ d.blocksHere) (hmem : z ∈ flats.flatten ++ [Graph.exit]) :
    ∃ ys, Writes P d.sequence ys ∧ ∀ x y, [x, y] <:+: ys ++ [d.exit] →
      y ≠ Graph.exit ∨ ts = [] → [x, y] <:+: flats.flatten ++ [Graph.exit] := by
  have hmem' : z ∈ flats.flatten := (mem_append.1 hmem).resolve_right fun h =>
    hf.ne_exit hd (.inl hhere) (mem_singleton.1 h)
  obtain ⟨t, ht, k, e, hk, he, hentry⟩ := flats_mem hflats hmem'
  obtain rfl := hf.owner hd he (mem_cons_of_mem _ hhere) hentry
  obtain ⟨xs, hxs, r, zs, hr, hzs, rfl⟩ := forall₂_mem hflats ht
  obtain ⟨e', ys, he', hys, hin⟩ := hzs.inside hr hk
  cases hd.symm.trans he'
  refine ⟨ys, hys, fun x y hxy hy => ?_⟩
  by_cases hroot : t = Method.root
  · rw [if_pos hroot] at hxs
    obtain ⟨r', hr', -, hexit⟩ := hf.root
    rw [← hroot, hr] at hr'
    cases hr'
    rw [hexit] at hin
    rcases hy with hy | rfl
    · -- the exit of the method comes behind all of the layout
      refine List.IsInfix.trans ?_ ((infix_of_mem_flatten hxs).trans (prefix_append ..).isInfix)
      refine (infix_concat_iff.1 (hxy.trans hin)).resolve_left ?_
      rintro ⟨us, hus⟩
      exact hy (by simpa using congrArg getLast? hus)
    · obtain ⟨w, _, -, hnil, rfl⟩ := forall₂_cons_left_iff.1 hflats
      cases hnil
      cases mem_singleton.1 hxs
      simpa using hxy.trans hin
  · rw [if_neg hroot] at hxs
    exact ((hxy.trans hin).trans (infix_of_mem_flatten hxs)).trans (prefix_append ..).isInfix

end Forest

/-! ## Connecting -/

/-- The two methods have the same operations, values and symbols. -/
structure Method.SameCode (m m' : Method) : Prop where
  ops : ∀ x, m'.ops x = m.ops x
  values : m'.graph.values = m.graph.values
  symbols : m'.graph.symbols = m.graph.symbols

/-- Connecting a builder adds an edge at most. -/
theorem Method.SameCode.joined (h : m.SameCode m') (b : BuilderId) (d : Builder)
    (xs : List BlockId) : m.SameCode (m'.joined b d xs) := by
  have hjoin : m.SameCode (m'.joinExit d xs) := by
    rcases m'.joinExit_cases d xs with ⟨heq, -⟩ | ⟨last, -, -, heq⟩
    · rw [heq]
      exact h
    · rw [heq]
      exact ⟨fun x => (ops_withEdge ..).trans (h.ops x), h.values, h.symbols⟩
  exact ⟨hjoin.ops, hjoin.values, hjoin.symbols⟩

/-- Sending control out of a builder changes the operations of its exit only. -/
theorem Method.ops_sentOut (m : Method) (hx : e.exit ≠ x) : (m.sentOut e).ops x = m.ops x := by
  unfold sentOut
  split
  · exact (ops_withEdge ..).trans (Emit.ops_push_of_ne (Ne.symm hx) _)
  · rfl

theorem Method.sameValues_sentOut (m : Method) (e : Builder) :
    (m.sentOut e).graph.values = m.graph.values ∧ (m.sentOut e).graph.symbols = m.graph.symbols := by
  unfold sentOut
  split <;> exact ⟨rfl, rfl⟩

theorem Method.HasEdge.sentOut {y : BlockId} (h : m.HasEdge x y) (e : Builder) :
    (m.sentOut e).HasEdge x y := by
  unfold Method.sentOut leaving
  split
  · refine HasEdge.withEdge ?_ ..
    rwa [hasEdge_withBlock]
    exact fun _ => rfl
  · exact h

/-- The operations of a block that runs can go through. -/
def Graph.HasCode (g : Graph) (x : BlockId) (ops : List Operation) : Prop :=
  x ≠ exit ∧ ∃ blk, g.block? x = some blk ∧ blk.operations = ops

theorem Graph.HasCode.hasOp {pre post : List Operation} {op : Operation}
    (h : g.HasCode x (pre ++ op :: post)) : g.HasOp (x, pre.length) op := by
  grind [HasOp, HasCode]

/-- The graph has the values of the method and its settled blocks. -/
structure Graph.Holds (g : Graph) (m : Method) : Prop where
  values : g.HasValues m
  blocks : ∀ b d x, m.builder? b = some d → .block x ∈ d.sequence → m.Settled [] x →
    g.HasCode x (m.ops x)

/-- What holds a method holds every earlier one. -/
theorem Graph.Holds.of_builds (h : g.Holds m') (hbuilds : Builds l ⟨m, [], []⟩ ⟨m', [], []⟩) :
    g.Holds m := by
  refine ⟨fun v ty hv => h.values v ty (hbuilds.below.values v ty hv), fun b d x hd hx hs => ?_⟩
  obtain ⟨e, he, hde⟩ := hbuilds.below.builders b d hd
  obtain ⟨hs', hops⟩ := hbuilds.settled hs
  obtain ⟨hne, blk, hblk, hcode⟩ := h.blocks b e x he (hde.sequence.subset hx) hs'
  exact ⟨hne, blk, hblk, hcode.trans hops⟩

/-- The blocks of a method are laid out.  They have the operations that they had, and so have the
    exits of builders that others contain, namely none.  One entry of a sequence stands behind the
    other in the layout, and the last in front of the exit. -/
structure Method.Laid (m m' : Method) : Prop where
  frames : ∀ b, (m'.builder? b).map frame = (m.builder? b).map frame
  values : m'.graph.values = m.graph.values
  symbols : m'.graph.symbols = m.graph.symbols
  edges : ∀ x y, m.HasEdge x y → m'.HasEdge x y
  entry : Graph.entry ∈ m'.graph.layout
  code : ∀ {b d x}, m.builder? b = some d → .block x ∈ d.sequence → m'.graph.HasCode x (m.ops x)
  exits : ∀ {a b d}, Holds m.builder? a b → m.builder? b = some d → m'.graph.HasCode d.exit []
  next : ∀ {b d z before e after}, m.builder? b = some d → .block z ∈ d.sequence →
    z ∈ m'.graph.layout → d.sequence = before ++ e :: after →
    (after = [] → b ≠ Method.root ∨ m.detached = []) →
    ∃ x y blk, m.Ends e x ∧ m'.block? x = some blk ∧ blk.next = some y ∧ y ∈ m'.graph.layout ∧
      (after = [] ∧ y = d.exit ∨ ∃ e', after.head? = some e' ∧ m.Begins e' y)

/-- The graph holds what was finished earlier. -/
theorem Method.Laid.holds {n : Method} (h : n.Laid m') (hbuilds : Builds l ⟨m, [], []⟩ ⟨n, [], []⟩) :
    m'.graph.Holds m := by
  refine Graph.Holds.of_builds ⟨fun v ty hv => h.values ▸ hv, fun b d x hd hx _ => ?_⟩ hbuilds
  exact h.code hd hx

/-- Connecting a method lays out its blocks, where the body may have got a transfer to the exit. -/
theorem Draft.Sound.connect (hs : Draft.Sound ⟨m, [], []⟩) : ∃ n r m',
    Build.connect.run.run m = .ok (r, m') ∧ (∀ l, Builds l ⟨m, [], []⟩ ⟨n, [], []⟩) ∧
      (m.detached = [] → n = m) ∧ n.Laid m' := by
  obtain ⟨m1, m2, hprep, hkeeps⟩ := Emit.connectBuilders_keeps hs
  have hf := hprep.forest hs
  obtain ⟨flats, m3, hrun, hflats, hjoined, hvalues, hsymbols, hedges, hops⟩ := hkeeps
    (fun done _ m' => Joined m1.plan? m2 done m' ∧ m'.graph.values = m2.graph.values ∧
      m'.graph.symbols = m2.graph.symbols ∧ (∀ x y, m2.HasEdge x y → m'.HasEdge x y) ∧
      ∀ x, (∀ c ∈ m.detached, ∀ e, m2.builder? c = some e → e.exit ≠ x) → m'.ops x = m2.ops x)
    And.left
    (fun {done left m' b d} hI hd hparts hnew _ => by
      obtain ⟨e, xs, -, -, -, -, -, hrun, hI'⟩ := hI.1.step hf hprep.plans hd hparts hnew
      have hsame : m'.SameCode (m'.joined b e xs) :=
        Method.SameCode.joined ⟨fun _ => rfl, rfl, rfl⟩ b e xs
      refine ⟨_, hrun, hI', hsame.values.trans hI.2.1, hsame.symbols.trans hI.2.2.1,
        fun x y hxy => ?_, fun x hx => (hsame.ops x).trans (hI.2.2.2.2 x hx)⟩
      have hxy' := hI.2.2.2.1 x y hxy
      show (m'.joinExit e xs).HasEdge x y
      rcases m'.joinExit_cases e xs with ⟨heq, -⟩ | ⟨last, -, -, heq⟩
      · rwa [heq]
      · rw [heq]
        exact hxy'.withEdge last e.exit)
    (fun {done left m' t e} hI ht _ _ he => by
      obtain ⟨e', he', hframe⟩ := hI.1.alike.symm.builder? he
      obtain ⟨hvalues, hsymbols⟩ := m'.sameValues_sentOut e
      refine ⟨hI.1.leave e, hvalues.trans hI.2.1, hsymbols.trans hI.2.2.1,
        fun x y hxy => (hI.2.2.2.1 x y hxy).sentOut e, fun x hx => ?_⟩
      have hexit : e.exit ≠ x := by
        rw [← exit_eq_of_frame hframe]
        exact hx t ht e' he'
      exact (m'.ops_sentOut hexit).trans (hI.2.2.2.2 x hx))
    ⟨.start _ m2, rfl, rfl, fun _ _ => id, fun _ _ => rfl⟩
  obtain ⟨r, m', hconnect, harr⟩ := hprep.connect hs hrun hflats hjoined.size
  have halike := hprep.alike.trans hjoined.alike
  have htops := hprep.extended.tops hf
  -- the operations are those before, except at exits that nothing falls out of
  have hcode : ∀ {b : BuilderId} {d : Builder} {x : BlockId}, m1.builder? b = some d →
      .block x ∈ d.sequence ∨ x = d.exit ∧ b ≠ root ∧ b ∉ m.detached →
      m'.graph.HasCode x (m1.ops x) := by
    intro b d x hd hx
    have hplan : m1.plan? b = some d.plan := plan?_of_builder? hd
    have howned : x ∈ d.plan.owned := by grind [mem_blocksHere, Builder.owned, Builder.plan]
    refine ⟨hf.ne_exit hplan (hx.imp mem_blocksHere.2 fun h => ⟨h.1, h.2.1⟩), ?_⟩
    have hlt : x < m3.graph.blocks.size := hjoined.size ▸ hf.bound hplan howned
    obtain ⟨blk, hblk⟩ := exists_block? hlt
    obtain ⟨next, hnext⟩ := harr.block? x
    refine ⟨_, hnext.trans (congrArg _ hblk), (ops_of_block? hblk).symm.trans ?_⟩
    have hsame : m2.ops x = m1.ops x := by
      unfold ops
      rw [block?_congr hprep.graph]
    refine (hops x fun c hc e he heq => ?_).trans hsame
    obtain ⟨f, hf', hframe⟩ := hprep.alike.symm.builder? he
    have hexit : f.plan.exit = x := (exit_eq_of_frame hframe).trans heq
    have hc' : m1.plan? c = some f.plan := plan?_of_builder? hf'
    rcases hx with hx | ⟨-, -, hnot⟩
    · exact hf.exit_ne hplan hx hc' hexit
    · obtain rfl := hf.owner hplan hc' howned (hexit ▸ mem_cons_self)
      exact hnot hc
  refine ⟨m1, r, m', hconnect, hprep.builds, hprep.same, ?_⟩
  refine ⟨fun b => ?_, ?_, ?_, fun x y hxy => ?_, ?_, fun hd hx => hcode hd (.inl hx),
    fun {a b d} ha hd => ?_, fun {b d z before e after} hd hz hmem hseq hlast => ?_⟩
  · rw [harr.builders b]
    exact halike.frames b
  · rw [harr.threaded.values, hvalues, hprep.graph]
  · rw [harr.threaded.symbols, hsymbols, hprep.graph]
  · obtain ⟨blk, hblk, hy⟩ := hxy
    obtain ⟨blk3, hblk3, hy3⟩ := hedges x y ⟨blk, (block?_congr hprep.graph x).trans hblk, hy⟩
    obtain ⟨next, hnext⟩ := harr.block? x
    exact ⟨_, hnext.trans (congrArg _ hblk3), hy3⟩
  · obtain ⟨zs, rest, ⟨r, _, hr, hzs, rfl⟩, -, rfl⟩ := forall₂_cons_left_iff.1 hflats
    obtain ⟨r', hr', hentry, -⟩ := hf.root
    cases hr.symm.trans hr'
    rw [harr.layout, flatten_cons, ← hentry]
    refine mem_append_left _ (mem_append_left _ ?_)
    exact (hzs.under hr .refl hr).1 _ (mem_blocksHere.1 (hf.entry_here hr))
  · obtain ⟨e, he, hb⟩ := ha
    have hholds : Holds m1.plan? a b := ⟨e.plan, plan?_of_builder? he, hb⟩
    have htop : ∀ t ∈ root :: m.detached, b ≠ t := fun t ht hbt => (htops t ht).1 a (hbt ▸ hholds)
    rw [← ((hprep.builds .plain).sound hs).bare.exits hd]
    exact hcode hd (.inr ⟨rfl, htop _ mem_cons_self, fun ht => htop b (mem_cons_of_mem _ ht) rfl⟩)
  · have hplan : m1.plan? b = some d.plan := plan?_of_builder? hd
    rw [harr.layout] at hmem
    obtain ⟨ys, hys, hin⟩ := hf.written hflats hplan (mem_blocksHere.2 hz) hmem
    have hwhole : d.plan.sequence = before ++ e :: after := hseq
    obtain ⟨x, y, hx, hxy, hy⟩ := (hwhole ▸ hys).next hf (Plans.self m1) d.plan.exit
    have hne : y ≠ Graph.exit ∨ m.detached = [] := by
      rcases hy with ⟨hnil, rfl⟩ | ⟨e', he', hy⟩
      · refine (hlast hnil).imp (fun hroot => hf.ne_exit hplan (.inr ⟨rfl, hroot⟩)) fun hnone => ?_
        refine eq_nil_iff_forall_not_mem.2 fun t ht => ?_
        have ht' : t ∈ m1.detached := by
          rwa [mem_detached, hprep.extended.others t (mem_detached.1 ht).1, ← mem_detached]
        rw [hnone] at ht'
        cases ht'
      · have hmem : e' ∈ d.plan.sequence := by
          rw [hwhole]
          exact mem_append_right _ (mem_cons_of_mem _ (mem_of_head? he'))
        cases e' with
        | block z => exact .inl (hy ▸ hf.ne_exit hplan (.inl (mem_blocksHere.2 hmem)))
        | builder c =>
          obtain ⟨f, hf', rfl⟩ := hy
          have hc : m1.plan? c = some f.plan := plan?_of_builder? hf'
          exact .inl (hf.ne_exit hc (.inl (hf.entry_here hc)))
    obtain ⟨us, vs, hsplit⟩ := hin x y hxy hne
    have hsplit' : flats.flatten ++ [Graph.exit] = us ++ x :: y :: vs := by
      rw [← hsplit]
      simp
    have hlt : x < m3.graph.blocks.size :=
      hjoined.size ▸ (hprep.layout hs hflats).2 x (by rw [hsplit']; simp)
    obtain ⟨blk, hblk⟩ := exists_block? hlt
    refine ⟨x, y, _, hx, (harr.inside us x _ hsplit').trans (congrArg _ hblk), rfl, ?_, hy⟩
    rw [harr.layout, hsplit']
    simp

/-- The graph holds what was finished, and builders keep their entries and records. -/
theorem Method.Reachable.connect_holds (h : m.Reachable) :
    ∃ r m', Build.connect.run.run m = .ok (r, m') ∧ m'.graph.Holds m ∧
      ∀ b d, m.builder? b = some d →
        ∃ e, m'.builder? b = some e ∧ e.entry = d.entry ∧ e.bytecode = d.bytecode := by
  obtain ⟨n, r, m', hconnect, hbuilds, -, hlaid⟩ := h.sound.connect
  refine ⟨r, m', hconnect, hlaid.holds (hbuilds .plain), fun b d hd => ?_⟩
  obtain ⟨f, hf, hdf⟩ := (hbuilds .plain).below.builders b d hd
  have hframes := hlaid.frames b
  rw [hf] at hframes
  obtain ⟨e, he, hframe⟩ := Option.map_eq_some_iff.1 hframes
  have hrecord : f.bytecode = d.bytecode := hdf.record.resolve_right fun h => by cases h.1
  exact ⟨e, he, (entry_eq_of_frame hframe).trans hdf.entry,
    (congrArg bytecode hframe).trans hrecord⟩

end MethodGraph
