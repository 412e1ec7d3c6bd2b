import Mathlib.Data.Fintype.EquivFin
import MethodGraph.Proofs.Bridged
/-!
  A connected method passes verification.

  What verification asks for is read off the graph before its blocks are threaded
  (`Graph.verify_setLayout`): the layout is one of distinct blocks from the entry to the exit, edges
  lead to placed blocks, operations are in order, and control falls along the layout only where
  there is an edge, if it gets there at all (`Graph.Follows`).

  The last of these is proved along the forest of builders.  Within a sequence control falls from
  entry to entry along edges, as it was built; from the last block of a builder to its exit it falls
  by the outcome of connecting the builder; from the exit of a builder that nothing contains it does
  not fall, or it never gets there, because no edge leads to such an exit but the one from the last
  block.  A caller that appends no builder underneath itself leaves no builder out
  (`Forest.exists_top`).
-/

namespace MethodGraph

open Method List Builder

variable {blk : Block} {x y : BlockId} {d e : Builder} {flats : List (List BlockId)}
  {tops ts : List BuilderId} {size : Nat}

variable {m m' m₁ m₂ : Method} {P : BuilderId → Option Builder} {n : Nat} {loose : List BlockId}
  {b t : BuilderId}

namespace Graph

variable {g g' : Graph} {xs : List BlockId}

/-! ## What verification asks for -/

theorem checkOps_ok : ∀ {ops : List Operation}, (∀ op ∈ ops.dropLast, op.isTerminator = false) →
    (∀ op ∈ ops, ∀ y ∈ op.targets, y ∈ blk.succs) →
    (∀ op ∈ ops, op.opcode.canThrow = true → blk.handlers ≠ []) → checkOps x blk ops = .ok ()
  | [], _, _, _ => rfl
  | op :: rest, hearly, htargets, hthrows => by
    have hend : (op.isTerminator && !rest.isEmpty) = false := by
      cases rest with
      | nil => rw [isEmpty_nil, Bool.not_true, Bool.and_false]
      | cons op' rest => rw [hearly op mem_cons_self, Bool.false_and]
    have hfind : (op.targets.find? fun t => !blk.succs.contains t) = none := by grind
    have hthrow : (op.opcode.canThrow && blk.handlers.isEmpty) = false := by grind
    have hrest : checkOps x blk rest = .ok () := by
      refine checkOps_ok (fun o ho => hearly o ?_)
        (fun o ho => htargets o (mem_cons_of_mem _ ho))
        fun o ho => hthrows o (mem_cons_of_mem _ ho)
      cases rest with
      | nil => exact absurd ho not_mem_nil
      | cons op' rest => exact mem_cons_of_mem _ ho
    unfold checkOps
    rw [hend, hfind, hthrow]
    exact hrest

theorem firstRepeat?_eq_none : ∀ {xs before : List BlockId}, xs.Nodup → (∀ x ∈ xs, x ∉ before) →
    firstRepeat? before xs = none
  | [], _, _, _ => rfl
  | x :: xs, before, hnodup, hnew => by
    obtain ⟨hx, hxs⟩ := nodup_cons.1 hnodup
    have hfirst : before.contains x = false := by
      rw [Bool.eq_false_iff, ne_eq, contains_iff_mem]
      exact hnew x mem_cons_self
    unfold firstRepeat?
    rw [hfirst]
    refine firstRepeat?_eq_none hxs fun y hy hmem => ?_
    rcases mem_cons.1 hmem with rfl | hmem
    · exact hx hy
    · exact hnew y (mem_cons_of_mem _ hy) hmem

theorem forM_ok {α : Type} {f : α → Except Flaw Unit} : ∀ {xs : List α},
    (∀ x ∈ xs, f x = .ok ()) → xs.forM f = .ok ()
  | [], _ => rfl
  | x :: xs, h => by
    show (f x >>= fun _ => xs.forM f) = .ok ()
    rw [h x mem_cons_self]
    exact forM_ok fun y hy => h y (mem_cons_of_mem _ hy)

/-- Control falls from one block into another only along an edge, if it gets to the first. -/
def Follows (g : Graph) (x y : BlockId) : Prop :=
  ∀ blk, g.block? x = some blk → blk.fallsThrough = true → g.Reaches x → y ∈ blk.succs

/-- The graphs have the same blocks, up to where control falls into. -/
def SameFlow (g g' : Graph) : Prop :=
  ∀ x blk, g'.block? x = some blk → ∃ next, g.block? x = some { blk with next }

theorem SameFlow.reaches (h : g.SameFlow g') (hx : g'.Reaches x) : g.Reaches x := by
  induction hx with
  | entry => exact .entry
  | step _ hab ih =>
    obtain ⟨blk, hblk, hy⟩ := mem_succsOf.1 hab
    obtain ⟨next, hold⟩ := h _ blk hblk
    exact .step ih (mem_succsOf.2 ⟨_, hold, hy⟩)

theorem SameFlow.of_threaded (hout : ∀ x, x ∉ xs → g'.block? x = g.block? x)
    (hin : ∀ before x rest, xs = before ++ x :: rest →
      g'.block? x = (g.block? x).map ({ · with next := rest.head? })) : g.SameFlow g' := by
  intro x blk hx
  by_cases hmem : x ∈ xs
  · obtain ⟨before, rest, hsplit⟩ := append_of_mem hmem
    rw [hin before x rest hsplit] at hx
    obtain ⟨old, hold, rfl⟩ := Option.map_eq_some_iff.1 hx
    exact ⟨old.next, hold⟩
  · rw [hout x hmem] at hx
    exact ⟨blk.next, hx⟩

theorem checkFall_ok (hnext : blk.next = some y)
    (hy : y ∈ blk.succs) : checkFall x blk = .ok () := by
  unfold checkFall
  rw [hnext]
  simp [hy]

/-- Exactly the last block of a layout falls into none. -/
theorem chainEndCount_eq_one (hxs : g.layout = xs) (hne : xs ≠ [])
    (hnext : ∀ before x rest, xs = before ++ x :: rest →
      ∃ blk, g.block? x = some blk ∧ blk.next = rest.head?) : g.chainEndCount = 1 := by
  have hcount : ∀ (before ys : List BlockId), xs = before ++ ys → ys ≠ [] →
      (ys.filter fun x => ((g.block? x).bind (·.next)).isNone).length = 1 := by
    intro before ys
    induction ys generalizing before with
    | nil => exact fun _ h => absurd rfl h
    | cons y ys ih =>
      intro hsplit _
      obtain ⟨blk, hblk, hy⟩ := hnext before y ys hsplit
      have hnone : ((g.block? y).bind (·.next)).isNone = ys.head?.isNone := by
        rw [hblk]
        show blk.next.isNone = _
        rw [hy]
      cases ys with
      | nil =>
        rw [filter_cons, hnone]
        rfl
      | cons z ys =>
        rw [filter_cons, hnone]
        refine ih (before ++ [y]) ?_ (cons_ne_nil _ _)
        rw [hsplit, append_assoc]
        rfl
  unfold chainEndCount
  rw [hxs]
  exact hcount [] xs rfl hne

/-- A graph passes verification once its layout is fixed, if blocks and layout are in order. -/
theorem verify_setLayout (hhead : xs.head? = some entry) (hlast : xs.getLast? = some exit)
    (hnodup : xs.Nodup) (hbound : ∀ x ∈ xs, x < g.blocks.size)
    (hedges : ∀ x ∈ xs, ∀ y ∈ g.succsOf x, y ∈ xs)
    (hearly : ∀ {x blk}, g.block? x = some blk →
      ∀ op ∈ blk.operations.dropLast, op.isTerminator = false)
    (htargets : ∀ {x blk}, g.block? x = some blk →
      ∀ op ∈ blk.operations, ∀ y ∈ op.targets, y ∈ blk.succs)
    (hthrows : ∀ {x blk}, g.block? x = some blk →
      ∀ op ∈ blk.operations, op.opcode.canThrow = true → blk.handlers ≠ [])
    (hchain : xs.IsChain g.Follows) :
    ∃ g', g.setLayout xs = .ok g' ∧ g'.layout = xs ∧ g'.verify = .ok () := by
  obtain ⟨g', hset, hlayout, -, hout, hin⟩ := g.setLayout_run hnodup hbound
  refine ⟨g', hset, hlayout, ?_⟩
  have hnext : ∀ before x rest, xs = before ++ x :: rest →
      ∃ blk, g'.block? x = some blk ∧ blk.next = rest.head? := by
    intro before x rest hsplit
    obtain ⟨blk, hblk⟩ : ∃ blk, g.block? x = some blk :=
      Option.isSome_iff_exists.1 (Arena.get?_isSome.2 (hbound x (by rw [hsplit]; simp)))
    rw [hin before x rest hsplit, hblk]
    exact ⟨_, rfl, rfl⟩
  have hsame : g.SameFlow g' := .of_threaded hout hin
  have hplaced : ∀ {x}, g.Reaches x → x ∈ xs := by
    intro x hx
    induction hx with
    | entry => exact mem_of_mem_head? hhead
    | step _ hab ih => exact hedges _ ih _ hab
  have hcheck : ∀ x ∈ xs, g'.checkBlock g'.reachable x = .ok () := by
    intro x hx
    unfold checkBlock
    cases hblk : g'.block? x with
    | none => rfl
    | some blk =>
      obtain ⟨next, hold⟩ := hsame x blk hblk
      have hfind : (blk.allSuccs.find? fun s => !g'.layout.contains s) = none := by
        refine find?_eq_none.2 fun y hy => ?_
        have hmem := hedges x hx y (mem_succsOf.2 ⟨_, hold, hy⟩)
        simp [hlayout, hmem]
      have hearly' := hearly hold
      have htargets' := htargets hold
      have hthrows' := hthrows hold
      have hops : checkOps x blk blk.operations = .ok () := checkOps_ok hearly' htargets' hthrows'
      have hfall : (if (x ≠ exit && g'.reachable.contains x && blk.fallsThrough) = true then
          checkFall x blk else pure ()) = .ok () := by
        split
        · next hc =>
          simp only [Bool.and_eq_true, decide_eq_true_eq] at hc
          obtain ⟨⟨hexit, hlive⟩, hthrough⟩ := hc
          obtain ⟨before, rest, hsplit⟩ := append_of_mem hx
          cases rest with
          | nil =>
            rw [hsplit, getLast?_concat] at hlast
            exact absurd (Option.some.inj hlast) hexit
          | cons y rest =>
            obtain ⟨blk', hblk', hnext⟩ := hnext before x (y :: rest) hsplit
            cases hblk.symm.trans hblk'
            rw [hsplit] at hchain
            have hfollow : g.Follows x y :=
              (isChain_cons_cons.1 (isChain_append.1 hchain).2.1).1
            have hr := hsame.reaches (reaches_of_mem_reachable hlive)
            have hsucc := hfollow _ hold hthrough hr
            exact checkFall_ok hnext hsucc
        · rfl
      simp only [hfind, hops]
      exact hfall
  have hnever : (g'.blocks.ids.find? fun x => g'.reachable.contains x && !g'.layout.contains x) =
      none := by
    refine find?_eq_none.2 fun x _ hx => ?_
    simp only [Bool.and_eq_true, Bool.not_eq_true'] at hx
    have hmem := hplaced (hsame.reaches (reaches_of_mem_reachable hx.1))
    rw [← hlayout, ← contains_iff_mem] at hmem
    rw [hx.2] at hmem
    cases hmem
  have hne : xs ≠ [] := by
    rintro rfl
    cases hhead
  unfold verify
  rw [hlayout, firstRepeat?_eq_none hnodup fun _ _ => not_mem_nil,
    chainEndCount_eq_one hlayout hne hnext, hhead, hlast]
  rw [hlayout] at hnever
  simp only [hnever, forM_ok hcheck]
  rfl

end Graph

/-! ## Every builder has a place -/

namespace Forest

/-- The entry of the method belongs to the body. -/
theorem entry_owned (hf : Forest P n loose) {r : Builder} (hr : P Method.root = some r) :
    Graph.entry ∈ r.owned := by grind [hf.root, hf.opening_owned]

/-- The layout begins with the entry of the method. -/
theorem head_layout (hf : Forest P n loose)
    (h : List.Forall₂ (Flat P) (Method.root :: ts) flats) (xs : List BlockId) :
    (flats.flatten ++ xs).head? = some Graph.entry := by
  cases h with
  | cons hflat _ =>
    obtain ⟨r, hr, hentry, -⟩ := hf.root
    obtain ⟨d, ys, hd, hys, rfl⟩ := hflat
    cases hr.symm.trans hd
    obtain ⟨rest, hseq⟩ := hf.opens hr
    rw [hseq, hentry] at hys
    cases hys with
    | block _ h => rfl

/-- A builder that hangs from no circle hangs from a builder that is contained in none. -/
theorem exists_top (hsize : ∀ a d, P a = some d → a < size)
    (hd : P b = some d) (htree : ∀ a, Under P a b → ¬ Circular P a) :
    ∃ t, (∃ e, P t = some e) ∧ (∀ a, ¬ Holds P a t) ∧ Under P t b := by
  -- going up ends, since there are finitely many builders
  let above : Fin size → Fin size → Prop := fun a c =>
    Relation.TransGen (Holds P) a c ∧ Under P c b
  have htrans : IsTrans (Fin size) above := ⟨fun _ _ _ h h' => ⟨h.1.trans h'.1, h'.2⟩⟩
  have hirrefl : Std.Irrefl above := ⟨fun a h => htree a h.2 h.1⟩
  have hwf : WellFounded above := Finite.wellFounded_of_trans_of_irrefl above
  have hclimb : ∀ c : Fin size, ∀ d, P c = some d → Under P c b →
      ∃ t, (∃ e, P t = some e) ∧ (∀ a, ¬ Holds P a t) ∧ Under P t b := by
    intro c
    induction c using hwf.induction with
    | _ c ih =>
      intro d hd hcb
      by_cases hheld : ∃ a, Holds P a c
      · obtain ⟨a, e, he, hc⟩ := hheld
        have hac : Holds P a c := ⟨e, he, hc⟩
        exact ih ⟨a, hsize a e he⟩ ⟨.single hac, hcb⟩ e he (hcb.head hac)
      · exact ⟨c, ⟨d, hd⟩, fun a ha => hheld ⟨a, ha⟩, hcb⟩
  exact hclimb ⟨b, hsize b d hd⟩ d hd .refl

end Forest

/-- What hangs from a builder is written out with it. -/
theorem Writes.under {xs : List BlockId} (hd : P t = some d) (hxs : Writes P d.sequence xs)
    (hb : Under P t b) (he : P b = some e) : (∀ x, .block x ∈ e.sequence → x ∈ xs)
    ∧ (b = t ∨ e.exit ∈ xs) := by
  have hwritten : ∃ e ys, P b = some e ∧ Writes P e.sequence ys ∧ (∀ x ∈ ys, x ∈ xs) ∧
      (b = t ∨ e.exit ∈ xs) := by
    clear he
    induction hb with
    | refl => exact ⟨d, xs, hd, hxs, fun _ h => h, .inl rfl⟩
    | tail _ hbc ih =>
      obtain ⟨f, ys, hf, hys, hsub, -⟩ := ih
      obtain ⟨f', hf', hc⟩ := hbc
      cases hf.symm.trans hf'
      obtain ⟨e, zs, he, hzs, hexit, hsub'⟩ := hys.mem_of_builder (mem_children.1 hc)
      exact ⟨e, zs, he, hzs, fun x hx => hsub x (hsub' x hx), .inr (hsub _ hexit)⟩
  obtain ⟨e', ys, he', hys, hsub, hexit⟩ := hwritten
  cases he.symm.trans he'
  exact ⟨fun x hx => hsub x (hys.mem_of_block hx), hexit⟩

/-- The blocks of a builder that hangs from no circle are written out with the builder it hangs
    from. -/
theorem Forest.mem_flats (hsize : ∀ a d, P a = some d → a < size)
    (htops : ∀ t d, P t = some d → (∀ a, ¬ Holds P a t) → t ∈ tops)
    (hflats : List.Forall₂ (Flat P) tops flats) (hd : P b = some d)
    (htree : ∀ a, Under P a b → ¬ Circular P a) : (∀ z, .block z ∈ d.sequence → z ∈ flats.flatten) ∧
      (b = Method.root ∨ d.exit ∈ flats.flatten) := by
  obtain ⟨t, ⟨e, he⟩, htop, hunder⟩ := Forest.exists_top hsize hd htree
  obtain ⟨xs, hxs, hflat⟩ := forall₂_mem hflats (htops t e he htop)
  obtain ⟨e', ys, he', hys, rfl⟩ := hflat
  cases he.symm.trans he'
  obtain ⟨hblocks, hexit⟩ := Writes.under he hys hunder hd
  have hsub : ∀ z ∈ ys, z ∈ flats.flatten := by grind [mem_flatten]
  refine ⟨fun z hz => hsub z (hblocks z hz), ?_⟩
  rcases hexit with rfl | hexit
  · grind [mem_flatten]
  · exact .inr (hsub _ hexit)

/-! ## Control falls along what is written out -/

namespace Writes

variable {es : List Entry} {xs : List BlockId}

theorem eq_nil (h : Writes P es xs) (hxs : xs = []) : es = [] := by
  cases h with
  | nil => rfl
  | block => cases hxs
  | builder => exact absurd hxs (by simp)

/-- What is written out begins where the first entry begins. -/
theorem begins (hf : Forest P n loose) (hplans : Plans P m) (h : Writes P es xs)
    (hx : xs.head? = some x) : ∃ e, es.head? = some e ∧ m.Begins e x := by
  cases h with
  | nil => cases hx
  | block y h =>
    cases hx
    exact ⟨_, rfl, rfl⟩
  | @builder es ys xs c e hc hy h =>
    refine ⟨_, rfl, ?_⟩
    obtain ⟨rest, hseq⟩ := hf.opens hc
    rw [hseq] at hy
    obtain ⟨e', he', -, -, hentry⟩ := hplans c e hc
    cases hy with
    | block _ h =>
      cases hx
      exact ⟨e', he', hentry⟩

/-- What is written out ends where the last entry ends. -/
theorem ends (hplans : Plans P m) (h : Writes P es xs)
    (hx : xs.getLast? = some x) : ∃ e, es.getLast? = some e ∧ m.Ends e x := by
  -- one more entry in front makes no difference unless it is the only one
  have hcons : ∀ {e : Entry} {es : List Entry} {x y : BlockId} {xs : List BlockId},
      Writes P es xs → m.Ends e y →
      (∀ {x}, xs.getLast? = some x → ∃ e, es.getLast? = some e ∧ m.Ends e x) →
      (y :: xs).getLast? = some x → ∃ e', (e :: es).getLast? = some e' ∧ m.Ends e' x := by
    intro e es x y xs hw he ih hx
    rw [getLast?_cons] at hx
    cases hlast : xs.getLast? with
    | none => grind [getLast?_eq_none_iff, hw.eq_nil]
    | some z => grind
  induction h generalizing x with
  | nil => cases hx
  | block y h ih => exact hcons h rfl (fun hz => ih hz) hx
  | @builder es ys xs c e hc hy h _ ih =>
    obtain ⟨e', he', -, hexit, -⟩ := hplans c e hc
    rw [getLast?_append_of_ne_nil _ (cons_ne_nil _ _)] at hx
    exact hcons h ⟨e', he', hexit⟩ (fun hz => ih hz) hx

/-- Control falls along what is written out, if it falls along each sequence and from the end of
    each builder to its exit. -/
theorem follows (hf : Forest P n loose) (hplans : Plans P m) (h : Writes P es xs)
    (hes : es.IsChain m.Leads) (hparts : ∀ c k d, .builder c ∈ es → Under P c k → P k = some d →
      d.sequence.IsChain m.Leads ∧ ∀ ys last, Writes P d.sequence ys → ys.getLast? = some last →
        m.graph.Follows last d.exit) : xs.IsChain m.graph.Follows := by
  -- from the end of an entry into what comes next
  have hnext : ∀ {e : Entry} {es : List Entry} {x : BlockId} {xs : List BlockId},
      (e :: es).IsChain m.Leads → m.Ends e x → Writes P es xs → xs.IsChain m.graph.Follows →
      (x :: xs).IsChain m.graph.Follows := by
    intro e es x xs hes hx hw hxs
    refine hxs.cons fun y hy => ?_
    obtain ⟨e', he', hbegin⟩ := hw.begins hf hplans hy
    have hlead := (isChain_cons.1 hes).1 e' he'
    exact fun blk hblk hthrough _ => hlead x y hx hbegin blk hblk hthrough
  induction h with
  | nil => exact .nil
  | block y h ih =>
    refine hnext hes rfl h (ih (isChain_cons.1 hes).2 fun c k d hc => ?_)
    exact hparts c k d (mem_cons_of_mem _ hc)
  | @builder es ys xs c e hc hy h ih1 ih2 =>
    obtain ⟨hseq, hend⟩ := hparts c c e mem_cons_self .refl hc
    obtain ⟨e', he', -, hexit, -⟩ := hplans c e hc
    have hys : ys.IsChain m.graph.Follows := ih1 hseq fun c' k d hc' hk => by
      exact hparts c k d mem_cons_self (.head ⟨e, hc, mem_children.2 hc'⟩ hk)
    have hxs : xs.IsChain m.graph.Follows := ih2 (isChain_cons.1 hes).2 fun c' k d hc' =>
      hparts c' k d (mem_cons_of_mem _ hc')
    refine hys.append (hnext hes ⟨e', he', hexit⟩ h hxs) fun x hx y hexit => ?_
    cases hexit
    exact hend ys x hy hx

end Writes

/-! ## Control falls along the layout -/

/-- What connecting finds out about builders makes no difference to the wiring. -/
theorem Draft.Wired.alike (h : Draft.Wired ⟨m, [], []⟩) (ha : m.Alike m')
    (hg : m'.graph = m.graph) : Draft.Wired ⟨m', [], []⟩ := by
  have hblock : ∀ {x blk}, m'.block? x = some blk → m.block? x = some blk :=
    fun hx => (block?_congr hg _).symm.trans hx
  have hjoins : m.Joins m' := (Method.Joins.refl m).congr ha hg
  refine ⟨fun hx => h.early (hblock hx), fun hx => h.targets (hblock hx),
    fun hx => h.throws (hblock hx), fun hx y hy => ?_, fun hx y hy => ?_,
    fun hb hx => ?_, fun hb => ?_, fun hb => ?_⟩
  · have hlands := @h.lands
    have hbuilder := @ha.builder?
    grind [sequence_eq_of_frame, Draft.Lands]
  · grind [block?_congr, h.recorded]
  · grind [exit_eq_of_frame, ha.symm.builder?, h.exits]
  · obtain ⟨d, hd, hframe⟩ := ha.symm.builder? hb
    rw [← sequence_eq_of_frame hframe]
    exact (h.chain hd).imp fun _ _ => hjoins.leads
  · obtain ⟨d, hd, hframe⟩ := ha.symm.builder? hb
    rw [← sequence_eq_of_frame hframe, ← tail_eq_of_frame hframe]
    obtain ⟨e, he, hend⟩ := h.last hd
    refine ⟨e, he, ?_⟩
    cases htail : d.tail with
    | current x =>
      rw [htail] at hend
      exact ⟨hend.1, fun blk hblk => hend.2 blk (hblock hblk)⟩
    | owed x =>
      rw [htail] at hend
      exact ha.symm.ends hend
    | closed =>
      rw [htail] at hend
      exact fun x blk hx hblk => hend x blk (ha.ends hx) (hblock hblk)

namespace Bridged

variable {m0 : Method} {done left : List BuilderId} {d : Builder} {xs : List BlockId}
  {last : BlockId}

/-- From the last block of a builder that is closed control does not fall. -/
theorem shut (hplans : Plans P m0) (hw : Draft.Wired ⟨m0, [], []⟩) (h : Bridged P m0 done left m)
    (hd : P b = some d) (hxs : Writes P d.sequence xs) (hlast : xs.getLast? = some last)
    (he : m.builder? b = some e) (hout : e.fallsOut = false)
    (hblk : m.block? last = some blk) : blk.fallsThrough = false := by
  obtain ⟨entry, hentry, hends⟩ := hxs.ends (hplans.alike h.joins.alike) hlast
  obtain ⟨e0, he0, hframe⟩ := h.joins.alike.symm.builder? he
  obtain ⟨d0, hd0, hseq, -⟩ := hplans b d hd
  cases he0.symm.trans hd0
  obtain ⟨entry', hentry', hclose⟩ := hw.last he0
  rw [hseq] at hentry'
  cases hentry.symm.trans hentry'
  obtain ⟨old, hold, -, hops⟩ := h.joins.blocks hblk
  have htail : e0.tail = .closed := by
    unfold fallsOut at hout
    rw [← tail_eq_of_frame hframe] at hout
    cases ht : e0.tail with
    | closed => rfl
    | current x | owed x =>
      rw [ht] at hout
      cases hout
  rw [htail] at hclose
  rcases hops with hops | hops
  · rw [Block.fallsThrough_congr hops]
    exact hclose last old (h.joins.alike.ends hends) hold
  · exact hops

variable (hf : Forest P m0.graph.blocks.size loose) (hplans : Plans P m0)

include hf hplans

/-- Control falls from the last block of a connected builder to its exit. -/
theorem follows_exit (hw : Draft.Wired ⟨m0, [], []⟩) (h : Bridged P m0 done left m) (hb : b ∈ done)
    (hd : P b = some d) (hxs : Writes P d.sequence xs) (hlast : xs.getLast? = some last) :
    m.graph.Follows last d.exit := by
  intro blk hblk hthrough hreach
  obtain ⟨e, he, ⟨-, blk', hblk', hedge⟩ | ⟨-, hout | hnot⟩⟩ := h.outcome b hb d xs last hd hxs hlast
  · cases hblk.symm.trans hblk'
    exact hedge
  · rw [h.shut hplans hw hd hxs hlast he hout hblk] at hthrough
    cases hthrough
  · refine absurd (hreach.entered h.recorded (fun hmem => ?_) (mem_of_getLast? hlast)) hnot
    -- the entry of the method is written out in the body only
    obtain ⟨r, hr, hentry, -⟩ := hf.root
    have howned := hf.entry_owned hr
    rcases Forest.writes_mem hd hxs hmem with hmem | ⟨k, f, hk, hf', hmem⟩
    · grind [Builder.owned, hf.owner]
    · grind [Holds, hf.owner, hf.child]

variable (hback : ∀ b e, m0.builder? b = some e → ∃ d, P b = some d)

include hback in
/-- Control does not fall from the exit of a builder that was sent to the exit of the method, or it
    does not get there. -/
theorem follows_sent (h : Bridged P m0 done left m) (hb : b ∈ left) (hroot : b ≠ Method.root)
    (hd : P b = some d) (hxs : Writes P d.sequence xs) (y : BlockId)
    : m.graph.Follows d.exit y := by
  intro blk hblk hthrough hreach
  obtain ⟨last, hlast⟩ := hf.exists_last hd hxs
  obtain ⟨e, he, hout⟩ := h.outcome b (h.sub b hb) d xs last hd hxs hlast
  obtain ⟨e', he', -, hexit, -⟩ := hplans.alike h.joins.alike b d hd
  cases he.symm.trans he'
  have hmine : d.exit ∈ d.owned := mem_cons_self
  rcases hout with ⟨hback, -⟩ | ⟨hback', -⟩
  · rw [h.sent b hb e blk he hback (hexit ▸ hblk)] at hthrough
    cases hthrough
  · -- nothing leads to the exit
    obtain ⟨r, hr, -, hrexit⟩ := hf.root
    rcases hreach.eq_entry_or with hentry | ⟨x, hx⟩
    · exact absurd (hf.owner hd hr hmine (hentry ▸ hf.entry_owned hr)) hroot
    · rcases h.lands x d.exit hx with (hnone | ⟨c, f, hc, hmem⟩ | hexit') | ⟨c, -, f, hc, hcexit, hcback⟩
      · exact absurd hnone not_mem_nil
      · obtain ⟨f', hf'⟩ := hback c f hc
        obtain ⟨f1, hf1, hseq, -⟩ := hplans c f' hf'
        cases hc.symm.trans hf1
        rw [hseq] at hmem
        have hhere := mem_blocksHere.2 hmem
        have hsame := hf.owner hd hf' hmine (mem_cons_of_mem _ hhere)
        subst hsame
        cases hd.symm.trans hf'
        exact absurd hhere (nodup_cons.1 (hf.nodup hd)).1
      · grind [Builder.owned, hf.owner]
      · obtain ⟨f0, hf0, hframe⟩ := h.joins.alike.symm.builder? hc
        obtain ⟨f', hf'⟩ := hback c f0 hf0
        obtain ⟨f1, hf1, -, hexit1, -⟩ := hplans.alike h.joins.alike c f' hf'
        cases hc.symm.trans hf1
        have hsame := hf.owner hd hf' hmine
          (by rw [← hcexit, hexit1]; exact mem_cons_self)
        subst hsame
        cases he.symm.trans hc
        rw [hback'] at hcback
        cases hcback

include hback in
/-- Everything that an edge leads to has a place. -/
theorem placed (hsize : ∀ a d, P a = some d → a < size) (htree : ∀ a, ¬ Circular P a)
    (h : Bridged P m0 done left m) (htops : ∀ t d, P t = some d → (∀ a, ¬ Holds P a t) → t ∈ tops)
    (hflats : List.Forall₂ (Flat P) tops flats) (hxy : y ∈ m.graph.succsOf x) :
    y ∈ flats.flatten ++ [Graph.exit] := by
  have hwritten : ∀ {c f}, P c = some f → (∀ z, .block z ∈ f.sequence → z ∈ flats.flatten) ∧
      (c = root ∨ f.exit ∈ flats.flatten) :=
    fun hc => Forest.mem_flats hsize htops hflats hc fun a _ => htree a
  rcases h.lands x y hxy with (hnone | ⟨c, f, hc, hmem⟩ | hexit) | ⟨c, -, f, hc, hexit, -⟩
  · exact absurd hnone not_mem_nil
  · grind [Plans]
  · rw [hexit]
    exact mem_append_right _ mem_cons_self
  · have hbuilder := @h.joins.alike.symm.builder?
    have halike := @hplans.alike
    have halike' := @h.joins.alike
    have hroot := @hf.root
    grind [Plans]

/-- Control falls along a builder that is written out. -/
theorem follows_written (hw : Draft.Wired ⟨m0, [], []⟩) (h : Bridged P m0 done left m)
    (hb : ∀ k, Under P b k → k ∈ done) (hd : P b = some d) (hxs : Writes P d.sequence xs) :
    xs.IsChain m.graph.Follows := by
  have hchain : ∀ {k e}, P k = some e → e.sequence.IsChain m.Leads := by
    intro k e he
    obtain ⟨e0, he0, hseq, -⟩ := hplans k e he
    rw [← hseq]
    exact (hw.chain he0).imp fun _ _ => h.joins.leads
  refine hxs.follows hf (hplans.alike h.joins.alike) (hchain hd) fun c k e hc hk he => ?_
  refine ⟨hchain he, fun ys last hys hlast => ?_⟩
  have hdone := hb k (.head ⟨d, hd, mem_children.2 hc⟩ hk)
  exact h.follows_exit hf hplans hw hdone he hys hlast

include hback in
/-- Control falls along the builders that nothing contains, one after the other. -/
theorem follows_tops (hw : Draft.Wired ⟨m0, [], []⟩) (h : Bridged P m0 done left m)
    (hflats : List.Forall₂ (Flat P) ts flats)
    (hts : ∀ t ∈ ts, t ≠ Method.root ∧ t ∈ left ∧ ∀ k, Under P t k → k ∈ done) :
    (flats.flatten ++ [Graph.exit]).IsChain m.graph.Follows := by
  induction hflats with
  | nil => exact .singleton _
  | @cons t xs ts flats hflat _ ih =>
    obtain ⟨hroot, hleft, hdone⟩ := hts t mem_cons_self
    obtain ⟨d, ys, hd, hys, rfl⟩ := hflat
    have hrest := ih fun t' ht' => hts t' (mem_cons_of_mem _ ht')
    rw [if_neg hroot, flatten_cons, append_assoc, append_assoc]
    refine (h.follows_written hf hplans hw hdone hd hys).append (hrest.cons fun y _ => ?_)
      fun x hx y hy => ?_
    · exact h.follows_sent hf hplans hback hleft hroot hd hys y
    · cases hy
      exact h.follows_exit hf hplans hw (hdone t .refl) hd hys hx

include hback in
/-- Control falls along the layout. -/
theorem follows_layout (hw : Draft.Wired ⟨m0, [], []⟩) (h : Bridged P m0 done left m)
    (hflats : List.Forall₂ (Flat P) (Method.root :: ts) flats)
    (hbody : ∀ k, Under P Method.root k → k ∈ done)
    (hts : ∀ t ∈ ts, t ≠ Method.root ∧ t ∈ left ∧ ∀ k, Under P t k → k ∈ done)
    (hends : ts ≠ [] → ∀ e, m0.builder? Method.root = some e → e.fallsOut = false) :
    (flats.flatten ++ [Graph.exit]).IsChain m.graph.Follows := by
  cases hflats with
  | @cons _ xs _ flats hflat hrest =>
    obtain ⟨d, ys, hd, hys, rfl⟩ := hflat
    rw [flatten_cons, append_assoc]
    refine (h.follows_written hf hplans hw hbody hd hys).append
      (h.follows_tops hf hplans hback hw hrest hts) fun x hx y hy => ?_
    cases hrest with
    | nil =>
      have hroot := @hf.root
      have hfollows_exit := @h.follows_exit
      grind
    | cons =>
      intro blk hblk hthrough
      obtain ⟨e0, he0, -⟩ := hplans _ d hd
      obtain ⟨e, he, hframe⟩ := h.joins.alike.builder? he0
      have hout : e.fallsOut = false := by grind [fallsOut, tail_eq_of_frame]
      rw [h.shut hplans hw hd hys hx he hout hblk] at hthrough
      cases hthrough

end Bridged

/-! ## Connected methods -/

/-- The calls that take back no end of a sequence. -/
def License.orderly : License := ⟨true, true, false, true⟩

theorem Method.wired_after {name : String} {config : Config} {calls : List Call}
    (h : (Method.new name config).after calls = .ok m) (hcalls : ∀ c ∈ calls, c.forgets = false) :
    Draft.Wired ⟨m, [], []⟩ := by
  have hbuilds : Builds .orderly ⟨new name config, [], []⟩ ⟨m, [], []⟩ :=
    after_builds h rfl rfl (fun _ _ _ => rfl) fun c hc hforgets => by
      rw [hcalls c hc] at hforgets
      cases hforgets
  exact hbuilds.wired rfl (Forest.new name config) (.new name config) (.new name config)

/-- The end of the body makes no difference to what contains what. -/
theorem Method.Extended.holds {m1 : Method} (h : m.Extended Method.root m1) {a c : BuilderId}
    (hac : Holds m1.plan? a c) : Holds m.builder? a c := by
  obtain ⟨d, hd, hc⟩ := hac
  obtain ⟨e, he, rfl⟩ := builder?_of_plan? hd
  by_cases ha : a = root
  · subst ha
    have hlt : root < m.builders.size := h.builders ▸ lt_of_builder? he
    obtain ⟨e0, he0⟩ := exists_builder? hlt
    obtain ⟨e', he', -, -, -, hseq⟩ := h.this e0 he0
    cases he.symm.trans he'
    refine ⟨e0, he0, mem_children.2 ?_⟩
    have hmem : .builder c ∈ e.sequence := mem_children.1 hc
    rcases hseq with hseq | ⟨x, -, hseq⟩
    · exact hseq ▸ hmem
    · grind
  · exact ⟨e, (h.others a ha).symm.trans he, hc⟩

theorem Prepared.back (h : Prepared m m₁ m₂) (b : BuilderId) (e : Builder)
    (he : m₂.builder? b = some e) : ∃ d, m₁.plan? b = some d := by
  obtain ⟨d, hd, -⟩ := h.alike.symm.builder? he
  exact ⟨_, plan?_of_builder? hd⟩

/-- Whatever is contained in none is the body or was found to be part of no sequence. -/
theorem Prepared.mem_tops (hs : Draft.Sound ⟨m, [], []⟩) (h : Prepared m m₁ m₂) {d : Builder}
    (hd : m₁.plan? t = some d) (htop : ∀ a, ¬ Holds m₁.plan? a t) :
    t ∈ Method.root :: m.detached := by
  refine mem_cons.2 (or_iff_not_imp_left.2 fun hroot => ?_)
  obtain ⟨e, he, rfl⟩ := builder?_of_plan? hd
  refine mem_detached.2 ⟨hroot, e, (h.extended.others t hroot).symm.trans he, ?_⟩
  cases hp : e.placed with
  | false => rfl
  | true =>
    obtain ⟨a, f, ha, hc⟩ := (h.forest hs).placed hd hp
    exact absurd ⟨f, ha, hc⟩ (htop a)

/-- Where the blocks are wired up, control falls along the layout of the connected builders. -/
theorem Draft.Wired.connectBuilders (hw : Draft.Wired ⟨m, [], []⟩)
    (hs : Draft.Sound ⟨m, [], []⟩) : ∃ m₁ m₂ flats m₃, Prepared m m₁ m₂ ∧
      Emit.connectBuilders.run m = .ok (flats.flatten ++ [Graph.exit], m₃) ∧
      List.Forall₂ (Flat m₁.plan?) (Method.root :: m.detached) flats ∧
      Bridged m₁.plan? m₂ ((Method.root :: m.detached).flatMap (nested m₁.plan? m.builders.size))
        m.detached m₃ ∧ (flats.flatten ++ [Graph.exit]).IsChain m₃.graph.Follows := by
  obtain ⟨m₁, m₂, hprep, hkeeps⟩ := Emit.connectBuilders_keeps hs
  have hf := hprep.forest hs
  have hplans := hprep.plans
  have hw₂ : Draft.Wired ⟨m₂, [], []⟩ :=
    ((hprep.builds .orderly).wired rfl hs.forest hs.bare hw).alike hprep.alike hprep.graph
  obtain ⟨flats, m₃, hrun, hflats, hbridged⟩ := hkeeps
    (fun done left m' => Bridged m₁.plan? m₂ done left m') (fun hI => hI.joined)
    (fun hI hd hparts hnew _ => hI.step hf hplans hd hparts hnew)
    (fun {done left m' t e} hI ht hdone hleft he => by
      obtain ⟨d, hd⟩ := (hprep.extended.tops hf t (mem_cons_of_mem _ ht)).2
      exact hI.leave hf hplans hd hdone hleft he)
    (.start hw₂ fun b d hd => by
      obtain ⟨e, he, -, hexit, -⟩ := hplans b d hd
      exact ⟨e, he, hexit⟩)
  refine ⟨m₁, m₂, flats, m₃, hprep, hrun, hflats, hbridged, ?_⟩
  refine hbridged.follows_layout hf hplans hprep.back hw₂ hflats
    (fun k hk => hprep.mem_nested hs mem_cons_self hk)
    (fun t ht => ⟨(mem_detached.1 ht).1, ht, fun k hk =>
      hprep.mem_nested hs (mem_cons_of_mem _ ht) hk⟩) fun hne e he => ?_
  obtain ⟨e₁, he₁, hframe⟩ := hprep.alike.symm.builder? he
  unfold fallsOut
  rw [← tail_eq_of_frame hframe]
  exact hprep.ends hne e₁ he₁

/-- A method that a caller has built in any way, short of appending a builder underneath itself and
    of appending handlers by hand, passes verification when it is connected. -/
theorem connect_verifies {name : String} {config : Config} {calls : List Call}
    (h : (Method.new name config).after calls = .ok m)
    (hcalls : ∀ c ∈ calls, c.forgets = false) (htree : ∀ b, ¬ Circular m.builder? b) :
    ∃ r m', Build.connect.run.run m = .ok (r, m') ∧ m'.graph.verify = .ok () := by
  have hs : Draft.Sound ⟨m, [], []⟩ := Method.Reachable.sound ⟨name, config, calls, h⟩
  obtain ⟨m₁, m₂, flats, m₃, hprep, hrun, hflats, hbridged, hchain⟩ :=
    (Method.wired_after h hcalls).connectBuilders hs
  have hf := hprep.forest hs
  have htree₁ : ∀ a, ¬ Circular m₁.plan? a := fun a ha =>
    htree a (ha.lift id fun _ _ hac => hprep.extended.holds hac)
  obtain ⟨hlayout, hbound⟩ := hprep.layout hs hflats
  rw [← hbridged.joined.size] at hbound
  obtain ⟨g, hset, -, hverify⟩ := Graph.verify_setLayout (g := m₃.graph)
    (hf.head_layout hflats _) List.getLast?_concat hlayout hbound
    (fun x _ y hy => hbridged.placed hf hprep.plans hprep.back (fun _ _ => hprep.lt_size) htree₁
      (fun _ _ => hprep.mem_tops hs) hflats hy)
    hbridged.proper.early hbridged.proper.targets hbridged.proper.throws hchain
  obtain ⟨r, w, hconnect, -⟩ := Build.connect_run hs.idle.method hrun hset
  exact ⟨r, _, hconnect, hverify⟩

/-- If builders contain only builders that were made after them, none hangs from itself. -/
theorem Method.not_circular_of_later (h : (m.builders.entries.all fun (a, d) =>
    d.children.all fun c => a < c) = true) (b : BuilderId) : ¬ Circular m.builder? b := by
  have hlater : ∀ a c, Holds m.builder? a c → a < c := by
    rintro a c ⟨d, hd, hc⟩
    have hall := all_eq_true.1 h (a, d) (Arena.mem_entries.2 hd)
    exact of_decide_eq_true (all_eq_true.1 hall c hc)
  have hlt : ∀ {c}, Relation.TransGen (Holds m.builder?) b c → b < c := by
    intro c hc
    induction hc with
    | single hbc => exact hlater _ _ hbc
    | tail _ hcd ih => exact ih.trans (hlater _ _ hcd)
  exact fun hb => Nat.lt_irrefl b (hlt hb)

/-- A case of it: a checked addition with its handler, a branch, a loop and a builder that is part
    of no sequence. -/
theorem connect_verifies_branches :
    ∃ m r m', (Method.new "f" {}).after [.defineReturnType .int32, .constInt 0 .int32 1,
        .checked 0 .add none 0 0, .ifThenElse 0 (some none) (some none) 1,
        .doWhile 0 "again" none, .returnValue 0 1, .orphan] = .ok m ∧
      Build.connect.run.run m = .ok (r, m') ∧ m'.graph.verify = .ok () := by
  have hcheck : passes ((Method.new "f" {}).after [.defineReturnType .int32,
        .constInt 0 .int32 1, .checked 0 .add none 0 0, .ifThenElse 0 (some none) (some none) 1,
        .doWhile 0 "again" none, .returnValue 0 1, .orphan])
      (·.builders.entries.all fun (a, d) => d.children.all fun c => a < c) = true := by
    decide +kernel
  obtain ⟨m, h, hcheck⟩ := of_passes hcheck
  obtain ⟨r, m', hrun, hverify⟩ :=
    connect_verifies h (by simp [Call.forgets]) (Method.not_circular_of_later hcheck)
  exact ⟨m, r, m', h, hrun, hverify⟩

end MethodGraph
