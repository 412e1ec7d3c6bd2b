import MethodGraph.Proofs.Requests
import MethodGraph.Proofs.Verified
/-!
  Builders that contain each other.

  Whatever a caller asks for, and also once the method is connected, no builder is part of two
  sequences or twice of one, and the body is part of none (`Method.Nested`).  That alone does not
  make the builders a forest: a builder may be appended to another that hangs from it.

  Main statement: this is the only way to get a circle, and what hangs from a circle is exactly what
  has no place in the layout (`Method.serve_forest_iff`).
-/

namespace MethodGraph

open Method List Builder

variable {d e : Builder} {a x : BuilderId} {s t : Draft} {loose : List BlockId} {n : Nat} {u : Unit}

variable {l : License} {m m' : Method} {b c : BuilderId}

/-! ## Sequences taken together -/

/-- The builders in all sequences taken together. -/
def Method.contents (m : Method) : List BuilderId := m.builders.toList.flatMap Builder.children

/-- No builder is part of two sequences or twice of one, and the body is part of none.  What is part
    of a sequence is marked so, and cannot be appended again. -/
structure Method.Nested (m : Method) : Prop where
  child : ∀ {b d c}, m.builder? b = some d → c ∈ d.children →
    c ≠ Method.root ∧ ∃ e, m.builder? c = some e ∧ e.placed = true
  once : ∀ {b d}, m.builder? b = some d → d.children.Nodup
  parent : ∀ {a b c d e}, m.builder? a = some d → m.builder? b = some e → c ∈ d.children →
    c ∈ e.children → a = b

/-- The sequences have the same builders as before, and those of new builders have none. -/
def Method.SameContents (m m' : Method) : Prop :=
  ∀ b e, m'.builder? b = some e →
    e.children = [] ∨ ∃ d, m.builder? b = some d ∧ e.children = d.children

/-- A builder that was part of no sequence has become part of one. -/
structure Method.Puts (m m' : Method) (b c : BuilderId) : Prop where
  notRoot : c ≠ Method.root
  free : ∃ e, m.builder? c = some e ∧ e.placed = false
  placed : ∃ e, m'.builder? c = some e ∧ e.placed = true
  here : ∃ d e, m.builder? b = some d ∧ m'.builder? b = some e ∧ e.children = d.children ++ [c]
  others : ∀ a e, a ≠ b → m'.builder? a = some e →
    ∃ d, m.builder? a = some d ∧ e.children = d.children

namespace Method

theorem SameContents.of_eq (h : ∀ b, m'.builder? b = m.builder? b) : m.SameContents m' :=
  fun b e he => .inr ⟨e, (h b).symm.trans he, rfl⟩

theorem SameContents.withBuilder {f : Builder → Builder}
    (hf : ∀ d, m.builder? b = some d → (f d).children = d.children) :
    m.SameContents (m.withBuilder b f) := by
  intro a e he
  rw [builder?_withBuilder] at he
  split at he
  · next hab =>
    subst hab
    obtain ⟨d, hd, rfl⟩ := Option.map_eq_some_iff.1 he
    exact .inr ⟨d, hd, hf d hd⟩
  · exact .inr ⟨e, he, rfl⟩

theorem SameContents.holds (h : m.SameContents m')
    (hax : Holds m'.builder? a x) : Holds m.builder? a x := by
  obtain ⟨e, he, hx⟩ := hax
  rcases h a e he with hnil | ⟨d, hd, hsame⟩
  · rw [hnil] at hx
    cases hx
  · exact ⟨d, hd, hsame ▸ hx⟩

theorem Puts.holds (h : m.Puts m' b c) (hax : Holds m'.builder? a x) :
    Holds m.builder? a x ∨ a = b ∧ x = c := by
  obtain ⟨e, he, hx⟩ := hax
  by_cases hab : a = b
  · subst hab
    obtain ⟨d, e', hd, he', hsame⟩ := h.here
    cases he.symm.trans he'
    rw [hsame] at hx
    rcases mem_append.1 hx with hx | hx
    · exact .inl ⟨d, hd, hx⟩
    · exact .inr ⟨rfl, mem_singleton.1 hx⟩
  · obtain ⟨d, hd, hsame⟩ := h.others a e hab he
    exact .inl ⟨d, hd, hsame ▸ hx⟩

/-- A builder that is part of no sequence is appended to one. -/
theorem Puts.nest (tail : Tail) (hb : m.builder? b = some d)
    (hc : m.builder? c = some e) (hne : c ≠ b) (hroot : c ≠ Method.root) (hfree : e.placed = false)
    (hm' : ∀ a, m'.builder? a = ((m.withBuilder c ({ · with placed := true })).withBuilder b
      (·.extend (.builder c) tail)).builder? a) : m.Puts m' b c := by
  simp only [builder?_withBuilder] at hm'
  refine ⟨hroot, ⟨e, hc, hfree⟩, ⟨{ e with placed := true }, ?_, rfl⟩,
    ⟨d, d.extend (.builder c) tail, hb, ?_, ?_⟩, fun a f ha hf => ?_⟩
  · rw [hm', if_neg (Ne.symm hne), if_pos rfl, hc]
    rfl
  · rw [hm', if_pos rfl, if_neg hne, hb]
    rfl
  · simp [children, extend, Entry.builder?]
  · rw [hm', if_neg (Ne.symm ha)] at hf
    split at hf
    · obtain ⟨f', hf', rfl⟩ := Option.map_eq_some_iff.1 hf
      exact ⟨f', hf', rfl⟩
    · exact ⟨f, hf, rfl⟩

theorem Puts.held (h : m.Puts m' b c) : Holds m'.builder? b c := by
  obtain ⟨d, e, -, he, hsame⟩ := h.here
  exact ⟨e, he, hsame ▸ mem_append_right _ mem_cons_self⟩

end Method

/-- A step of building leaves the contents of sequences alone, or it appends a builder. -/
theorem Step.contents (h : Step l s t) :
    s.method.SameContents t.method ∨ ∃ b c, s.method.Puts t.method b c := by
  cases h with
  | quiet h => exact .inl (.of_eq fun b => congrArg (Arena.get? · b) h.builders)
  | flag | newBlock | edge | push | handle => exact .inl (.of_eq fun _ => rfl)
  | tag b f hf =>
    refine .inl (.withBuilder fun d hd => ?_)
    unfold children
    rw [(hf d hd).1.sequence]
  | newBuilder r =>
    refine .inl fun b e he => ?_
    rw [builder?_addBuilder] at he
    split at he
    · cases he
      exact .inl rfl
    · exact .inr ⟨e, he, rfl⟩
  | place x hb =>
    refine .inl (.withBuilder fun d _ => ?_)
    simp [children, extend, Entry.builder?]
  | @nest m loose risky b c d e hb hc hne hroot hfree =>
    exact .inr ⟨b, c, .nest (.owed e.exit) hb hc hne hroot hfree fun _ => rfl⟩
  | close => exact .inl (.withBuilder fun _ _ => rfl)
  | split => exact .inl (.withBuilder fun _ _ => rfl)
  | forget => exact .inl (.withBuilder fun _ _ => rfl)

namespace Method.Nested

theorem of_forest (h : Forest m.plan? n loose) : m.Nested where
  child hd hc := by
    obtain ⟨hroot, e, he, hp⟩ := h.child (plan?_of_builder? hd) hc
    obtain ⟨e', he', rfl⟩ := builder?_of_plan? he
    exact ⟨hroot, e', he', hp⟩
  once {b d} hd := (h.once (plan?_of_builder? hd) : d.plan.children.Nodup)
  parent hd he hc hc' := h.parent (plan?_of_builder? hd) (plan?_of_builder? he) hc hc'

theorem same (h : m.Nested) (hstands : m.Stands m') (hsame : m.SameContents m') : m'.Nested where
  child he hc := by
    obtain ⟨d, hd, hc⟩ := hsame.holds ⟨_, he, hc⟩
    obtain ⟨hroot, f, hf, hp⟩ := h.child hd hc
    exact ⟨hroot, hstands.placed _ f hf hp⟩
  once he := by
    rcases hsame _ _ he with hnil | ⟨d, hd, hd'⟩
    · rw [hnil]
      exact nodup_nil
    · rw [hd']
      exact h.once hd
  parent ha hb hc hc' := by
    obtain ⟨d, hd, hc⟩ := hsame.holds ⟨_, ha, hc⟩
    obtain ⟨e, he, hc'⟩ := hsame.holds ⟨_, hb, hc'⟩
    exact h.parent hd he hc hc'

/-- What is marked as free is part of no sequence, so it may be appended to one. -/
theorem puts (h : m.Nested) (hstands : m.Stands m') (hputs : m.Puts m' b c) : m'.Nested := by
  have hfree : ∀ a, ¬ Holds m.builder? a c := by
    rintro a ⟨d, hd, hc⟩
    obtain ⟨-, e, he, hp⟩ := h.child hd hc
    obtain ⟨e', he', hp'⟩ := hputs.free
    cases he.symm.trans he'
    exact Bool.false_ne_true (hp'.symm.trans hp)
  refine ⟨fun {a e x} he hx => ?_, fun {a e} he => ?_, fun {a a' x d e} hd he hx hx' => ?_⟩
  · rcases hputs.holds ⟨e, he, hx⟩ with ⟨d, hd, hx⟩ | ⟨-, rfl⟩
    · obtain ⟨hroot, f, hf, hp⟩ := h.child hd hx
      exact ⟨hroot, hstands.placed _ f hf hp⟩
    · exact ⟨hputs.notRoot, hputs.placed⟩
  · by_cases hab : a = b
    · subst hab
      obtain ⟨d, e', hd, he', hsame⟩ := hputs.here
      cases he.symm.trans he'
      rw [hsame]
      refine (h.once hd).append (nodup_singleton c) fun x hx hxc => ?_
      rw [mem_singleton.1 hxc] at hx
      exact hfree a ⟨d, hd, hx⟩
    · obtain ⟨d, hd, hsame⟩ := hputs.others a e hab he
      rw [hsame]
      exact h.once hd
  · rcases hputs.holds ⟨d, hd, hx⟩ with hx | ⟨rfl, rfl⟩
    · rcases hputs.holds ⟨e, he, hx'⟩ with hx' | ⟨-, rfl⟩
      · obtain ⟨d0, hd0, hx⟩ := hx
        obtain ⟨e0, he0, hx'⟩ := hx'
        exact h.parent hd0 he0 hx hx'
      · exact absurd hx (hfree a)
    · rcases hputs.holds ⟨e, he, hx'⟩ with hx' | ⟨rfl, -⟩
      · exact absurd hx' (hfree a')
      · rfl

/-- Each builder occurs at most once in all sequences taken together, and the body in none. -/
theorem contents (h : m.Nested) : m.contents.Nodup ∧ Method.root ∉ m.contents := by
  have hget : ∀ {i : Nat} {hi : i < m.builders.toList.length},
      m.builder? i = some m.builders.toList[i] := by
    intro i hi
    show m.builders.items[i]? = some (m.builders.toList.get ⟨i, hi⟩)
    rw [← Array.getElem?_toList]
    exact getElem?_eq_getElem hi
  refine ⟨nodup_flatMap.2 ⟨fun d hd => ?_, ?_⟩, fun hroot => ?_⟩
  · obtain ⟨i, hi, rfl⟩ := getElem_of_mem hd
    exact h.once hget
  · refine pairwise_iff_getElem.2 fun i j hi hj hij x hx hx' => ?_
    exact hij.ne (h.parent hget hget hx hx')
  · obtain ⟨d, hd, hc⟩ := mem_flatMap.1 hroot
    obtain ⟨i, hi, rfl⟩ := getElem_of_mem hd
    exact (h.child hget hc).1 rfl

end Method.Nested

/-! ## Circles -/

/-- One more pair closes a circle only if there is a way back already. -/
theorem not_transGen_of_insert {R S : BuilderId → BuilderId → Prop}
    (hR : ∀ a, ¬ Relation.TransGen R a a) (hS : ∀ a x, S a x → R a x ∨ a = b ∧ x = c)
    (hno : ¬ Relation.ReflTransGen R c b) (a : BuilderId) : ¬ Relation.TransGen S a a := by
  have hpath : ∀ {x}, Relation.TransGen S a x → Relation.TransGen R a x ∨
      Relation.ReflTransGen R a b ∧ Relation.ReflTransGen R c x := by
    intro x hx
    induction hx with
    | single hax =>
      rcases hS _ _ hax with hax | ⟨rfl, rfl⟩
      · exact .inl (.single hax)
      · exact .inr ⟨.refl, .refl⟩
    | tail _ hxy ih =>
      rcases hS _ _ hxy with hxy | ⟨rfl, rfl⟩
      · exact ih.imp (·.tail hxy) fun h => ⟨h.1, h.2.tail hxy⟩
      · exact .inr ⟨ih.elim (·.to_reflTransGen) (·.1), .refl⟩
  intro ha
  rcases hpath ha with ha | ⟨hab, hca⟩
  · exact hR a ha
  · exact hno (hca.trans hab)

/-- What contains what only becomes more. -/
theorem Draft.Below.holds (h : s.Below l t)
    (hax : Holds s.method.builder? a x) : Holds t.method.builder? a x := by
  obtain ⟨d, hd, hx⟩ := hax
  obtain ⟨e, he, hde⟩ := h.builders a d hd
  exact ⟨e, he, mem_children.2 (hde.sequence.subset (mem_children.1 hx))⟩

namespace Emit

/-- Appending a builder adds it to one sequence. -/
theorem append_puts (h : (append b c).run m = .ok (u, m')) : m.Puts m' b c := by
  obtain ⟨d, e, hd, he, hne, hroot, hfree, -, hm'⟩ := append_eq_ok h
  refine .nest (.owed e.exit) hd he hne hroot hfree fun a => ?_
  -- edges and the marks of blocks are no part of builders
  have hholds : (m.holding b c d e).builder? a = ((m.withBuilder c ({ · with placed := true })
      ).withBuilder b (·.extend (.builder c) (.owed e.exit))).builder? a := by
    unfold holding
    cases d.tail.block? <;> rfl
  rcases hm' with ⟨-, rfl⟩ | ⟨-, rfl⟩ <;> exact hholds

end Emit

/-- A builder contains now what it hung from. -/
def Method.Entangles (m m' : Method) : Prop :=
  ∃ b c, Under m.builder? c b ∧ Holds m'.builder? b c

/-- There is no circle after a change, if there was none before, exactly if nothing was appended to
    what hangs from it. -/
theorem not_circular_iff (hmore : ∀ a x, Holds m.builder? a x → Holds m'.builder? a x)
    (hcontents : m.SameContents m' ∨ ∃ b c, m.Puts m' b c) (htree : ∀ a, ¬ Circular m.builder? a) :
    (∀ a, ¬ Circular m'.builder? a) ↔ ¬ m.Entangles m' := by
  constructor
  · rintro htree' ⟨b, c, hcb, hbc⟩
    exact htree' b (.head' hbc (hcb.lift id hmore))
  · intro hno
    rcases hcontents with hsame | ⟨b, c, hputs⟩
    · exact fun a ha => htree a (ha.lift id fun _ _ => hsame.holds)
    · exact not_transGen_of_insert htree (fun _ _ => hputs.holds)
        fun hcb => hno ⟨b, c, hcb, hputs.held⟩

/-- Appending a builder closes a circle exactly if it contains what it is appended to. -/
theorem Emit.append_not_circular_iff (h : (append b c).run m = .ok (u, m'))
    (htree : ∀ a, ¬ Circular m.builder? a) :
    (∀ a, ¬ Circular m'.builder? a) ↔ ¬ Under m.builder? c b := by
  have hputs := append_puts h
  have hbuilds : Builds .full ⟨m, [], []⟩ ⟨m', [], []⟩ := append_builds h
  rw [not_circular_iff (fun _ _ => hbuilds.below.holds) (.inr ⟨b, c, hputs⟩) htree]
  refine not_congr ⟨?_, fun hcb => ⟨b, c, hcb, hputs.held⟩⟩
  rintro ⟨b', c', hcb, hbc⟩
  rcases hputs.holds hbc with hbc | ⟨rfl, rfl⟩
  · exact absurd (.head' hbc hcb) (htree b')
  · exact hcb

/-! ## Connecting -/

/-- What hangs from a builder that is contained in none hangs from no circle. -/
theorem Forest.not_circular_above {P : BuilderId → Option Builder}
    (hf : Forest P n loose) {t : BuilderId} (ht : ∀ x, ¬ Holds P x t) (htb : Under P t b)
    (hab : Under P a b) : ¬ Circular P a := by
  rcases hf.under_total htb hab with hta | hat
  · exact hf.not_circular ht hta
  · rcases Relation.ReflTransGen.cases_tail hat with rfl | ⟨p, -, hpt⟩
    · exact hf.not_circular ht .refl
    · exact absurd hpt (ht p)

theorem Method.Extended.sameContents {m₁ : Method} (h : m.Extended Method.root m₁) :
    m.SameContents m₁ := by
  intro b e he
  by_cases hb : b = root
  · subst hb
    obtain ⟨d, hd⟩ := exists_builder? (h.builders ▸ lt_of_builder? he)
    obtain ⟨e', he', -, -, -, hseq⟩ := h.this d hd
    cases he.symm.trans he'
    refine .inr ⟨d, hd, ?_⟩
    unfold children
    rcases hseq with hseq | ⟨x, -, hseq⟩
    · rw [hseq]
    · simp [hseq, Entry.builder?]
  · exact .inr ⟨e, (h.others b hb).symm.trans he, rfl⟩

theorem Method.Alike.children (h : m.Alike m') (he : m'.builder? b = some e) :
    ∃ d, m.builder? b = some d ∧ e.children = d.children := by
  obtain ⟨d, hd, hframe⟩ := h.symm.builder? he
  refine ⟨d, hd, ?_⟩
  unfold Builder.children
  rw [sequence_eq_of_frame hframe]

namespace Prepared

variable {m₁ m2 : Method}

/-- What contains what is the same before and after. -/
theorem holds_eq (h : Prepared m m₁ m2) : Holds m₁.plan? = Holds m.builder? := by
  funext a x
  refine propext ⟨fun hax => h.extended.holds hax, fun hax => ?_⟩
  obtain ⟨d, hd, hx⟩ := (h.builds .full).below.holds hax
  exact ⟨d.plan, plan?_of_builder? hd, hx⟩

/-- A block is laid out exactly if its builder hangs from no circle. -/
theorem mem_layout_iff (hs : Draft.Sound ⟨m, [], []⟩) (h : Prepared m m₁ m2)
    {flats : List (List BlockId)}
    (hflats : List.Forall₂ (Flat m₁.plan?) (Method.root :: m.detached) flats)
    {x : BlockId} (hd : m₁.plan? b = some d) (hx : x ∈ d.owned) :
    x ∈ flats.flatten ++ [Graph.exit] ↔ ∀ a, Under m₁.plan? a b → ¬ Circular m₁.plan? a := by
  have hf := h.forest hs
  obtain ⟨root, hroot, -, hexit⟩ := hf.root
  constructor
  · intro hmem a hab
    obtain ⟨t, ht, htb⟩ : ∃ t ∈ Method.root :: m.detached, Under m₁.plan? t b := by
      rcases List.mem_append.1 hmem with hmem | hmem
      · obtain ⟨t, ht, k, f, hk, hf', hxf⟩ := Forest.flats_mem hflats hmem
        rw [hf.owner hd hf' hx hxf]
        exact ⟨t, ht, hk⟩
      · rw [List.mem_singleton.1 hmem] at hx
        rw [hf.owner hd hroot hx (hexit ▸ List.mem_cons_self)]
        exact ⟨Method.root, List.mem_cons_self, .refl⟩
    exact hf.not_circular_above (h.extended.tops hf t ht).1 htb hab
  · intro htree
    obtain ⟨hblocks, hend⟩ := Forest.mem_flats (fun _ _ => h.lt_size)
      (fun _ _ => h.mem_tops hs) hflats hd htree
    rcases List.mem_cons.1 hx with rfl | hhere
    · rcases hend with rfl | hend
      · cases hd.symm.trans hroot
        rw [hexit]
        exact List.mem_append_right _ List.mem_cons_self
      · exact List.mem_append_left _ hend
    · exact List.mem_append_left _ (hblocks x (Builder.mem_blocksHere.1 hhere))

end Prepared

/-- Connecting leaves the contents of sequences alone, and the blocks of a builder get a place
    exactly if it hangs from no circle. -/
theorem Method.Reachable.connect_outcome (h : m.Reachable) :
    ∃ r m', Build.connect.run.run m = .ok (r, m') ∧ m.SameContents m' ∧
      (∀ a x, Holds m.builder? a x → Holds m'.builder? a x) ∧
      ∀ b d x, m.builder? b = some d → x ∈ d.owned →
        (x ∈ m'.graph.layout ↔ ∀ a, Under m.builder? a b → ¬ Circular m.builder? a) := by
  have hs := h.sound
  obtain ⟨m₁, m2, hprep, hkeeps⟩ := Emit.connectBuilders_keeps hs
  have hf := hprep.forest hs
  obtain ⟨flats, m3, hrun, hflats, hjoined⟩ := hkeeps
    (fun done _ m' => Joined m₁.plan? m2 done m') id
    (fun hI hd hparts hnew _ => by
      obtain ⟨e, xs, -, -, -, -, -, hrun, hI'⟩ := hI.step hf hprep.plans hd hparts hnew
      exact ⟨_, hrun, hI'⟩)
    (fun hI _ _ _ _ => hI.leave _) (.start _ m2)
  obtain ⟨r, m', hconnect, harr⟩ := hprep.connect hs hrun hflats hjoined.size
  have halike : m₁.Alike m3 := hprep.alike.trans hjoined.alike
  refine ⟨r, m', hconnect, fun b e he => ?_, fun a x hax => ?_, fun b d x hd hx => ?_⟩
  · obtain ⟨d, hd, hchildren⟩ := halike.children ((harr.builders b).symm.trans he)
    rw [hchildren]
    exact hprep.extended.sameContents b d hd
  · obtain ⟨d, hd, hx⟩ := (hprep.builds .full).below.holds hax
    obtain ⟨e, he, hchildren⟩ := halike.symm.children hd
    exact ⟨e, (harr.builders a).trans he, hchildren ▸ hx⟩
  · obtain ⟨e, he, hbelow⟩ := (hprep.builds .full).below.builders b d hd
    have howned : x ∈ e.plan.owned := by
      rcases mem_cons.1 hx with rfl | hx
      · exact hbelow.exit ▸ mem_cons_self
      · exact mem_cons_of_mem _ (mem_blocksHere.2
          (hbelow.sequence.subset (mem_blocksHere.1 hx)))
    rw [harr.layout, hprep.mem_layout_iff hs hflats (plan?_of_builder? he) howned]
    unfold Under Circular
    rw [hprep.holds_eq]

/-! ## Everything a caller can get to -/

/-- A step of building, or the method is connected. -/
inductive Move : Draft → Draft → Prop where
  | step {s t : Draft} (h : Step .full s t) : Move s t
  | connect {m m' : Method} {r : Except BuildError Unit} (hm : m.Reachable)
    (h : Build.connect.run.run m = .ok (r, m')) : Move ⟨m, [], []⟩ ⟨m', [], []⟩

namespace Move

variable {s t : Draft}

theorem stands (h : Move s t) : s.method.Stands t.method := by
  cases h with
  | step h => exact .of_builds h.builds
  | connect hm h =>
    rcases Build.connect_eq_ok h with ⟨-, -, rfl⟩ | ⟨-, -, hstands, -⟩
    · exact .refl _
    · exact hstands

theorem contents (h : Move s t) :
    s.method.SameContents t.method ∨ ∃ b c, s.method.Puts t.method b c := by
  cases h with
  | step h => exact h.contents
  | connect hm h =>
    obtain ⟨r, m', hrun, hsame, -⟩ := hm.connect_outcome
    cases h.symm.trans hrun
    exact .inl hsame

theorem holds (h : Move s t) (hax : Holds s.method.builder? a x) : Holds t.method.builder? a x := by
  cases h with
  | step h => exact h.below.holds hax
  | connect hm h =>
    obtain ⟨r, m', hrun, -, hmore, -⟩ := hm.connect_outcome
    cases h.symm.trans hrun
    exact hmore a x hax

theorem nested (h : Move s t) (hs : s.method.Nested) : t.method.Nested := by
  rcases h.contents with hsame | ⟨b, c, hputs⟩
  · exact hs.same h.stands hsame
  · exact hs.puts h.stands hputs

theorem not_circular_iff (h : Move s t) (hs : ∀ a, ¬ Circular s.method.builder? a) :
    (∀ a, ¬ Circular t.method.builder? a) ↔ ¬ s.method.Entangles t.method :=
  MethodGraph.not_circular_iff (fun _ _ => h.holds) h.contents hs

theorem of_builds (h : Builds .full s t) : Relation.ReflTransGen Move s t :=
  h.lift id fun _ _ => .step

end Move

/-- What a caller asks for comes to moves. -/
theorem Method.moves_of_serve {name : String} {config : Config} {rs : List Request}
    (h : (Method.new name config).serve rs = .ok m) :
    Relation.ReflTransGen Move ⟨Method.new name config, [], []⟩ ⟨m, [], []⟩ := by
  have hcalls : ∀ {calls m m'}, after m calls = .ok m' →
      Relation.ReflTransGen Move ⟨m, [], []⟩ ⟨m', [], []⟩ := fun hafter =>
    Move.of_builds (after_builds hafter rfl rfl (fun _ _ _ => rfl) fun _ _ _ => rfl)
  rcases serve_cases rfl h with
    ⟨calls, -, hafter, -⟩ | ⟨calls, rest, m0, a, m₁, -, hafter, hm0, hconnect, hrest⟩
  · exact hcalls hafter
  · have hm1 : m₁.connected = true := by
      rcases Build.connect_eq_ok hconnect with ⟨hc, -⟩ | ⟨-, hc, -⟩
      · rw [hm0] at hc
        cases hc
      · exact hc
    obtain ⟨later, -, hend⟩ := serve_connected hm1 hrest
    exact ((hcalls hafter).tail (.connect ⟨name, config, calls, hafter⟩ hconnect)).trans
      (hcalls hend)

/-- A move that appends no builder to what hangs from it. -/
def Move.Untangled (s t : Draft) : Prop := Move s t ∧ ¬ s.method.Entangles t.method

theorem untangled_iff (h : Relation.ReflTransGen Move s t)
    (hs : ∀ a, ¬ Circular s.method.builder? a) :
    (∀ a, ¬ Circular t.method.builder? a) ↔ Relation.ReflTransGen Move.Untangled s t := by
  constructor
  · -- circles stay, so there was none in between
    intro ht
    induction h with
    | refl => exact .refl
    | tail _ hmove ih =>
      have hbefore : ∀ a, ¬ Circular _ a :=
        fun a (ha : Relation.TransGen _ a a) => ht a (ha.lift id fun _ _ => hmove.holds)
      exact (ih hbefore).tail ⟨hmove, (hmove.not_circular_iff hbefore).1 ht⟩
  · clear h
    intro h
    induction h with
    | refl => exact hs
    | tail _ hmove ih => exact (hmove.1.not_circular_iff ih).2 hmove.2

namespace Method

/-- Whatever a caller asks for, each builder occurs at most once in all sequences taken together,
    and the body in none.  No builder is contained in itself exactly if no builder was ever appended
    to what hangs from it; appending does not look at that.  When the method is connected, the
    blocks of a builder get a place exactly if it hangs from no builder that is contained in
    itself. -/
theorem serve_forest_iff {name : String} {config : Config} {rs : List Request}
    (h : (Method.new name config).serve rs = .ok m) :
    m.contents.Nodup ∧ root ∉ m.contents ∧
    ((∀ a, ¬ Circular m.builder? a) ↔
      Relation.ReflTransGen Move.Untangled ⟨Method.new name config, [], []⟩ ⟨m, [], []⟩) ∧
    (∀ b c m', (Emit.append b c).run m = .ok ((), m') → (∀ a, ¬ Circular m.builder? a) →
      ((∀ a, ¬ Circular m'.builder? a) ↔ ¬ Under m.builder? c b)) ∧
    (m.connected = false → ∃ r m', Build.connect.run.run m = .ok (r, m') ∧
      ∀ b d x, m.builder? b = some d → x ∈ d.owned →
        (x ∈ m'.graph.layout ↔ ∀ a, Under m.builder? a b → ¬ Circular m.builder? a)) := by
  have hmoves := moves_of_serve h
  have hnested : m.Nested := by
    have hkeeps : ∀ {s t}, Relation.ReflTransGen Move s t → s.method.Nested → t.method.Nested := by
      intro s t hst hs
      induction hst with
      | refl => exact hs
      | tail _ hmove ih => exact hmove.nested ih
    exact hkeeps hmoves (.of_forest (Forest.new name config))
  have hempty : ∀ a, ¬ Circular (Method.new name config).builder? a := by
    intro a ha
    obtain ⟨x, ⟨d, hd, hx⟩, -⟩ := Relation.TransGen.head'_iff.1 ha
    cases a with
    | zero =>
      cases hd
      cases hx
    | succ a => cases hd
  obtain ⟨hnodup, hroot⟩ := hnested.contents
  refine ⟨hnodup, hroot, untangled_iff hmoves hempty,
    fun b c m' hrun => Emit.append_not_circular_iff hrun, fun hnot => ?_⟩
  rcases serve_cases rfl h with ⟨calls, -, hafter, -⟩ | ⟨calls, rest, m₀, a, m₁, rfl, -⟩
  · obtain ⟨r, m', hrun, -, -, hplaced⟩ := Reachable.connect_outcome ⟨name, config, calls, hafter⟩
    exact ⟨r, m', hrun, hplaced⟩
  · rw [(connected_of_serve h).2 (.inr (by simp))] at hnot
    cases hnot

/-- A case of it: a builder is part of one that is part of the body, and a third is part of none. -/
theorem serve_forest_nested : ∃ m r m', (Method.new "f" {}).serve [.call .orphan, .call .orphan,
      .call .orphan, .call (.append 1 2), .call (.append 0 1)] = .ok m ∧
    m.contents = [1, 2] ∧ m.contents.Nodup ∧ (∀ a, ¬ Circular m.builder? a) ∧
    Build.connect.run.run m = .ok (r, m') ∧
    ∀ b d x, m.builder? b = some d → x ∈ d.owned → x ∈ m'.graph.layout := by
  have hcheck : passes ((Method.new "f" {}).serve [.call .orphan, .call .orphan, .call .orphan,
      .call (.append 1 2), .call (.append 0 1)]) (fun m => m.contents == [1, 2] && !m.connected &&
        m.builders.entries.all fun p => p.2.children.all fun c => p.1 < c) = true := by
    decide +kernel
  obtain ⟨m, h, hcheck⟩ := of_passes hcheck
  obtain ⟨hcheck, hlater⟩ := Bool.and_eq_true_iff.1 hcheck
  obtain ⟨hcontents, hnot⟩ := Bool.and_eq_true_iff.1 hcheck
  have htree := not_circular_of_later hlater
  obtain ⟨hnodup, -, -, -, hconnect⟩ := serve_forest_iff h
  obtain ⟨r, m', hrun, hplaced⟩ := hconnect (by simpa using hnot)
  exact ⟨m, r, m', h, eq_of_beq hcontents, hnodup, htree, hrun,
    fun b d x hd hx => (hplaced b d x hd hx).2 fun a _ => htree a⟩

/-- Two builders are appended to each other: each is contained in itself, and when the method is
    connected the first block of the one has no place in the layout. -/
theorem serve_circle : ∃ m d r m', (Method.new "f" {}).serve [.call .orphan, .call .orphan,
      .call (.append 1 2), .call (.append 2 1)] = .ok m ∧
    Circular m.builder? 1 ∧ Circular m.builder? 2 ∧ m.builder? 1 = some d ∧ d.entry ∈ d.owned ∧
    Build.connect.run.run m = .ok (r, m') ∧ d.entry ∉ m'.graph.layout := by
  have hcheck : passes ((Method.new "f" {}).serve [.call .orphan, .call .orphan,
      .call (.append 1 2), .call (.append 2 1)]) (fun m => passes (Build.connect.run.run m) fun p =>
        decide ((m.builder? 1).map (fun d => (d.children, d.entry, d.owned)) =
            some ([2], 2, [3, 2]) ∧
          (m.builder? 2).map (·.children) = some [1] ∧ 2 ∉ p.2.graph.layout)) = true := by
    decide +kernel
  obtain ⟨m, h, hcheck⟩ := of_passes hcheck
  obtain ⟨⟨r, m'⟩, hrun, h₁, h₂, hno⟩ := of_passes_decide hcheck
  obtain ⟨d, hd, heq⟩ := Option.map_eq_some_iff.1 h₁
  obtain ⟨hd', hentry, howned⟩ : d.children = [2] ∧ d.entry = 2 ∧ d.owned = [3, 2] := by
    simpa using heq
  obtain ⟨e, he, he'⟩ := Option.map_eq_some_iff.1 h₂
  have hdown : Holds m.builder? 1 2 := ⟨d, hd, hd' ▸ List.mem_cons_self⟩
  have hup : Holds m.builder? 2 1 := ⟨e, he, he' ▸ List.mem_cons_self⟩
  have hmem : d.entry ∈ d.owned := by
    rw [hentry, howned]
    decide
  exact ⟨m, d, r, m', h, .tail (.single hdown) hup, .tail (.single hup) hdown, hd, hmem, hrun,
    hentry ▸ hno⟩

end Method
end MethodGraph
