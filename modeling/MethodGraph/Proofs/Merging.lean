import Mathlib.Tactic.FinCases
import MethodGraph.Proofs.Straight
import MethodGraph.Vm.Merge
/-!
  States stored over states.

  Within one stack or array the stores are a parallel copy: every target gets what its source had
  before the first of them (`Emit.mergeValues_copies`).  The components of a composite state are
  stored one after another (`VmState.mergeInto_parts`).  That is a parallel copy of the whole state
  exactly if no component overwrites a value that a later one stores somewhere else
  (`VmState.mergeInto_copies_iff`): two components that exchange their values both end up with one
  of them.
-/

namespace MethodGraph

open List Machine Nat

variable {g : Graph} {ws : List ValueId} {u : Unit} {v w : ValueId} {s t : VmState}

variable {m m1 m' : Method} {b : BuilderId} {ps moves : List (ValueId × ValueId)}

namespace Emit

open Method

/-! ## Copies of several values -/

theorem copyAll_carries {vs : List ValueId} (hvs : ∀ v ∈ vs, v < m.graph.values.size)
    (h : (copyAll b vs).run m = .ok (ws, m')) :
    ws.length = vs.length ∧ (∀ w ∈ ws, m.graph.values.size ≤ w) ∧
      m.Carries b (vs.zip ws) [] m' := by
  unfold copyAll at h
  induction vs generalizing m ws with
  | nil =>
    rw [mapM_nil] at h
    obtain ⟨rfl, rfl⟩ := pure_eq_ok.1 h
    exact ⟨rfl, fun _ hw => (nomatch hw), .stay fun _ hp => (nomatch hp)⟩
  | cons v vs ih =>
    rw [mapM_cons] at h
    obtain ⟨w, m1, h1, h⟩ := bind_eq_ok.1 h
    obtain ⟨ws', m2, h2, h⟩ := bind_eq_ok.1 h
    obtain ⟨rfl, rfl⟩ := pure_eq_ok.1 h
    obtain ⟨rfl, hsize, hcopy⟩ := copy_carries h1
    have hrest : ∀ u ∈ vs, u < m.graph.values.size := fun u hu => hvs u (mem_cons_of_mem _ hu)
    have hle : m.graph.values.size ≤ m1.graph.values.size := by
      rw [hsize]
      exact le_succ _
    obtain ⟨hlen, hnew, hcopies⟩ := ih (fun u hu => lt_of_lt_of_le (hrest u hu) hle) h2
    refine ⟨congrArg (· + 1) hlen, fun u hu => ?_, ?_⟩
    · rcases mem_cons.1 hu with rfl | hu
      · exact le_refl _
      · exact le_trans hle (hnew u hu)
    · refine hcopy.append hcopies (fun p hp => ?_) fun _ _ => not_mem_nil
      exact ⟨hrest p.1 (of_mem_zip hp).1, not_mem_nil⟩

/-! ## Stores -/

/-- What stores one after another do to a machine, where no target is a source.  A target that is
    stored to more than once gets the same each time. -/
theorem storeAll_takes
    (h : (ps.forM fun (target, source) => storeOver b target source).run m = .ok (u, m')) :
    m'.graph.values = m.graph.values ∧
    (∀ p ∈ ps, ∃ ty, m.graph.values.get? p.1 = some ty ∧ m.graph.values.get? p.2 = some ty) ∧
    ∃ ops, m.Appended b ops m' ∧ ∀ (g : Graph) (hosts : Bindings String HostFn) (σ : Machine),
      m.graph.values.size ≤ σ.values.size → (∀ p ∈ ps, ∃ a, σ.Has p.2 a) →
      (∀ p ∈ ps, ∀ q ∈ ps, q.2 ≠ p.1) →
      (∀ p ∈ ps, ∀ q ∈ ps, p.1 = q.1 → σ.values[p.2]? = σ.values[q.2]?) →
      ∃ σ', Exec.Takes g hosts ops σ σ' ∧ σ'.values.size = σ.values.size ∧
        (∀ p ∈ ps, σ'.values[p.1]? = σ.values[p.2]?) ∧
        ∀ v, v ∉ ps.map Prod.fst → σ'.values[v]? = σ.values[v]? := by
  induction ps generalizing m with
  | nil =>
    obtain ⟨-, rfl⟩ := pure_eq_ok.1 h
    exact ⟨rfl, fun _ hp => (nomatch hp), [], .refl m b, fun _ _ σ _ _ _ _ =>
      ⟨σ, .nil, rfl, fun _ hp => (nomatch hp), fun _ _ => rfl⟩⟩
  | cons p ps ih =>
    obtain ⟨t, s⟩ := p
    obtain ⟨_, m1, h1, h⟩ := bind_eq_ok.1 h
    obtain ⟨ty, hs, ht, hvalues, happ⟩ := storeOver_appended h1
    obtain ⟨hvalues', htyped, ops, happ', hrun⟩ := ih h
    refine ⟨hvalues'.trans hvalues, fun q hq => ?_, _, happ.trans happ', ?_⟩
    · rcases mem_cons.1 hq with rfl | hq
      · exact ⟨ty, ht, hs⟩
      · rw [← hvalues]
        exact htyped q hq
    intro g hosts σ hroom hhas hapart hshared
    obtain ⟨a, ha⟩ := hhas (t, s) mem_cons_self
    have hlt : t < σ.values.size := lt_of_lt_of_le (Carries.lt_of_get? ht) hroom
    -- the sources of the other stores are not touched by the first
    have hkept : ∀ q ∈ ps, (σ.put t a).values[q.2]? = σ.values[q.2]? := fun q hq =>
      getElem?_put_of_ne (hapart (t, s) mem_cons_self q (mem_cons_of_mem _ hq)) a
    obtain ⟨σ', htakes, hsize, hmoved, hrest⟩ := hrun g hosts (σ.put t a)
      (by rw [hvalues, size_put]; exact hroom)
      (by
        intro q hq
        obtain ⟨c, hc⟩ := hhas q (mem_cons_of_mem _ hq)
        exact ⟨c, (hkept q hq).trans hc⟩)
      (fun p hp q hq => hapart p (mem_cons_of_mem _ hp) q (mem_cons_of_mem _ hq))
      (by
        intro p hp q hq hpq
        rw [hkept p hp, hkept q hq]
        exact hshared p (mem_cons_of_mem _ hp) q (mem_cons_of_mem _ hq) hpq)
    have hfirst : Exec.Takes g hosts [⟨.storeOver, [t, s], none, []⟩] σ (σ.put t a) :=
      .single fun p => Exec.step_storeOver hlt ha
    refine ⟨σ', hfirst.append htakes, hsize.trans (σ.size_put t a), fun q hq => ?_, fun v hv => ?_⟩
    · grind [Machine.Has, Machine.put]
    · grind [getElem?_put_of_ne]

/-! ## Parallel copies -/

variable {pairs : List (ValueId × ValueId)}

/-- No two pairs have the same target and different sources. -/
theorem checkShared_eq_ok {seen : List (ValueId × ValueId)} (h : checkShared seen pairs = .ok ())
    (hseen : ∀ p ∈ seen, ∀ q ∈ seen, p.2 = q.2 → p.1 = q.1) :
    ∀ p ∈ seen ++ pairs, ∀ q ∈ seen ++ pairs, p.2 = q.2 → p.1 = q.1 := by
  induction pairs generalizing seen with
  | nil =>
    rw [append_nil]
    exact hseen
  | cons p pairs ih =>
    obtain ⟨source, target⟩ := p
    unfold checkShared at h
    split at h
    · next first t hfind =>
      split at h
      · next heq =>
        subst heq
        -- the pair was seen before
        have ht : t = target := by simpa using find?_some hfind
        have hmem : (first, target) ∈ seen := ht ▸ mem_of_find?_eq_some hfind
        have hsub : ∀ p ∈ seen ++ (first, target) :: pairs, p ∈ seen ++ pairs := by
          intro p hp
          rcases mem_append.1 hp with hp | hp
          · exact mem_append_left _ hp
          · rcases mem_cons.1 hp with rfl | hp
            · exact mem_append_left _ hmem
            · exact mem_append_right _ hp
        intro p hp q hq
        exact ih h hseen p (hsub p hp) q (hsub q hq)
      · cases h
    · grind [append_cons]

/-- The values that are overwritten when each source is stored over its target. -/
def overwritten (pairs : List (ValueId × ValueId)) : List ValueId :=
  (pairs.filter fun p => p.1 ≠ p.2).map (·.2)

theorem mem_overwritten : v ∈ overwritten pairs ↔ ∃ u, (u, v) ∈ pairs ∧ u ≠ v := by
  unfold overwritten
  constructor
  · grind
  · rintro ⟨u, hu, hne⟩
    exact mem_map.2 ⟨(u, v), mem_filter.2 ⟨hu, decide_eq_true hne⟩, rfl⟩

theorem overlaps_eq_false (h : overlaps pairs = false) :
    ∀ p ∈ pairs, ∀ q ∈ pairs, q.1 ≠ p.2 := by grind [overlaps]

/-- Both values of each pair are there. -/
def Spans (m : Method) (pairs : List (ValueId × ValueId)) : Prop :=
  ∀ p ∈ pairs, p.1 < m.graph.values.size ∧ p.2 < m.graph.values.size

theorem spans_append : Spans m (ps ++ qs) ↔ Spans m ps ∧ Spans m qs := forall_mem_append

theorem Spans.grow {ops : List Operation} (h : Spans m ps) (happ : m.Appended b ops m') :
    Spans m' ps := fun p hp =>
  ⟨lt_of_lt_of_le (h p hp).1 happ.size, lt_of_lt_of_le (h p hp).2 happ.size⟩

theorem spans_zip {sources targets : List ValueId}
    (h : ∀ v ∈ sources ++ targets, v < m.graph.values.size) : Spans m (sources.zip targets) := by
  intro p hp
  obtain ⟨hs, ht⟩ := of_mem_zip hp
  exact ⟨h _ (mem_append_left _ hs), h _ (mem_append_right _ ht)⟩

/-- The sources of the stores are copies if a value that is overwritten is a source, and otherwise
    the values themselves; either way they have the scalars and none is overwritten. -/
theorem sources_carries (hmoves : Spans m moves)
    (h : (if overlaps moves then copyAll b (moves.map (·.1)) else pure (moves.map (·.1))).run m =
      .ok (ws, m1)) : ws.length = moves.length ∧ (∀ p ∈ moves, ∀ w ∈ ws, w ≠ p.2) ∧
      m.Carries b ((moves.map (·.1)).zip ws) [] m1 := by
  have hsources : ∀ v ∈ moves.map (·.1), v < m.graph.values.size := by
    intro v hv
    obtain ⟨p, hp, rfl⟩ := mem_map.1 hv
    exact (hmoves p hp).1
  split at h
  · grind [copyAll_carries, length_map, Spans]
  · next hover =>
    obtain ⟨rfl, rfl⟩ := pure_eq_ok.1 h
    refine ⟨length_map _, fun p hp w hw => ?_, .stay fun p hp => ?_⟩
    · grind [overlaps]
    · grind [Spans]

/-- Stores from values that have the scalars of the sources. -/
theorem stores_carry (hshared : ∀ p ∈ moves, ∀ q ∈ moves, p.2 = q.2 → p.1 = q.1)
    (hlen : ws.length = moves.length) (hfree : ∀ p ∈ moves, ∀ w ∈ ws, w ≠ p.2)
    (hcopies : m.Carries b ((moves.map (·.1)).zip ws) [] m1)
    (h : (((moves.map Prod.snd).zip ws).forM fun (target, source) =>
      storeOver b target source).run m1 = .ok (u, m')) :
    m.Carries b moves (moves.map (·.2)) m' := by
  rw [zip_map_left] at hcopies h
  obtain ⟨hvalues, htyped, ops', happ', hrun'⟩ := storeAll_takes h
  obtain ⟨ops, happ, hrun⟩ := hcopies.code
  -- each move is stored from one of the values, and each of the values is for a move
  have hstored : ∀ p ∈ moves, ∃ w, (p, w) ∈ moves.zip ws := by
    intro p hp
    rw [← map_fst_zip (le_of_eq hlen.symm)] at hp
    obtain ⟨⟨p, w⟩, hw, rfl⟩ := mem_map.1 hp
    exact ⟨w, hw⟩
  have hcopy : ∀ q ∈ moves.zip ws, (q.1.1, q.2) ∈ (moves.zip ws).map (Prod.map (·.1) id) :=
    fun q hq => mem_map.2 ⟨q, hq, rfl⟩
  have hstore : ∀ q ∈ moves.zip ws, (q.1.2, q.2) ∈ (moves.zip ws).map (Prod.map Prod.snd id) :=
    fun q hq => mem_map.2 ⟨q, hq, rfl⟩
  refine ⟨fun p hp => ?_, ops ++ ops', happ.trans happ', fun g hosts σ hg hroom hcomp => ?_⟩
  · grind [hcopies.typed]
  have hcomp' : ∀ q ∈ (moves.zip ws).map (Prod.map (·.1) id), σ.Computed g q.1 := by
    intro q hq
    obtain ⟨r, hr, rfl⟩ := mem_map.1 hq
    exact hcomp r.1 (of_mem_zip hr).1
  obtain ⟨σ1, htakes, hsize, hmoved, hkept⟩ := hrun g hosts σ
    (fun v ty hv => hg v ty (happ'.values v ty hv)) (le_trans happ'.size hroom) hcomp'
  have hsource : ∀ q ∈ moves.zip ws, σ1.values[q.2]? = σ.values[q.1.1]? :=
    fun q hq => hmoved _ (hcopy q hq)
  have hroom1 : m1.graph.values.size ≤ σ1.values.size := by
    rw [hsize, ← hvalues]
    exact hroom
  obtain ⟨σ2, htakes', hsize', hmoved', hkept'⟩ := hrun' g hosts σ1 hroom1
    (by
      intro q hq
      obtain ⟨r, hr, rfl⟩ := mem_map.1 hq
      obtain ⟨a, ha, -⟩ := hcomp r.1 (of_mem_zip hr).1
      exact ⟨a, (hsource r hr).trans ha⟩)
    (by
      intro p hp q hq
      obtain ⟨r, hr, rfl⟩ := mem_map.1 hp
      obtain ⟨r', hr', rfl⟩ := mem_map.1 hq
      exact hfree r.1 (of_mem_zip hr).1 r'.2 (of_mem_zip hr').2)
    (by
      intro p hp q hq hpq
      obtain ⟨r, hr, rfl⟩ := mem_map.1 hp
      obtain ⟨r', hr', rfl⟩ := mem_map.1 hq
      have hsame : r.1.1 = r'.1.1 :=
        hshared r.1 (of_mem_zip hr).1 r'.1 (of_mem_zip hr').1 hpq
      show σ1.values[r.2]? = σ1.values[r'.2]?
      rw [hsource r hr, hsource r' hr', hsame])
  refine ⟨σ2, htakes.append htakes', hsize'.trans hsize, fun p hp => ?_, fun v hv hlost => ?_⟩
  · obtain ⟨w, hw⟩ := hstored p hp
    exact (hmoved' _ (hstore _ hw)).trans (hsource _ hw)
  · rw [hkept' v ?_, hkept v hv not_mem_nil]
    intro hv
    obtain ⟨q, hq, rfl⟩ := mem_map.1 hv
    obtain ⟨r, hr, rfl⟩ := mem_map.1 hq
    exact hlost (mem_map.2 ⟨r.1, (of_mem_zip hr).1, rfl⟩)

/-- Every source is stored over its target as if at once. -/
theorem mergeValues_carries (hpairs : Spans m pairs) (h : (mergeValues b pairs).run m = .ok (u, m'))
    : m.Carries b pairs (overwritten pairs) m' := by
  obtain ⟨_, m1, h1, h⟩ := bind_eq_ok.1 h
  obtain ⟨hshared, rfl⟩ := lift_eq_ok.1 h1
  have hshared : ∀ p ∈ pairs, ∀ q ∈ pairs, p.2 = q.2 → p.1 = q.1 :=
    checkShared_eq_ok hshared fun _ hp => (nomatch hp)
  let moves := pairs.filter fun p => p.1 ≠ p.2
  have hsub : ∀ p ∈ moves, p ∈ pairs := fun p hp => (mem_filter.1 hp).1
  obtain ⟨ws, m2, h2, h⟩ : ∃ ws m2,
      (if overlaps moves then copyAll b (moves.map (·.1)) else pure (moves.map (·.1))).run m =
        .ok (ws, m2) ∧
      (((moves.map Prod.snd).zip ws).forM fun (target, source) =>
        storeOver b target source).run m2 = .ok (u, m') := by grind [bind_eq_ok]
  obtain ⟨hlen, hfree, hcopies⟩ := sources_carries (fun p hp => hpairs p (hsub p hp)) h2
  have hmoves : m.Carries b moves (overwritten pairs) m' :=
    stores_carry (fun p hp q hq => hshared p (hsub p hp) q (hsub q hq)) hlen hfree hcopies h
  -- a value that is stored over itself is not overwritten by another either
  refine hmoves.widen hsub fun p hp => ?_
  by_cases heq : p.1 = p.2
  · grind [mem_overwritten, Spans]
  · exact .inl (mem_filter.2 ⟨hp, decide_eq_true heq⟩)

end Emit

/-! ## Parallel copies one after another -/

namespace Emit

variable {parts : List (List (ValueId × ValueId))}

/-- None overwrites what a later one takes or what an earlier one has stored. -/
def Apart (parts : List (List (ValueId × ValueId))) : Prop :=
  parts.Pairwise fun ps qs => (∀ q ∈ qs, q.1 ∉ overwritten ps) ∧ ∀ p ∈ ps, p.2 ∉ overwritten qs

/-- None overwrites a value that a later one stores somewhere else. -/
def Uncrossed (parts : List (List (ValueId × ValueId))) : Prop :=
  parts.Pairwise fun ps qs => ∀ q ∈ qs, q.1 ≠ q.2 → q.1 ∉ overwritten ps

instance : Decidable (Uncrossed parts) := by
  unfold Uncrossed
  infer_instance

theorem overwritten_append (ps qs : List (ValueId × ValueId)) :
    overwritten (ps ++ qs) = overwritten ps ++ overwritten qs := by
  unfold overwritten
  rw [filter_append, map_append]

theorem overwritten_subset (h : v ∈ overwritten ps) : v ∈ ps.map Prod.snd := by
  obtain ⟨u, hu, -⟩ := mem_overwritten.1 h
  exact mem_map.2 ⟨(u, v), hu, rfl⟩

/-- Where all targets are distinct, crossing moves are the only way of getting into each other's
    way. -/
theorem apart_of_uncrossed (hnodup : (parts.flatten.map Prod.snd).Nodup) (h : Uncrossed parts) :
    Apart parts := by
  rw [map_flatten, nodup_flatten, pairwise_map] at hnodup
  have hboth := h.and hnodup.2
  refine hboth.imp ?_
  rintro ps qs ⟨hcross, hdisjoint⟩
  refine ⟨fun q hq hover => ?_, fun p hp hover => ?_⟩
  · by_cases heq : q.1 = q.2
    · exact hdisjoint (overwritten_subset hover) (heq ▸ mem_map.2 ⟨q, hq, rfl⟩)
    · exact hcross q hq heq hover
  · exact hdisjoint (mem_map.2 ⟨p, hp, rfl⟩) (overwritten_subset hover)

variable (hlt : Spans m parts.flatten)

include hlt in
/-- Parallel copies that do not get into each other's way are one parallel copy. -/
theorem mergeParts_carries (hapart : Apart parts)
    (h : (parts.forM (mergeValues b)).run m = .ok (u, m')) :
    m.Carries b parts.flatten (overwritten parts.flatten) m' := by
  induction parts generalizing m with
  | nil =>
    obtain ⟨-, rfl⟩ := pure_eq_ok.1 h
    exact .stay fun _ hp => (nomatch hp)
  | cons ps parts ih =>
    obtain ⟨_, m1, h1, h⟩ := bind_eq_ok.1 h
    obtain ⟨hhead, htail⟩ := pairwise_cons.1 hapart
    rw [flatten_cons, spans_append] at hlt
    rw [flatten_cons, overwritten_append]
    have hfirst := mergeValues_carries hlt.1 h1
    obtain ⟨ops, happ, -⟩ := hfirst.code
    refine hfirst.append (ih (hlt.2.grow happ) htail h) (fun q hq => ?_) fun p hp hover => ?_
    · grind [mem_flatten, Spans]
    · grind [mem_overwritten, mem_flatten]

/-! ## Copies that cross -/

/-- Values that have scalars still have some behind a parallel copy. -/
theorem computed_of_carries {σ σ' : Machine} (h : m.Carries b ps (overwritten ps) m')
    (hg : g.HasValues m') (hcomp : ∀ p ∈ ps, σ.Computed g p.1)
    (hmoved : ∀ p ∈ ps, σ'.values[p.2]? = σ.values[p.1]?)
    (hkept : ∀ v < m.graph.values.size, v ∉ overwritten ps → σ'.values[v]? = σ.values[v]?)
    (hv : v < m.graph.values.size) (hcv : σ.Computed g v) : σ'.Computed g v := by
  obtain ⟨ops, happ, -⟩ := h.code
  by_cases hover : v ∈ overwritten ps
  · obtain ⟨u, hu, -⟩ := mem_overwritten.1 hover
    obtain ⟨a, ha, hfits⟩ := hcomp _ hu
    refine ⟨a, (hmoved _ hu).trans ha, fun ty hty => ?_⟩
    -- the scalar fits because the two values have the same type
    obtain ⟨ty', htyu, htyv⟩ := h.typed _ hu
    cases (hg _ _ htyv).symm.trans hty
    exact hfits ty (hg _ _ (happ.values _ _ htyu))
  · obtain ⟨a, ha, hfits⟩ := hcv
    exact ⟨a, (hkept v hv hover).trans ha, hfits⟩

include hlt in
/-- Whatever parallel copies one after another do, they run through and overwrite no more than their
    targets. -/
theorem mergeParts_keeps (h : (parts.forM (mergeValues b)).run m = .ok (u, m')) :
    ∃ ops, m.Appended b ops m' ∧ ∀ (g : Graph) (hosts : Bindings String HostFn) (σ : Machine),
      g.HasValues m' → m'.graph.values.size ≤ σ.values.size →
      (∀ p ∈ parts.flatten, σ.Computed g p.1) →
      ∃ σ', Exec.Takes g hosts ops σ σ' ∧
        ∀ v < m.graph.values.size, v ∉ overwritten parts.flatten → σ'.values[v]? = σ.values[v]? := by
  induction parts generalizing m with
  | nil =>
    obtain ⟨-, rfl⟩ := pure_eq_ok.1 h
    exact ⟨[], .refl m b, fun _ _ σ _ _ _ => ⟨σ, .nil, fun _ _ _ => rfl⟩⟩
  | cons ps parts ih =>
    obtain ⟨_, m1, h1, h⟩ := bind_eq_ok.1 h
    rw [flatten_cons, spans_append] at hlt
    rw [flatten_cons]
    have hfirst := mergeValues_carries hlt.1 h1
    obtain ⟨ops, happ, hrun⟩ := hfirst.code
    obtain ⟨ops', happ', hrun'⟩ := ih (hlt.2.grow happ) h
    refine ⟨ops ++ ops', happ.trans happ', fun g hosts σ hg hroom hcomp => ?_⟩
    have hg1 : g.HasValues m1 := fun v ty hv => hg v ty (happ'.values v ty hv)
    have hcomp1 : ∀ p ∈ ps, σ.Computed g p.1 := fun p hp => hcomp p (mem_append_left _ hp)
    obtain ⟨σ1, htakes, hsize, hmoved, hkept⟩ :=
      hrun g hosts σ hg1 (le_trans happ'.size hroom) hcomp1
    obtain ⟨σ2, htakes', hkept'⟩ := hrun' g hosts σ1 hg (hsize ▸ hroom) fun p hp =>
      computed_of_carries hfirst hg1 hcomp1 hmoved hkept (hlt.2 p hp).1
        (hcomp p (mem_append_right _ hp))
    refine ⟨σ2, htakes.append htakes', fun v hv hover => ?_⟩
    rw [overwritten_append, mem_append, not_or] at hover
    rw [hkept' v (lt_of_lt_of_le hv happ.size) hover.2, hkept v hv hover.1]

/-- If not all are related, there is a first that is not related to one before it. -/
theorem exists_first_unrelated {α : Type} {R : α → α → Prop} {xs : List α} (h : ¬ xs.Pairwise R) :
    ∃ pre y post, xs = pre ++ y :: post ∧ pre.Pairwise R ∧ ∃ x ∈ pre, ¬ R x y := by
  induction xs using reverseRecOn with
  | nil => exact absurd List.Pairwise.nil h
  | append_singleton xs y ih =>
    by_cases hxs : xs.Pairwise R
    · grind
    · grind

/-- A scalar of a type, one of two. -/
def sample (ty : Ty) (mark : Bool) : Scalar :=
  if ty.isFloating then .float (if mark then .defaultNaN else Binary64.defaultNaN.neg)
  else .int (if mark then 1 else 0)

theorem convert_sample (ty : Ty) (mark : Bool) :
    (sample ty mark).convert ty ty false = sample ty mark := by
  cases ty <;> cases mark <;> decide +kernel

theorem sample_ne (ty : Ty) : sample ty true ≠ sample ty false := by
  cases ty <;> decide

/-- A machine on which every value has a scalar and one of them another than the rest. -/
def markedMachine (g : Graph) (v : ValueId) : Machine :=
  { values := g.values.items.mapIdx fun i ty => some (sample ty (i = v)) }

theorem markedMachine_has {ty : Ty} (h : g.values.get? w = some ty) :
    (markedMachine g v).Has w (sample ty (w = v)) := by
  grind [Machine.Has, markedMachine, Arena.get?]

theorem markedMachine_computed (h : w < g.values.size) : (markedMachine g v).Computed g w := by
  obtain ⟨ty, hty⟩ := Option.isSome_iff_exists.1 (Arena.get?_isSome.2 h)
  refine ⟨_, markedMachine_has hty, fun ty' hty' => ?_⟩
  cases hty.symm.trans hty'
  exact convert_sample ty _

/-- Where one overwrites a value that a later one stores somewhere else, the target of that move
    gets what the value was overwritten with. -/
theorem mergeParts_forwards {pre post : List (List (ValueId × ValueId))}
    {qs : List (ValueId × ValueId)} {x : ValueId} (hlt : Spans m (pre ++ qs :: post).flatten)
    (hpre : Apart pre) (hx : (x, v) ∈ pre.flatten) (hq : (v, w) ∈ qs)
    (hlast : w ∉ overwritten post.flatten)
    (h : ((pre ++ qs :: post).forM (mergeValues b)).run m = .ok (u, m')) :
    (∃ ty, m'.graph.values.get? x = some ty ∧ m'.graph.values.get? v = some ty) ∧
    ∃ ops, m.Appended b ops m' ∧ ∀ (g : Graph) (hosts : Bindings String HostFn) (σ : Machine),
      g.HasValues m' → m'.graph.values.size ≤ σ.values.size →
      (∀ p ∈ (pre ++ qs :: post).flatten, σ.Computed g p.1) →
      ∃ σ', Exec.Takes g hosts ops σ σ' ∧ σ'.values[w]? = σ.values[x]? := by
  rw [flatten_append, flatten_cons, spans_append, spans_append] at hlt
  rw [flatten_append, flatten_cons]
  obtain ⟨hlt1, hlt2, hlt3⟩ := hlt
  -- the run in three pieces
  obtain ⟨_, m1, h1, h⟩ : ∃ u1 m1, (pre.forM (mergeValues b)).run m = .ok (u1, m1) ∧
      ((qs :: post).forM (mergeValues b)).run m1 = .ok (u, m') := by
    have h : (forM (pre ++ qs :: post) (mergeValues b)).run m = .ok (u, m') := h
    rw [forM_append] at h
    exact bind_eq_ok.1 h
  obtain ⟨_, m2, h2, h3⟩ := bind_eq_ok.1 h
  have hfirst := mergeParts_carries hlt1 hpre h1
  obtain ⟨ops1, happ1, hrun1⟩ := hfirst.code
  have hsecond := mergeValues_carries (hlt2.grow happ1) h2
  obtain ⟨ops2, happ2, hrun2⟩ := hsecond.code
  have happ12 := happ1.trans happ2
  obtain ⟨ops3, happ3, hrun3⟩ := mergeParts_keeps (hlt3.grow happ12) h3
  have happ23 := happ2.trans happ3
  constructor
  · grind [hfirst.typed, happ23.values, happ1.values]
  refine ⟨_, happ12.trans happ3, fun g hosts σ hg hroom hcomp => ?_⟩
  have hg2 : g.HasValues m2 := fun v ty hv => hg v ty (happ3.values v ty hv)
  have hg1 : g.HasValues m1 := fun v ty hv => hg2 v ty (happ2.values v ty hv)
  have hcomp1 : ∀ p ∈ pre.flatten, σ.Computed g p.1 := fun p hp =>
    hcomp p (mem_append_left _ hp)
  obtain ⟨σ1, htakes1, hsize1, hmoved1, hkept1⟩ :=
    hrun1 g hosts σ hg1 (le_trans happ23.size hroom) hcomp1
  -- behind the first piece every later source still has a scalar
  have hcomp2 : ∀ p ∈ qs ++ post.flatten, σ1.Computed g p.1 := fun p hp =>
    computed_of_carries hfirst hg1 hcomp1 hmoved1 hkept1 (spans_append.2 ⟨hlt2, hlt3⟩ p hp).1
      (hcomp p (mem_append_right _ hp))
  obtain ⟨σ2, htakes2, hsize2, hmoved2, hkept2⟩ := hrun2 g hosts σ1 hg2
    (by rw [hsize1]; exact le_trans happ3.size hroom)
    fun p hp => hcomp2 p (mem_append_left _ hp)
  obtain ⟨σ3, htakes3, hkept3⟩ := hrun3 g hosts σ2 hg (by rw [hsize2, hsize1]; exact hroom)
    fun p hp => computed_of_carries hsecond hg2
      (fun p hp => hcomp2 p (mem_append_left _ hp)) hmoved2 hkept2
      (hlt3.grow happ1 p hp).1 (hcomp2 p (mem_append_right _ hp))
  refine ⟨σ3, (htakes1.append htakes2).append htakes3, ?_⟩
  rw [hkept3 w (hlt2.grow happ12 _ hq).2 hlast, hmoved2 _ hq, hmoved1 _ hx]

include hlt in
/-- If one overwrites a value that a later one stores somewhere else, there is a machine on which
    the target of that move does not get the scalar of its source. -/
theorem mergeParts_crossed (hnodup : (parts.flatten.map Prod.snd).Nodup)
    (hcrossed : ¬ Uncrossed parts) (h : (parts.forM (mergeValues b)).run m = .ok (u, m')) :
    ∃ ops, m.Appended b ops m' ∧ ∃ p ∈ parts.flatten, ∃ v σ',
      Exec.Takes m'.graph .empty ops (markedMachine m'.graph v) σ' ∧
      σ'.values[p.2]? ≠ (markedMachine m'.graph v).values[p.1]? := by
  obtain ⟨pre, qs, post, rfl, hpre, ps, hps, hcross⟩ := exists_first_unrelated hcrossed
  push Not at hcross
  obtain ⟨⟨v, w⟩, hq, -, hover⟩ := hcross
  obtain ⟨x, hx, hxv⟩ := mem_overwritten.1 hover
  have hmem : (v, w) ∈ (pre ++ qs :: post).flatten :=
    mem_flatten.2 ⟨qs, mem_append_right _ mem_cons_self, hq⟩
  rw [flatten_append, flatten_cons, map_append, map_append] at hnodup
  obtain ⟨hnodup1, hnodup2, -⟩ := nodup_append.1 hnodup
  obtain ⟨-, -, hdisjoint⟩ := nodup_append.1 hnodup2
  have hlast : w ∉ overwritten post.flatten := fun hw =>
    hdisjoint w (mem_map.2 ⟨_, hq, rfl⟩) w (overwritten_subset hw) rfl
  obtain ⟨⟨ty, htyx, htyv⟩, ops, happ, hrun⟩ := mergeParts_forwards hlt
    (apart_of_uncrossed hnodup1 hpre) (mem_flatten.2 ⟨ps, hps, hx⟩) hq hlast h
  -- on this machine the crossed value has another scalar than the rest
  have hroom : m'.graph.values.size ≤ (markedMachine m'.graph v).values.size := by
    unfold markedMachine
    rw [Array.size_mapIdx]
    exact le_refl _
  obtain ⟨σ', htakes, hgets⟩ := hrun m'.graph .empty (markedMachine m'.graph v) (fun _ _ h => h)
    hroom fun p hp => markedMachine_computed (lt_of_lt_of_le (hlt p hp).1 happ.size)
  refine ⟨ops, happ, (v, w), hmem, v, σ', htakes, ?_⟩
  show σ'.values[w]? ≠ (markedMachine m'.graph v).values[v]?
  rw [hgets, markedMachine_has htyx, markedMachine_has htyv, decide_eq_false hxv,
    decide_eq_true rfl]
  intro heq
  exact sample_ne ty (Option.some.inj (Option.some.inj heq)).symm

end Emit

/-! ## Whole states -/

namespace VmState

open Emit

/-- The slots of two states, pairwise. -/
def pairs (s t : VmState) : List (ValueId × ValueId) := s.slots.zip t.slots

mutual

/-- The slots of two states, pairwise, those of each stack and array on their own. -/
def parts : VmState → VmState → List (List (ValueId × ValueId))
  | composite ss, composite ts => partsOfAll ss ts
  | s, t => [pairs s t]

/-- The same for several states. -/
def partsOfAll : List VmState → List VmState → List (List (ValueId × ValueId))
  | s :: ss, t :: ts => parts s t ++ partsOfAll ss ts
  | _, _ => []

end

/-- A state that is no composite is stored over another by a parallel copy. -/
theorem mergeInto_leaf (hs : ∀ parts, s ≠ composite parts)
    (h : (s.mergeInto b t).run m = .ok (u, m')) :
    s.slots.length = t.slots.length ∧ (mergeValues b (pairs s t)).run m = .ok (u, m') := by
  have hnone : (mergeValues b []).run m = .ok ((), m) := rfl
  cases s <;> cases t <;> simp only [mergeInto] at h
  case register.register r t =>
    split at h
    · obtain ⟨-, rfl⟩ := pure_eq_ok.1 h
      exact ⟨rfl, hnone⟩
    · exact absurd h throw_ne_ok
  case fieldRegister.fieldRegister r t =>
    split at h
    · obtain ⟨-, rfl⟩ := pure_eq_ok.1 h
      exact ⟨rfl, hnone⟩
    · exact absurd h throw_ne_ok
  case stack.stack s t =>
    split at h
    · next halike =>
      simp only [OperandStack.alike, Bool.and_eq_true, beq_iff_eq] at halike
      exact ⟨halike.1.1.1, h⟩
    · exact absurd h throw_ne_ok
  case array.array s t =>
    split at h
    · next halike =>
      simp only [OperandArray.alike, Bool.and_eq_true, beq_iff_eq] at halike
      exact ⟨halike.1.1, h⟩
    · exact absurd h throw_ne_ok
  case composite.composite parts _ => exact absurd rfl (hs parts)
  all_goals exact absurd h throw_ne_ok

theorem mergeInto_composite {ss : List VmState}
    (h : ((composite ss).mergeInto b t).run m = .ok (u, m')) :
    ∃ ts, t = composite ts ∧ ss.length = ts.length ∧ (mergeAll b ss ts).run m = .ok (u, m') := by
  cases t <;> simp only [mergeInto] at h
  case composite ts =>
    split at h
    · next hlen => exact ⟨ts, rfl, hlen, h⟩
    · exact absurd h throw_ne_ok
  all_goals exact absurd h throw_ne_ok

mutual

/-- A state is stored over another by parallel copies one after another. -/
theorem mergeInto_parts : ∀ (s t : VmState) {m m' : Method}, (s.mergeInto b t).run m = .ok (u, m') →
    s.slots.length = t.slots.length ∧ (parts s t).flatten = pairs s t ∧
      ((parts s t).forM (mergeValues b)).run m = .ok (u, m')
  | composite ss, t => by
    intro h
    obtain ⟨ts, rfl, hlen, h⟩ := mergeInto_composite h
    simp only [slots, parts, pairs]
    exact mergeAll_parts ss ts hlen h
  | register _, _ | fieldRegister _, _ | stack _, _ | array _, _ => by
    intro h
    obtain ⟨hlen, h⟩ := mergeInto_leaf (by intro _ hs; cases hs) h
    simp only [parts, flatten_singleton]
    exact ⟨hlen, trivial, bind_eq_ok.2 ⟨_, _, h, rfl⟩⟩

theorem mergeAll_parts : ∀ (ss ts : List VmState) {m m' : Method},
    ss.length = ts.length → (mergeAll b ss ts).run m = .ok (u, m') →
    (slotsOfAll ss).length = (slotsOfAll ts).length ∧
      (partsOfAll ss ts).flatten = (slotsOfAll ss).zip (slotsOfAll ts) ∧
      ((partsOfAll ss ts).forM (mergeValues b)).run m = .ok (u, m')
  | [], _ :: _ | _ :: _, [] => by
    intro hlen
    cases hlen
  | [], [] => by
    intro _ h
    simp only [mergeAll] at h
    exact ⟨rfl, rfl, h⟩
  | s :: ss, t :: ts => by
    intro hlen h
    simp only [mergeAll] at h
    obtain ⟨_, m1, h1, h⟩ := bind_eq_ok.1 h
    obtain ⟨hlen1, hflat1, hrun1⟩ := mergeInto_parts s t h1
    obtain ⟨hlen2, hflat2, hrun2⟩ := mergeAll_parts ss ts (succ.inj hlen) h
    simp only [slotsOfAll, partsOfAll]
    rw [length_append, length_append, hlen1, hlen2, flatten_append, hflat1, hflat2,
      zip_append hlen1]
    refine ⟨rfl, rfl, ?_⟩
    show (forM (parts s t ++ partsOfAll ss ts) (mergeValues b)).run _ = _
    rw [forM_append]
    exact bind_eq_ok.2 ⟨_, m1, hrun1, hrun2⟩

end

/-- Storing a state over another is one parallel copy of all slots exactly if no component
    overwrites a value that a later one stores somewhere else.  A parallel copy it is if the
    operations that were appended, run on any machine that has scalars for the slots of the first
    state, give to each slot of the second the scalar that the corresponding slot of the first had
    before. -/
theorem mergeInto_copies_iff {s t : VmState} (hb : b < m.builders.size)
    (hvalues : ∀ v ∈ s.slots ++ t.slots, v < m.graph.values.size) (hdistinct : t.slots.Nodup)
    (hrun : (s.mergeInto b t).run m = .ok ((), m')) :
    Uncrossed (parts s t) ↔ s.slots.length = t.slots.length ∧ ∃ ops, m.Appended b ops m' ∧
      ∀ (g : Graph) (hosts : Bindings String HostFn) (σ : Machine), g.HasValues m' →
        m'.graph.values.size ≤ σ.values.size → (∀ v ∈ s.slots, σ.Computed g v) →
        ∃ σ', Exec.Takes g hosts ops σ σ' ∧ ∀ (i : Nat) (v w : ValueId), s.slots[i]? = some v →
          t.slots[i]? = some w → ∃ a, σ.Has v a ∧ σ'.Has w a := by
  obtain ⟨hlen, hflat, hparts⟩ := mergeInto_parts s t hrun
  have hlt : Spans m (parts s t).flatten := by
    rw [hflat]
    exact spans_zip hvalues
  have hnodup : ((parts s t).flatten.map Prod.snd).Nodup := by
    rw [hflat]
    exact (List.map_snd_zip hlen.symm.le).symm ▸ hdistinct
  constructor
  · intro huncrossed
    have hcarries := mergeParts_carries hlt (apart_of_uncrossed hnodup huncrossed) hparts
    obtain ⟨ops, happ, htakes⟩ := hcarries.code
    refine ⟨hlen, ops, happ, fun g hosts σ hg hroom hcomp => ?_⟩
    rw [hflat] at htakes
    obtain ⟨σ', hrun', -, hmoved, -⟩ := htakes g hosts σ hg hroom fun p hp =>
      hcomp p.1 (List.of_mem_zip hp).1
    refine ⟨σ', hrun', fun i v w hv hw => ?_⟩
    obtain ⟨a, ha, -⟩ := hcomp v (List.mem_of_getElem? hv)
    have hmem : (v, w) ∈ pairs s t :=
      List.mem_of_getElem? (List.getElem?_zip_eq_some.2 ⟨hv, hw⟩)
    exact ⟨a, ha, (hmoved _ hmem).trans ha⟩
  · rintro ⟨-, ops, happ, hcopies⟩
    by_contra hcrossed
    obtain ⟨ops', happ', ⟨v, w⟩, hp, z, σ', htakes', hne⟩ :=
      mergeParts_crossed hlt hnodup hcrossed hparts
    obtain rfl : ops = ops' := by
      obtain ⟨d, hd⟩ := Method.exists_builder? hb
      obtain ⟨x, hx⟩ : ∃ x, m.tip b = some x := by
        unfold Method.tip
        rw [hd]
        exact ⟨_, rfl⟩
      exact List.append_cancel_left ((happ.ops x hx).symm.trans (happ'.ops x hx))
    obtain ⟨σ'', htakes, hmoved⟩ := hcopies m'.graph .empty (markedMachine m'.graph z)
      (fun _ _ h => h) (by unfold markedMachine; rw [Array.size_mapIdx]; exact le_rfl)
      fun u hu => markedMachine_computed
        ((hvalues u (List.mem_append_left _ hu)).trans_le happ.size)
    obtain rfl : σ' = σ'' := by
      have hsame := (htakes' 0 0).symm.trans (htakes 0 0)
      exact congrArg Prod.snd (Except.ok.inj hsame)
    rw [hflat] at hp
    obtain ⟨i, hi⟩ := List.mem_iff_getElem?.1 hp
    obtain ⟨hv, hw⟩ := List.getElem?_zip_eq_some.1 hi
    obtain ⟨a, ha, ha'⟩ := hmoved i v w hv hw
    exact hne (ha'.trans ha.symm)

/-- A state of a stack and an array. -/
def stackAndArray (stacked elements : List ValueId) : VmState :=
  composite [
    stack ⟨stacked, .int32, ⟨0, 0, .address, 4⟩, 1, true, 0⟩,
    array ⟨elements, .int32, 2⟩]

/-- A method with four integers. -/
def fourInts : Method :=
  let m := Method.new "integers" {}
  { m with graph := { m.graph with values := .ofList [.int32, .int32, .int32, .int32] } }

/-- A machine that has a scalar for each of the four, and room for two more. -/
def fourScalars : Machine :=
  { values := #[some (.int 1), some (.int 2), some (.int 3), some (.int 4), none, none] }

/-- The stack exchanges its two values and the array gets one from outside. -/
theorem mergeInto_copies_exchange : ∃ m' ops σ',
    ((stackAndArray [0, 1] [2]).mergeInto Method.root (stackAndArray [1, 0] [3])).run fourInts =
      .ok ((), m') ∧
    fourInts.Appended Method.root ops m' ∧ Exec.Takes m'.graph .empty ops fourScalars σ' ∧
    σ'.Has 1 (.int 1) ∧ σ'.Has 0 (.int 2) ∧ σ'.Has 3 (.int 3) := by
  have hcheck : passes (((stackAndArray [0, 1] [2]).mergeInto Method.root
      (stackAndArray [1, 0] [3])).run fourInts) (fun r => decide (
        r.2.graph.values.items = Array.replicate 6 .int32)) = true := by decide +kernel
  obtain ⟨⟨_, m'⟩, hrun, hvalues⟩ := of_passes_decide hcheck
  have hsize : m'.graph.values.size = 6 := congrArg Array.size hvalues
  have htypes : ∀ v < 4, m'.graph.values.get? v = some .int32 := by
    intro v hv
    show m'.graph.values.items[v]? = _
    rw [show m'.graph.values.items = _ from hvalues, Array.getElem?_replicate, if_pos (by omega)]
  have hslots : ∀ v ∈ (stackAndArray [0, 1] [2]).slots, fourScalars.Computed m'.graph v := by
    intro v hv
    have hv : v ∈ [0, 1, 2] := hv
    have hfits : ∀ n : Int64, Ty.int32.wrapInt n = n → v < 4 → m'.graph.Fits v (.int n) := by
      intro n hn hlt ty hty
      cases (htypes v hlt).symm.trans hty
      exact congrArg Scalar.int hn
    fin_cases hv
    · exact ⟨.int 1, rfl, hfits 1 (by decide) (by decide)⟩
    · exact ⟨.int 2, rfl, hfits 2 (by decide) (by decide)⟩
    · exact ⟨.int 3, rfl, hfits 3 (by decide) (by decide)⟩
  obtain ⟨-, ops, happ, hcopies⟩ :=
    (mergeInto_copies_iff (by decide) (by decide) (by decide) hrun).1 (by decide)
  obtain ⟨σ', htakes, hmoved⟩ := hcopies m'.graph .empty fourScalars (fun _ _ h => h)
    hsize.le hslots
  obtain ⟨a, ha, ha'⟩ := hmoved 0 0 1 rfl rfl
  obtain ⟨c, hc, hc'⟩ := hmoved 1 1 0 rfl rfl
  obtain ⟨d, hd, hd'⟩ := hmoved 2 2 3 rfl rfl
  cases ha
  cases hc
  cases hd
  exact ⟨m', ops, σ', hrun, happ, htakes, ha', hc', hd'⟩

/-- If the stack and the array exchange a value, both end up with the one of the stack. -/
theorem mergeInto_crossed : ∃ m' ops σ',
    ((stackAndArray [0] [1]).mergeInto Method.root (stackAndArray [1] [0])).run fourInts =
      .ok ((), m') ∧
    fourInts.Appended Method.root ops m' ∧ Exec.Takes m'.graph .empty ops fourScalars σ' ∧
    (∀ v ∈ (stackAndArray [0] [1]).slots, fourScalars.Computed m'.graph v) ∧
    fourScalars.Has 0 (.int 1) ∧ fourScalars.Has 1 (.int 2) ∧
    σ'.Has 1 (.int 1) ∧ σ'.Has 0 (.int 1) := by
  refine ⟨_, [⟨.storeOver, [1, 0], none, []⟩, ⟨.storeOver, [0, 1], none, []⟩], _, rfl,
    ⟨rfl, ?_, ?_, fun _ _ h => h⟩, fun _ _ => rfl, ?_, rfl, rfl, rfl, rfl⟩
  · intro x hx
    cases hx
    rfl
  · intro x hx
    match x with
    | 0 => exact absurd rfl hx
    | 1 => rfl
    | x + 2 => rfl
  · intro v hv
    have hv : v ∈ [0, 1] := hv
    fin_cases hv
    · exact ⟨.int 1, rfl, by rintro _ ⟨⟩; rfl⟩
    · exact ⟨.int 2, rfl, by rintro _ ⟨⟩; rfl⟩

end VmState

/-! ## Lists of values -/

namespace Emit

/-- Storing values over as many others is a parallel copy, however the two lists share values.  The
    operations that were appended, run on any machine that has a scalar of its type for each source,
    succeed; then each target has the scalar that its source had before the first of them, and all
    other values of the method are as before. -/
theorem mergeValues_copies {sources targets : List ValueId}
    (hlen : sources.length = targets.length)
    (hvalues : ∀ v ∈ sources ++ targets, v < m.graph.values.size)
    (hrun : (mergeValues b (sources.zip targets)).run m = .ok ((), m')) :
    ∃ ops, m.Appended b ops m' ∧
      ∀ (g : Graph) (hosts : Bindings String HostFn) (σ : Machine), g.HasValues m' →
        m'.graph.values.size ≤ σ.values.size → (∀ v ∈ sources, σ.Computed g v) →
        ∃ σ', Exec.Takes g hosts ops σ σ' ∧
          (∀ i : Fin sources.length, ∃ a, σ.Has sources[i] a ∧ σ'.Has targets[i] a) ∧
          ∀ v < m.graph.values.size, v ∉ targets → σ'.values[v]? = σ.values[v]? := by
  obtain ⟨ops, happ, htakes⟩ := (mergeValues_carries (spans_zip hvalues) hrun).code
  refine ⟨ops, happ, fun g hosts σ hg hroom hcomp => ?_⟩
  obtain ⟨σ', hrun', -, hmoved, hkept⟩ := htakes g hosts σ hg hroom fun p hp =>
    hcomp p.1 (List.of_mem_zip hp).1
  refine ⟨σ', hrun', fun i => ?_, fun v hv hfree => hkept v hv fun hover => hfree ?_⟩
  · obtain ⟨a, ha, -⟩ := hcomp sources[i] (List.getElem_mem _)
    have hmem : (sources[i], targets[i]) ∈ sources.zip targets :=
      List.mem_iff_getElem.2 ⟨i, by simp [← hlen], List.getElem_zip⟩
    exact ⟨a, ha, (hmoved _ hmem).trans ha⟩
  · rw [← List.map_snd_zip hlen.symm.le]
    exact overwritten_subset hover

/-- A machine that has a scalar for each of four integers, and room for four more. -/
def roomyScalars : Machine :=
  { values := #[some (.int 1), some (.int 2), some (.int 3), some (.int 4), none, none, none,
      none] }

/-- Two values are exchanged, one of them is stored over a third twice, and one over itself. -/
theorem mergeValues_copies_exchange : ∃ m' ops σ',
    (mergeValues Method.root ([0, 1, 0, 0, 3].zip [1, 0, 2, 2, 3])).run VmState.fourInts =
      .ok ((), m') ∧
    VmState.fourInts.Appended Method.root ops m' ∧
    Exec.Takes m'.graph .empty ops roomyScalars σ' ∧
    σ'.Has 1 (.int 1) ∧ σ'.Has 0 (.int 2) ∧ σ'.Has 2 (.int 1) ∧ σ'.Has 3 (.int 4) := by
  have hcheck : passes ((mergeValues Method.root ([0, 1, 0, 0, 3].zip [1, 0, 2, 2, 3])).run
      VmState.fourInts) (fun r => decide (r.2.graph.values.items = Array.replicate 8 .int32)) =
        true := by decide +kernel
  obtain ⟨⟨_, m'⟩, hrun, htypes⟩ := of_passes_decide hcheck
  dsimp only at htypes
  have hcomp : ∀ v ∈ [0, 1, 0, 0, 3], roomyScalars.Computed m'.graph v := by
    intro v hv
    unfold Machine.Computed Graph.Fits
    simp only [Arena.get?, htypes]
    fin_cases hv <;> exact ⟨_, rfl, by rintro _ ⟨⟩; rfl⟩
  obtain ⟨ops, happ, hcopies⟩ := mergeValues_copies (by decide) (by decide) hrun
  obtain ⟨σ', htakes, hmoved, -⟩ := hcopies m'.graph .empty roomyScalars (fun _ _ h => h)
    (by rw [Arena.size, htypes]; decide) hcomp
  obtain ⟨a₁, h₁, h₁'⟩ := hmoved 0
  obtain ⟨a₀, h₀, h₀'⟩ := hmoved 1
  obtain ⟨a₂, h₂, h₂'⟩ := hmoved 2
  obtain ⟨a₃, h₃, h₃'⟩ := hmoved 4
  cases h₁; cases h₀; cases h₂; cases h₃
  exact ⟨m', ops, σ', hrun, happ, htakes, h₁', h₀', h₂', h₃'⟩

end Emit
end MethodGraph
