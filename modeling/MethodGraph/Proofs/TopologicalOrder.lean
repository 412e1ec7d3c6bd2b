import MethodGraph.Proofs.NaturalLoops
/-!
  Edges against the order in which a walk leaves the blocks.

  When a walk is done with a block it has been at all its successors.  A successor that is done
  later was begun before and is still open, so the walk has come from there: the edge closes a
  cycle (`Walks.path_back`).  That is what makes the reverse of the order a topological one where
  there are no cycles.

  The induction is on the walk.  What it finds from a block stands behind that block, and what it
  finds afterwards is no successor of either, because a walk that is over has seen all successors
  of what it found.
-/

namespace MethodGraph

open List Graph

variable {g : Graph} {x y z : BlockId} {ss : List BlockId}

namespace Graph

/-! ## Paths -/

theorem Path.head (hy : y ∈ g.succsOf x) (h : g.Path y z) : g.Path x z := by
  induction h with
  | refl => exact .step (.refl x) hy
  | step _ hc ih => exact .step ih hc

/-- What a walk adds can be reached from where it was asked to go. -/
theorem Added.path {new : List BlockId} {seen seen' : BitSet} (h : Added g ss seen seen' new) :
    ∀ (k : Nat) (x : BlockId) (l r : List BlockId), l.length = k → new = l ++ x :: r →
      ∃ s ∈ ss, g.Path s x := by
  intro k
  induction k using Nat.strongRecOn with
  | ind k ih =>
    rintro x l r rfl hnew
    rcases h.parent hnew with hx | ⟨p, hp, hx⟩
    · exact ⟨x, hx, .refl x⟩
    · obtain ⟨l₁, l₂, rfl⟩ := append_of_mem hp
      obtain ⟨s, hs, hpath⟩ := ih l₁.length (by simp) p l₁ (l₂ ++ x :: r) rfl (by simp [hnew])
      exact ⟨s, hs, .step hpath hx⟩

/-- An edge to a block that is done later, or to the block itself, closes a cycle. -/
theorem Walks.path_back {st st' : BitSet × List BlockId} (h : Walks g ss st st') :
    ∀ {new l r : List BlockId} {x y : BlockId}, st'.2 = new ++ st.2 →
      new = l ++ y :: r → x ∈ y :: r → y ∈ g.succsOf x → g.Path y x := by
  induction h with
  | nil st =>
    intro new l r x y hdone hnew
    obtain rfl : new = [] := by simpa using hdone
    simp at hnew
  | old _ _ ih => exact ih
  | @new s ss done seen st₁ st hs hwalk₁ hwalk₂ ih₁ ih₂ =>
    intro new l r x y hdone hnew hx hy
    obtain ⟨new₁, hdone₁, h₁⟩ := hwalk₁.added
    obtain ⟨new₂, hdone₂, h₂⟩ := hwalk₂.added
    obtain rfl : new = new₂ ++ s :: new₁ := by
      have hall : new ++ done = (new₂ ++ s :: new₁) ++ done := by
        rw [← hdone, hdone₂, hdone₁]
        simp
      exact append_cancel_right hall
    -- all successors of `s` and of what is found from it are seen when the walk is done with `s`
    have hseen : ∀ {x}, x ∈ s :: new₁ → y ∈ g.succsOf x → y ∈ st₁.1 := by
      intro x hx hy
      rcases mem_cons.1 hx with rfl | hx
      · exact h₁.asked hy
      · exact h₁.closed hx hy
    have hpath : ∀ {x}, x ∈ s :: new₁ → g.Path s x := by
      intro x hx
      rcases mem_cons.1 hx with rfl | hx
      · exact .refl x
      · obtain ⟨l₁, r₁, hsplit⟩ := append_of_mem hx
        obtain ⟨c, hc, hpath⟩ := h₁.path _ x l₁ r₁ rfl hsplit
        exact hpath.head hc
    rcases append_eq_append_iff.1 hnew with ⟨l', rfl, hl'⟩ | ⟨r', hr', hrest⟩
    · rcases cons_eq_append_iff.1 hl' with ⟨-, hsame⟩ | ⟨l'', rfl, hnew₁⟩
      · obtain ⟨rfl, rfl⟩ := cons.inj hsame
        exact hpath hx
      · exact ih₁ hdone₁ hnew₁ hx hy
    · rcases cons_eq_append_iff.1 hrest with ⟨-, hsame⟩ | ⟨r'', rfl, hr⟩
      · obtain ⟨rfl, rfl⟩ := cons.inj hsame
        exact hpath hx
      · by_cases hx₂ : x ∈ y :: r''
        · exact ih₂ hdone₂ hr' hx₂ hy
        · have hx₁ : x ∈ s :: new₁ := by grind
          exact absurd (hseen hx₁ hy) (h₂.fresh (by simp [hr']))

/-! ## Numbers -/

theorem Paired.mem_reachable (hg : g.Paired) : x ∈ g.reachable ↔ g.Reaches x := by
  refine ⟨reaches_of_mem_reachable, fun h => ?_⟩
  obtain ⟨hentry, hsucc⟩ := reachable_saturated nodup_range (mem_range.2 hg.nonempty)
    (fun _ _ y hy => mem_range.2 (hg.lt_size hy)) (by simp)
  induction h with
  | entry => exact hentry
  | step _ hb ih => exact hsucc _ ih _ hb

theorem Paired.mem_seen (hg : g.Paired) : x ∈ g.order.seen ↔ g.Reaches x := by
  obtain ⟨new, hrpo, hadded⟩ := hg.walks_order.added
  obtain rfl : g.order.rpo = new := by simpa using hrpo
  rw [hadded.mem, ← hg.fits.mem]
  exact or_iff_right (Bool.eq_false_iff.1 (BitSet.contains_withCapacity _ x))

/-- Writing numbers keeps the places for them. -/
theorem size_le_numbers (xs : List (BlockId × Nat)) (t : SideTable Nat) :
    t.items.size ≤ (xs.foldl (fun t p => t.set p.1 p.2) t).items.size := by
  induction xs generalizing t with
  | nil => exact Nat.le_refl _
  | cons p xs ih =>
    refine Nat.le_trans ?_ (ih (t.set p.1 p.2))
    simp only [SideTable.set, SideTable.reach, Array.size_setIfInBounds]
    split
    · exact Nat.le_refl _
    · simp

/-- A block has a number exactly if it can be reached. -/
theorem Paired.number?_eq (hg : g.Paired) :
    g.order.number? x = if x ∈ g.reachable then some (g.order.number x) else none := by
  have hcontains : g.order.seen.contains x = true ↔ x ∈ g.reachable :=
    hg.mem_seen.trans hg.mem_reachable.symm
  unfold Order.number Order.number?
  simp only [hcontains]
  split
  · next hx =>
    have hlt : x < g.order.numbers.items.size := by
      refine Nat.lt_of_lt_of_le ?_ (size_le_numbers _ (SideTable.filled g.blocks.size))
      simpa [SideTable.filled] using hg.reaches_lt (hg.mem_reachable.1 hx)
    rw [SideTable.get?, Array.getElem?_eq_getElem hlt]
    rfl
  · rfl

/-- Numbers count from the end of the order. -/
theorem Paired.number?_getElem (hg : g.Paired) {i : Nat} (hi : g.order.rpo[i]? = some x) :
    g.order.number? x = some (g.order.length - 1 - i) := by
  obtain ⟨hlt, hget⟩ := List.getElem?_eq_some_iff.1 hi
  have hsplit : g.order.rpo = g.order.rpo.take i ++ x :: g.order.rpo.drop (i + 1) := by
    rw [← hget, ← drop_eq_getElem_cons hlt, take_append_drop]
  have hx : x ∈ g.reachable := hg.mem_reachable.2 (hg.fits.mem.1 (mem_of_getElem? hi))
  rw [hg.number?_eq, if_pos hx, hg.fits.number hsplit, length_drop, Order.length]
  congr 1
  omega

theorem Paired.head?_rpo (hg : g.Paired) : g.order.rpo.head? = some entry := by
  have hentry : entry ∈ g.order.rpo := hg.fits.mem.2 .entry
  cases hrpo : g.order.rpo with
  | nil => simp [hrpo] at hentry
  | cons x r =>
    rcases hg.fits.parent (l := []) hrpo with rfl | ⟨p, hp, -⟩
    · rfl
    · cases hp

/-- A reachable block but the entry has a predecessor that is done later. -/
theorem Paired.exists_pred (hg : g.Paired) (hx : g.Reaches x) (hne : x ≠ entry) :
    ∃ p ∈ g.predsOf x, g.Reaches p ∧ g.order.number x < g.order.number p := by
  obtain ⟨l, r, hrpo⟩ := append_of_mem (hg.fits.mem.2 hx)
  obtain ⟨p, hp, hedge⟩ := (hg.fits.parent hrpo).resolve_left hne
  refine ⟨p, hg.mem_preds.1 hedge, hg.fits.mem.1 ?_, hg.fits.number_lt_of_mem hrpo hp⟩
  rw [hrpo]
  exact mem_append_left _ hp

/-- An edge to a block that is not done earlier closes a cycle. -/
theorem Paired.path_of_number_le (hg : g.Paired) (hx : g.Reaches x) (hy : y ∈ g.succsOf x)
    (hle : g.order.number x ≤ g.order.number y) : g.Path y x := by
  obtain ⟨l, r, hrpo⟩ := append_of_mem (hg.fits.mem.2 (.step hx hy))
  refine hg.walks_order.path_back (append_nil _).symm hrpo ?_ hy
  have hmem : x ∈ l ++ y :: r := hrpo ▸ hg.fits.mem.2 hx
  refine (mem_append.1 hmem).resolve_left fun hl => ?_
  exact absurd (hg.fits.number_lt_of_mem hrpo hl) (Nat.not_lt.2 hle)

end Graph

/-- The walk over a graph comes to an end.  Its order has the reachable blocks, each once and the
    entry first, and the blocks are numbered from the end of it.  Every other block has a
    predecessor with a greater number, and an edge to a block with a number that is not less closes
    a cycle; without cycles all edges lead on in the order. -/
theorem Graph.Edged.order_postorder (h : g.Edged) :
    Walks g [entry] (BitSet.withCapacity g.blocks.size, []) (g.order.seen, g.order.rpo) ∧
    g.order.rpo.Nodup ∧ (∀ x, x ∈ g.order.rpo ↔ x ∈ g.reachable) ∧
    g.order.rpo.head? = some entry ∧
    (∀ i x, g.order.rpo[i]? = some x → g.order.number? x = some (g.order.length - 1 - i)) ∧
    (∀ x, x ∉ g.reachable → g.order.number? x = none) ∧
    (∀ x, x ∈ g.reachable → x ≠ entry → ∃ p ∈ g.predsOf x, ∃ m n, g.order.number? p = some m ∧
      g.order.number? x = some n ∧ n < m) ∧
    (∀ x y m n, y ∈ g.succsOf x → g.order.number? x = some m → g.order.number? y = some n →
      m ≤ n → g.Path y x) ∧
    ((∀ x y, x ∈ g.reachable → y ∈ g.succsOf x → ¬ g.Path y x) →
      ∀ (i j : Nat) (x y : BlockId), g.order.rpo[i]? = some x → g.order.rpo[j]? = some y →
        y ∈ g.succsOf x → i < j) := by
  have hg := h.paired
  obtain ⟨new, hrpo, hadded⟩ := hg.walks_order.added
  obtain rfl : g.order.rpo = new := by simpa using hrpo
  have hsome : ∀ {x n}, g.order.number? x = some n → g.Reaches x ∧ g.order.number x = n := by
    intro x n hn
    rw [hg.number?_eq] at hn
    split at hn
    · next hx => exact ⟨hg.mem_reachable.1 hx, Option.some.inj hn⟩
    · cases hn
  have hback : ∀ x y m n, y ∈ g.succsOf x → g.order.number? x = some m →
      g.order.number? y = some n → m ≤ n → g.Path y x := by
    intro x y m n hy hm hn hle
    obtain ⟨hx, rfl⟩ := hsome hm
    obtain ⟨-, rfl⟩ := hsome hn
    exact hg.path_of_number_le hx hy hle
  refine ⟨hg.walks_order, hadded.nodup, fun x => hg.fits.mem.trans hg.mem_reachable.symm,
    hg.head?_rpo, fun i x => hg.number?_getElem, fun x hx => by rw [hg.number?_eq, if_neg hx],
    fun x hx hne => ?_, hback, fun hacyclic i j x y hi hj hy => ?_⟩
  · obtain ⟨p, hp, hreach, hlt⟩ := hg.exists_pred (hg.mem_reachable.1 hx) hne
    refine ⟨p, hp, _, _, ?_, ?_, hlt⟩
    · rw [hg.number?_eq, if_pos (hg.mem_reachable.2 hreach)]
    · rw [hg.number?_eq, if_pos hx]
  · have hx : x ∈ g.reachable := hg.mem_reachable.2 (hg.fits.mem.1 (mem_of_getElem? hi))
    by_contra hle
    refine hacyclic x y hx hy (hback x y _ _ hy (hg.number?_getElem hi) (hg.number?_getElem hj) ?_)
    omega

/-- A case of it: block 3 leads back to block 2, which is done later, and block 4 has no number. -/
theorem order_postorder_strayed : ∃ g, strayed 3 = .ok g ∧ g.Edged ∧
    g.order.rpo = [0, 2, 3, 1] ∧ 4 ∉ g.reachable ∧ g.order.number? 4 = none ∧ g.Path 2 3 := by
  have hcheck : passes (strayed 3) (fun g => decide (g.order.rpo = [0, 2, 3, 1] ∧
      2 ∈ g.succsOf 3 ∧ 4 ∉ g.reachable ∧ g.order.number? 2 = some 2 ∧
      g.order.number? 3 = some 1)) = true := by
    decide +kernel
  obtain ⟨g, hg, hedged, hrpo, hedge, h4, hn2, hn3⟩ := strayed_passes hcheck
  obtain ⟨-, -, -, -, -, hnone, -, hback, -⟩ := hedged.order_postorder
  exact ⟨g, hg, hedged, hrpo, h4, hnone 4 h4, hback 3 2 1 2 hedge hn3 hn2 (by decide)⟩

end MethodGraph
