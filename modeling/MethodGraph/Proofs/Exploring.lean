import MethodGraph.Graph.Reach
/-!
  Following edges finds what is there.

  `explore` stops when its stack is empty or its rounds are used up.  What it has seen by then can
  be reached in any case; that it has seen everything needs the rounds to be enough.  The crux is a
  measure: the blocks on the stack and the blocks not yet seen together are one less after every
  round, because each block that gets on the stack is seen from then on.  So as many rounds as
  there are blocks empty the stack, and what was seen is closed under the edges.  One round less
  leaves at most one block on the stack, and then all blocks have been seen.

  `Entered` is what `reachesLast` decides: control gets into a part of the graph, at its entry or
  from outside, and on to a block without leaving the part.  A path from the entry of the graph
  that ends in the part has such a piece at its end (`Reaches.entered`).
-/

namespace MethodGraph.Graph

open List Arena Bool BitSet

variable {seen : BitSet} {last start x y : BlockId} {members xs : List BlockId}

variable {g : Graph} {next : BlockId → List BlockId}

theorem mem_succsOf : y ∈ g.succsOf x ↔ ∃ blk, g.block? x = some blk ∧ y ∈ blk.allSuccs := by
  unfold succsOf
  cases g.block? x <;> simp

theorem mem_predsOf : y ∈ g.predsOf x ↔ ∃ blk, g.block? x = some blk ∧ y ∈ blk.preds := by
  unfold predsOf
  cases g.block? x <;> simp

theorem succsOf_modifyBlock (x z : BlockId) (f : Block → Block) :
    (g.modifyBlock x f).succsOf z =
      if x = z then ((g.block? z).map fun blk => (f blk).allSuccs).getD [] else g.succsOf z := by
  simp only [succsOf, block?, modifyBlock, get?_modify]
  by_cases hx : x = z <;> cases g.blocks.get? z <;> simp [hx]

theorem predsOf_modifyBlock (x z : BlockId) (f : Block → Block) :
    (g.modifyBlock x f).predsOf z =
      if x = z then ((g.block? z).map fun blk => (f blk).preds).getD [] else g.predsOf z := by
  simp only [predsOf, block?, modifyBlock, get?_modify]
  by_cases hx : x = z <;> cases g.blocks.get? z <;> simp [hx]

section Modify

variable {x y z w : BlockId} {f f' : Block → Block}

/-- The edges after an edge from `x` to `y` was noted at both of its ends. -/
theorem mem_succsOf_modify
    (hsuccs : ∀ blk z, z ∈ (f blk).allSuccs ↔ z ∈ blk.allSuccs ∨ z = y)
    (hkeep : ∀ blk, (f' blk).allSuccs = blk.allSuccs) :
    w ∈ ((g.modifyBlock x f).modifyBlock y f').succsOf z ↔
      w ∈ g.succsOf z ∨ x = z ∧ w = y ∧ z < g.blocks.size := by
  have hsame : ((g.modifyBlock x f).modifyBlock y f').succsOf z =
      (g.modifyBlock x f).succsOf z := by
    rw [succsOf_modifyBlock, succsOf]
    cases (g.modifyBlock x f).block? z <;> simp [hkeep]
  rw [hsame, succsOf_modifyBlock, ← get?_isSome (a := g.blocks)]
  by_cases hz : x = z
  · cases hblk : g.blocks.get? z <;> simp [succsOf, block?, hz, hblk, hsuccs]
  · simp [hz]

theorem mem_predsOf_modify (hkeep : ∀ blk, (f blk).preds = blk.preds)
    (hpreds : ∀ blk z, z ∈ (f' blk).preds ↔ z ∈ blk.preds ∨ z = x) :
    w ∈ ((g.modifyBlock x f).modifyBlock y f').predsOf z ↔
      w ∈ g.predsOf z ∨ y = z ∧ w = x ∧ z < g.blocks.size := by
  have hsame : ∀ z, (g.modifyBlock x f).predsOf z = g.predsOf z := by
    intro z
    rw [predsOf_modifyBlock, predsOf]
    cases g.block? z <;> simp [hkeep]
  have hsize : (g.modifyBlock x f).blocks.size = g.blocks.size := size_modify ..
  rw [predsOf_modifyBlock, ← hsame, ← hsize, ← get?_isSome (a := (g.modifyBlock x f).blocks)]
  by_cases hz : y = z
  · cases hblk : (g.modifyBlock x f).blocks.get? z <;> simp [predsOf, block?, hz, hblk, hpreds]
  · simp [hz]

end Modify

/-! ## One round -/

theorem not_mem_empty (x : BlockId) : x ∉ BitSet.empty :=
  eq_false_iff.1 (contains_empty x)

/-- The number of blocks of a list that are not in a set. -/
def unseen (xs : List BlockId) (seen : BitSet) : Nat :=
  (xs.filter fun x => !seen.contains x).length

theorem unseen_insert {b : BlockId} (hnodup : xs.Nodup)
    (hb : b ∈ xs) (hnew : b ∉ seen) : unseen xs (seen.insert b) + 1 = unseen xs seen := by
  have hnew' : seen.contains b = false := eq_false_iff.2 hnew
  unfold unseen
  induction xs with
  | nil => exact absurd hb not_mem_nil
  | cons x xs ih => grind [filter_congr, BitSet.contains_insert]

theorem unseen_of_none (h : ∀ x ∈ xs, x ∉ seen) : unseen xs seen = xs.length := by
  have hall : (xs.filter fun x => !seen.contains x) = xs :=
    filter_eq_self.2 fun x hx => by rw [eq_false_iff.2 (h x hx)]; rfl
  unfold unseen
  rw [hall]

theorem mem_of_unseen_eq_zero (h : unseen xs seen = 0) (hx : x ∈ xs) : x ∈ seen := by
  have hnot := filter_eq_nil_iff.1 (eq_nil_of_length_eq_zero h) x hx
  rw [not_eq_true, not_eq_false'] at hnot
  exact hnot

theorem discover_cons (b : BlockId) (bs stack : List BlockId) (seen : BitSet) :
    discover (b :: bs) (stack, seen) =
      discover bs (if b ∈ seen then stack else b :: stack, seen.insert b) := by
  show discover bs (if (seen.add b).1 = true then b :: stack else stack, seen.insert b) = _
  rw [fst_add]
  by_cases hb : b ∈ seen
  · have hb' : seen.contains b = true := hb
    rw [hb', if_pos hb]
    rfl
  · have hb' : seen.contains b = false := eq_false_iff.2 hb
    rw [hb', if_neg hb]
    rfl

theorem mem_discover_seen (bs : List BlockId) : ∀ (stack : List BlockId)
    (seen : BitSet), x ∈ (discover bs (stack, seen)).2 ↔ x ∈ seen ∨ x ∈ bs := by
  induction bs with
  | nil => simp [discover]
  | cons b bs ih => grind [discover_cons, mem_insert]

theorem mem_discover_stack (bs : List BlockId) : ∀ (stack : List BlockId)
    (seen : BitSet), x ∈ (discover bs (stack, seen)).1 ↔ x ∈ stack ∨ x ∈ bs ∧ x ∉ seen := by
  induction bs with
  | nil => simp [discover]
  | cons b bs ih => grind [discover_cons, mem_insert]

/-- A block that gets on the stack is seen from then on. -/
theorem discover_measure (hnodup : xs.Nodup) (bs : List BlockId)
    (hbs : ∀ b ∈ bs, b ∈ xs) : ∀ (stack : List BlockId) (seen : BitSet),
      (discover bs (stack, seen)).1.length + unseen xs (discover bs (stack, seen)).2 =
        stack.length + unseen xs seen := by
  induction bs with
  | nil => exact fun _ _ => rfl
  | cons b bs ih =>
    intro stack seen
    rw [discover_cons, ih fun c hc => hbs c (mem_cons_of_mem _ hc)]
    by_cases hb : b ∈ seen
    · have hsame : unseen xs (seen.insert b) = unseen xs seen := by
        unfold unseen
        congr 1
        refine filter_congr fun y _ => ?_
        rw [contains_insert]
        by_cases hy : y = b
        · subst hy
          have hb' : seen.contains y = true := hb
          rw [hb', Bool.or_true]
        · rw [decide_eq_false hy, Bool.false_or]
      rw [if_pos hb, hsame]
    · grind [unseen_insert, mem_cons_self]

/-! ## All rounds -/

/-- Whatever edges keep holds of all that is seen. -/
theorem explore_sound {R : BlockId → Prop} (hR : ∀ x y, R x → y ∈ next x → R y) : ∀ (fuel : Nat)
    (stack : List BlockId) (seen : BitSet), (∀ x ∈ stack, R x) → (∀ x, x ∈ seen → R x) →
      ∀ x, x ∈ explore next fuel (stack, seen) → R x := by
  intro fuel
  induction fuel with
  | zero => exact fun _ _ _ hseen => hseen
  | succ fuel ih =>
    intro stack seen hstack hseen
    cases stack with
    | nil => exact hseen
    | cons b stack => grind [mem_discover_stack, mem_discover_seen, explore]

/-- With rounds for all blocks but one, the edges from all that is seen lead to what is seen. -/
theorem explore_closed (hnodup : xs.Nodup)
    (hnext : ∀ x ∈ xs, ∀ y ∈ next x, y ∈ xs) : ∀ (fuel : Nat) (stack : List BlockId)
      (seen : BitSet), stack.length + unseen xs seen ≤ fuel + 1 → (∀ x ∈ stack, x ∈ xs) →
      (∀ x, x ∈ seen → x ∈ xs) → (∀ x, x ∈ seen → x ∈ stack ∨ ∀ y ∈ next x, y ∈ seen) →
      (∀ x, x ∈ seen → x ∈ explore next fuel (stack, seen)) ∧
        ∀ x, x ∈ explore next fuel (stack, seen) →
          ∀ y ∈ next x, y ∈ explore next fuel (stack, seen) := by
  intro fuel
  induction fuel with
  | zero => grind [mem_of_unseen_eq_zero, explore]
  | succ fuel ih =>
    intro stack seen hfuel hstack hseen hinv
    cases stack with
    | nil => exact ⟨fun _ hx => hx, fun x hx => (hinv x hx).resolve_left not_mem_nil⟩
    | cons b stack =>
      have hb := hnext b (hstack b mem_cons_self)
      have hmeasure := discover_measure hnodup (next b) hb stack seen
      rw [length_cons] at hfuel
      obtain ⟨hkeep, hclosed⟩ := ih (discover (next b) (stack, seen)).1
        (discover (next b) (stack, seen)).2 (by omega)
        (fun x hx => by
          rcases (mem_discover_stack ..).1 hx with hx | ⟨hx, -⟩
          · exact hstack x (mem_cons_of_mem _ hx)
          · exact hb x hx)
        (fun x hx => ((mem_discover_seen ..).1 hx).elim (hseen x) (hb x)) fun x hx => by
          have hgrow : ∀ y, y ∈ seen → y ∈ (discover (next b) (stack, seen)).2 :=
            fun y hy => (mem_discover_seen ..).2 (.inl hy)
          by_cases hold : x ∈ seen
          · grind [mem_discover_seen, mem_discover_stack]
          · grind [mem_discover_seen, mem_discover_stack]
      exact ⟨fun x hx => hkeep x ((mem_discover_seen ..).2 (.inl hx)), hclosed⟩

/-- What is found to be reachable is reachable. -/
theorem reaches_of_mem_reachable (h : x ∈ g.reachable) : g.Reaches x := by
  refine explore_sound (fun _ _ => .step) _ _ _ (fun y hy => ?_) (fun y hy => ?_) x h
  · rw [mem_singleton.1 hy]
    exact .entry
  · rcases mem_insert.1 hy with rfl | hy
    · exact .entry
    · have hnone : (withCapacity g.blocks.size).contains y = true := hy
      rw [contains_withCapacity] at hnone
      cases hnone

/-- The entry is found to be reachable, and so are the successors of what is, if no edge leads out of
    some blocks with the entry among them. -/
theorem reachable_saturated (hnodup : xs.Nodup) (hentry : entry ∈ xs)
    (hnext : ∀ x ∈ xs, ∀ y ∈ g.succsOf x, y ∈ xs) (hsize : xs.length ≤ g.blocks.size + 1) :
    entry ∈ g.reachable ∧ ∀ x, x ∈ g.reachable → ∀ y ∈ g.succsOf x, y ∈ g.reachable := by
  let start : BitSet := (withCapacity g.blocks.size).insert entry
  have hnone : ∀ x, x ∉ withCapacity g.blocks.size := fun x =>
    eq_false_iff.1 (contains_withCapacity ..)
  have hstart : ∀ x, x ∈ start → x = entry := fun x hx =>
    (mem_insert.1 hx).resolve_right (hnone x)
  have hunseen : unseen xs start + 1 = xs.length := by
    rw [unseen_insert hnodup hentry (hnone entry), unseen_of_none fun x _ => hnone x]
  obtain ⟨hkeep, hclosed⟩ := explore_closed hnodup hnext g.blocks.size [entry] start
    (by rw [length_singleton]; omega) (fun x hx => mem_singleton.1 hx ▸ hentry)
    (fun x hx => hstart x hx ▸ hentry) fun x hx => .inl (mem_singleton.2 (hstart x hx))
  exact ⟨hkeep entry (mem_insert.2 (.inl rfl)), hclosed⟩

/-! ## Parts of a graph -/

/-- Control can get into a part of the graph, at `start` or from outside, and from there to a block
    without leaving the part. -/
inductive Entered (g : Graph) (members : List BlockId) (start : BlockId) : BlockId → Prop where
  | start {x : BlockId} (hx : x ∈ members)
    (h : x = start ∨ ∃ z ∈ g.predsOf x, z ∉ members) : Entered g members start x
  | step {x y : BlockId} (h : Entered g members start x) (hy : y ∈ members)
    (hxy : y ∈ g.succsOf x) : Entered g members start y

theorem Reaches.eq_entry_or (h : g.Reaches x) : x = Graph.entry ∨ ∃ a, x ∈ g.succsOf a := by
  cases h with
  | entry => exact .inl rfl
  | step _ hab => exact .inr ⟨_, hab⟩

/-- Control that reaches a block of a part has got into the part. -/
theorem Reaches.entered (hpreds : ∀ a b, b ∈ g.succsOf a → a ∈ g.predsOf b)
    (hstart : Graph.entry ∈ members → start = Graph.entry) (h : g.Reaches x) (hx : x ∈ members) :
    Entered g members start x := by
  induction h with
  | entry => exact .start hx (.inl (hstart hx).symm)
  | @step a b _ hab ih =>
    by_cases ha : a ∈ members
    · exact .step (ih ha) hx hab
    · exact .start hx (.inr ⟨a, hpreds a b hab, ha⟩)

/-- Control gets no further in a part of the graph that has no more edges into its blocks. -/
theorem Entered.mono {g' : Graph} (hsuccs : ∀ a, ∀ b ∈ members, b ∈ g.succsOf a → b ∈ g'.succsOf a)
    (hpreds : ∀ b ∈ members, ∀ a ∈ g.predsOf b, a ∈ g'.predsOf b)
    (h : Entered g members start x) : Entered g' members start x := by
  induction h with
  | @start x hx h =>
    refine .start hx (h.imp id ?_)
    rintro ⟨z, hz, hout⟩
    exact ⟨z, hpreds x hx z hz, hout⟩
  | step _ hy hxy ih => exact .step ih hy (hsuccs _ _ hy hxy)

theorem mem_foldl_insert (xs : List BlockId) : ∀ s : BitSet,
    x ∈ xs.foldl BitSet.insert s ↔ x ∈ s ∨ x ∈ xs := by
  induction xs with
  | nil => simp
  | cons y xs ih =>
    intro s
    rw [foldl_cons, ih, mem_insert, mem_cons]
    exact or_assoc.trans or_left_comm

variable (hlast : members.getLast? = some last) (hbound : ∀ x ∈ members, x < g.blocks.size)

include hlast hbound in
/-- If control gets to the last block of a part, then this is found. -/
theorem Entered.reachesLast (h : Entered g members start last)
    : g.reachesLast start members = true := by
  unfold Graph.reachesLast
  rw [hlast]
  let inside := members.foldl insert .empty
  have hinside : ∀ x, inside.contains x = true ↔ x ∈ members := by
    intro x
    exact (mem_foldl_insert members .empty).trans (or_iff_right (not_mem_empty x))
  let starts := members.filter (g.isEntered inside start)
  have hstarts : ∀ x ∈ starts, x ∈ range g.blocks.size :=
    fun x hx => mem_range.2 (hbound x (mem_filter.1 hx).1)
  have hmeasure := discover_measure nodup_range starts hstarts [] .empty
  rw [unseen_of_none fun x _ => not_mem_empty x, length_nil, Nat.zero_add,
    length_range] at hmeasure
  have hstack : ∀ x, x ∈ (discover starts ([], .empty)).2 →
      x ∈ (discover starts ([], .empty)).1 := by
    grind [mem_discover_seen, not_mem_empty, mem_discover_stack]
  have hnext : ∀ x ∈ range g.blocks.size,
      ∀ y ∈ (g.succsOf x).filter inside.contains, y ∈ range g.blocks.size :=
    fun _ _ y hy => mem_range.2 (hbound y ((hinside y).1 (mem_filter.1 hy).2))
  have hfound : ∀ x, x ∈ (discover starts ([], .empty)).2 → x ∈ range g.blocks.size :=
    fun x hx => hstarts x (((mem_discover_seen ..).1 hx).resolve_left (not_mem_empty x))
  obtain ⟨hkeep, hclosed⟩ := explore_closed nodup_range hnext g.blocks.size
    (discover starts ([], .empty)).1 (discover starts ([], .empty)).2
    (Nat.le_succ_of_le (Nat.le_of_eq hmeasure))
    (fun x hx => hstarts x
      (((mem_discover_stack ..).1 hx).resolve_left not_mem_nil).1)
    hfound fun x hx => .inl (hstack x hx)
  show last ∈ explore _ g.blocks.size (discover starts ([], .empty))
  clear hlast
  induction h with
  | @start x hx h =>
    refine hkeep x ((mem_discover_seen ..).2 (.inr (mem_filter.2 ⟨hx, ?_⟩)))
    show (decide (x = start) || (g.predsOf x).any fun z => !inside.contains z) = true
    rw [or_eq_true, decide_eq_true_eq, any_eq_true]
    refine h.imp id ?_
    rintro ⟨z, hz, hout⟩
    refine ⟨z, hz, ?_⟩
    rw [not_eq_true', eq_false_iff]
    exact fun hin => hout ((hinside z).1 hin)
  | step _ hy hxy ih =>
    exact hclosed _ ih _ (mem_filter.2 ⟨hxy, (hinside _).2 hy⟩)

include hlast hbound in
/-- Control gets to the last block of a part exactly if this is found. -/
theorem reachesLast_iff : g.reachesLast start members = true ↔ Entered g members start last := by
  refine ⟨fun h => ?_, fun h => h.reachesLast hlast hbound⟩
  unfold reachesLast at h
  rw [hlast] at h
  have hinside : ∀ x, (members.foldl insert .empty).contains x = true ↔ x ∈ members :=
    fun x => (mem_foldl_insert members .empty).trans (or_iff_right (not_mem_empty x))
  have hstarts : ∀ x ∈ members.filter (g.isEntered (members.foldl insert .empty) start),
      Entered g members start x := by
    intro x hx
    obtain ⟨hx, hentered⟩ := mem_filter.1 hx
    refine .start hx ?_
    rw [isEntered, or_eq_true, decide_eq_true_eq, any_eq_true] at hentered
    refine hentered.imp id ?_
    rintro ⟨z, hz, hout⟩
    refine ⟨z, hz, fun hin => ?_⟩
    rw [(hinside z).2 hin] at hout
    cases hout
  refine explore_sound (R := Entered g members start) (fun x y hx hy => ?_) _ _ _
    (fun x hx => hstarts x (((mem_discover_stack ..).1 hx).resolve_left not_mem_nil).1)
    (fun x hx => hstarts x (((mem_discover_seen ..).1 hx).resolve_left (not_mem_empty x))) last h
  obtain ⟨hy, hin⟩ := mem_filter.1 hy
  exact .step hx ((hinside y).1 hin) hy

end MethodGraph.Graph
