import MethodGraph.Graph.Loops
import MethodGraph.Proofs.Dominance
/-!
  Natural loops.

  `Around g h x u` is a path from `x` to `u` that does not pass through `h`.  Taking blocks into a
  body comes to an end because every block brings its predecessors once (`owed` counts those still
  to come).  A loop is `Natural` when its body holds the header and what leads to a source around
  the header; one back edge after the other keeps it so, and in the end the sources of a loop are
  the sources of all back edges to its header (`Found`).

  The search goes against the edges and does not ask whether a block can be reached.  So blocks
  that cannot be reached get into a body where an edge leads from them to a block of it that is not
  the header, and only there.
-/

namespace MethodGraph

open List Graph

variable {g : Graph} {h h' u x y : BlockId} {body : List BlockId} {es : List (BlockId × BlockId)}

namespace Graph

/-! ## Paths around a block -/

/-- A path along normal and exceptional edges that does not pass through `h`. -/
inductive Around (g : Graph) (h : BlockId) : BlockId → BlockId → Prop where
  | refl {u : BlockId} : u ≠ h → Around g h u u
  | step {x y u : BlockId} : x ≠ h → y ∈ g.succsOf x → Around g h y u → Around g h x u

/-- A normal edge from `u` to a block that is on every path to `u`. -/
def BackEdge (g : Graph) (u h : BlockId) : Prop :=
  (∃ blk, g.block? u = some blk ∧ h ∈ blk.succs) ∧ g.Dominates h u

namespace Around

theorem ne (p : g.Around h x u) : x ≠ h := by
  cases p <;> assumption

theorem trans (p : g.Around h x y) (q : g.Around h y u) : g.Around h x u := by
  induction p with
  | refl _ => exact q
  | step hx hs _ ih => exact .step hx hs (ih q)

theorem ne_last (p : g.Around h x u) : u ≠ h := by
  induction p <;> assumption

theorem trans_step (p : g.Around h x y) (hs : u ∈ g.succsOf y) (hu : u ≠ h) : g.Around h x u :=
  p.trans (.step p.ne_last hs (.refl hu))

/-- A dominator that is not on the way from `x` is on every way to `x`. -/
theorem dominates (p : g.Around h x u) (hu : g.Dominates h u) (hx : g.Reaches x) :
    g.Dominates h x := by
  induction p with
  | refl _ => exact hu
  | step _ hs p ih => exact (ih hu (.step hx hs)).of_succ hx hs p.ne.symm

end Around

theorem BackEdge.mem_succsOf (e : g.BackEdge u h) : h ∈ g.succsOf u := by
  obtain ⟨⟨blk, hblk, hh⟩, -⟩ := e
  exact Graph.mem_succsOf.2 ⟨blk, hblk, mem_append_left _ hh⟩

theorem BackEdge.reaches (e : g.BackEdge u h) : g.Reaches h :=
  .step e.2.1 e.mem_succsOf

end Graph

namespace Loop

/-! ## Bodies -/

/-- How many predecessors the blocks of a list bring that are not in a body. -/
def owed (g : Graph) (body xs : List BlockId) : Nat :=
  total (xs.map fun b => if b ∈ body then 0 else (g.predsOf b).length)

theorem owed_take {xs : List BlockId} (hx : x ∉ body) (hxs : xs.Nodup) :
    owed g (body ++ [x]) xs + (if x ∈ xs then (g.predsOf x).length else 0) = owed g body xs := by
  induction xs with
  | nil => rfl
  | cons y xs ih =>
    simp only [owed, map_cons, total_cons] at ih ⊢
    grind

theorem owed_le (body xs : List BlockId) :
    owed g body xs ≤ total (xs.map fun b => (g.predsOf b).length) := by
  induction xs with
  | nil => exact Nat.le_refl _
  | cons x xs ih =>
    simp only [owed, map_cons, total_cons] at ih ⊢
    split <;> omega

theorem length_preds_le (hg : g.Paired) (hx : x ∉ body) :
    (g.predsOf x).length + owed g (body ++ [x]) g.blocks.ids ≤ owed g body g.blocks.ids := by
  have howed := owed_take (g := g) hx (nodup_range (n := g.blocks.size))
  unfold Arena.ids
  split at howed
  · omega
  · next hlt =>
    -- a block that is not there has no predecessors
    have hnil : g.predsOf x = [] := eq_nil_iff_forall_not_mem.2 fun y hy =>
      hlt (mem_range.2 (hg.lt_size (hg.mem_preds.2 hy)))
    rw [hnil, length_nil]
    omega

/-- What a body becomes when the blocks of a queue are taken in. -/
structure Grown (g : Graph) (h : BlockId) (queue body body' : List BlockId) : Prop where
  nodup : body'.Nodup
  mem_of_body {x : BlockId} : x ∈ body → x ∈ body'
  mem_of_queue {x : BlockId} : x ∈ queue → x ∈ body'
  closed {x y : BlockId} : y ∈ body' → y ≠ h → x ∈ g.predsOf y → x ∈ body'
  origin {x : BlockId} : x ∈ body' → x ∈ body ∨ ∃ u ∈ queue, g.Around h x u

/-- The invariant is that a predecessor of a block of the body that is not the header is in the
    body or in the queue. -/
theorem grow_grown (hg : g.Paired) (fuel : Nat) (queue body : List BlockId)
    (hfuel : queue.length + owed g body g.blocks.ids ≤ fuel) (hh : h ∈ body) (hnodup : body.Nodup)
    (hclosed : ∀ {x y}, y ∈ body → y ≠ h → x ∈ g.predsOf y → x ∈ body ∨ x ∈ queue) :
    Grown g h queue body (grow g fuel queue body) := by
  induction fuel generalizing queue body with
  | zero =>
    obtain rfl : queue = [] := length_eq_zero_iff.1 (by omega)
    exact ⟨hnodup, id, nofun, by simpa [grow] using @hclosed, .inl⟩
  | succ fuel ih =>
    cases queue with
    | nil => exact ⟨hnodup, id, nofun, by simpa [grow] using @hclosed, .inl⟩
    | cons b queue =>
      rw [length_cons] at hfuel
      rw [grow]
      split
      · next hb =>
        obtain ⟨hnodup, hbody, hqueue, hclosed, horigin⟩ :=
          ih queue body (by omega) hh hnodup (by grind)
        exact ⟨hnodup, hbody, by grind, hclosed, by grind⟩
      · next hb =>
        have howed := length_preds_le hg (by simpa using hb)
        have hne : b ≠ h := by grind
        obtain ⟨hnodup, hbody, hqueue, hclosed, horigin⟩ :=
          ih (queue ++ g.predsOf b) (body ++ [b]) (by rw [length_append]; omega)
            (mem_append_left _ hh) (by grind) (by grind)
        refine ⟨hnodup, by grind, by grind, hclosed, fun hx => ?_⟩
        have hstep : ∀ {x u}, u ∈ g.predsOf b → g.Around h x u → g.Around h x b :=
          fun hu p => p.trans_step (hg.mem_preds.2 hu) hne
        have hself : g.Around h b b := .refl hne
        grind

theorem Grown.mem_of_around {queue body' : List BlockId} (hgrown : Grown g h queue body body')
    (hg : g.Paired) (p : g.Around h x u) (hu : u ∈ body') : x ∈ body' := by
  induction p with
  | refl _ => exact hu
  | step _ hs p ih => exact hgrown.closed (ih hu) p.ne (hg.mem_preds.1 hs)

/-! ## Loops -/

/-- The body of a loop holds its header and what leads to one of its sources around the header. -/
structure Natural (g : Graph) (l : Loop) : Prop where
  sources : l.sources.Nodup
  nodup : l.body.Nodup
  mem {x : BlockId} : x ∈ l.body ↔ x = l.header ∨ ∃ u ∈ l.sources, g.Around l.header x u

variable {l : Loop} {ls : List Loop}

@[simp] theorem header_addSource : (addSource g u l).header = l.header := by
  unfold addSource
  split <;> rfl

@[simp] theorem mem_sources_addSource :
    x ∈ (addSource g u l).sources ↔ x ∈ l.sources ∨ x = u := by
  unfold addSource
  split
  · simp_all
  · simp

theorem natural_start (header : BlockId) : Natural g { header, body := [header] } :=
  ⟨.nil, by simp, by simp⟩

theorem Natural.addSource (hl : l.Natural g) (hg : g.Paired) : (addSource g u l).Natural g := by
  unfold Loop.addSource
  split
  · exact hl
  · next hu =>
    rw [contains_iff_mem] at hu
    have hgrown : Grown g l.header [u] l.body (grow g (growBound g) [u] l.body) := by
      refine grow_grown hg _ _ _ ?_ (hl.mem.2 (.inl rfl)) hl.nodup fun {x y} hy hne hx => .inl ?_
      · rw [growBound, length_singleton, Nat.add_comm]
        exact Nat.succ_le_succ (owed_le ..)
      · by_cases hxh : x = l.header
        · exact hl.mem.2 (.inl hxh)
        · obtain ⟨v, hv, p⟩ := (hl.mem.1 hy).resolve_left hne
          exact hl.mem.2 (.inr ⟨v, hv, .step hxh (hg.mem_preds.2 hx) p⟩)
    refine ⟨nodup_append.2 ⟨hl.sources, by simp, by grind⟩, hgrown.nodup, fun {x} => ?_⟩
    have hmem := @hl.mem
    have haround : g.Around l.header x u → x ∈ grow g (growBound g) [u] l.body :=
      fun p => hgrown.mem_of_around hg p (hgrown.mem_of_queue mem_cons_self)
    obtain ⟨-, hbody, -, -, horigin⟩ := hgrown
    grind

theorem headers_record (h u : BlockId) (ls : List Loop) :
    (record g h u ls).map (·.header) = addNew (ls.map (·.header)) h := by
  induction ls with
  | nil => simp [record, addNew]
  | cons l ls ih =>
    rw [record]
    split
    · next hl => simp [addNew, hl]
    · next hl =>
      unfold addNew at ih ⊢
      grind

theorem of_mem_record {h : BlockId} (hl : l ∈ record g h u ls)
    (hnodup : (ls.map (·.header)).Nodup) :
    l ∈ ls ∧ l.header ≠ h ∨ ∃ l', l = addSource g u l' ∧
      (l' ∈ ls ∧ l'.header = h ∨ h ∉ ls.map (·.header) ∧ l' = { header := h, body := [h] }) := by
  induction ls with
  | nil => exact .inr ⟨_, mem_singleton.1 hl, .inr ⟨not_mem_nil, rfl⟩⟩
  | cons k ls ih =>
    rw [record] at hl
    split at hl <;> grind

/-- The loops found when the back edges of a list were recorded. -/
structure Found (g : Graph) (es : List (BlockId × BlockId)) (ls : List Loop) : Prop where
  headers : (ls.map (·.header)).Nodup
  natural {l : Loop} : l ∈ ls → l.Natural g
  sources {l : Loop} {u : BlockId} : l ∈ ls → (u ∈ l.sources ↔ (l.header, u) ∈ es)
  heads {h : BlockId} : h ∈ ls.map (·.header) ↔ ∃ u, (h, u) ∈ es

theorem Found.record (hf : Found g es ls) (hg : g.Paired) (h u : BlockId) :
    Found g (es ++ [(h, u)]) (Loop.record g h u ls) where
  headers := by
    rw [headers_record, addNew]
    split
    · exact hf.headers
    · next hnew =>
      rw [contains_iff_mem] at hnew
      exact nodup_append.2 ⟨hf.headers, by simp, by grind⟩
  natural hl := by
    rcases of_mem_record hl hf.headers with ⟨hl, -⟩ | ⟨l, rfl, ⟨hl, -⟩ | ⟨-, rfl⟩⟩
    · exact hf.natural hl
    · exact (hf.natural hl).addSource hg
    · exact (natural_start h).addSource hg
  sources {l v} hl := by
    rw [mem_append, mem_singleton, Prod.mk.injEq]
    rcases of_mem_record hl hf.headers with ⟨hl, hne⟩ | ⟨l, rfl, ⟨hl', rfl⟩ | ⟨hnew, rfl⟩⟩
    · rw [hf.sources hl, or_iff_left fun e => hne e.1]
    · rw [mem_sources_addSource, hf.sources hl', header_addSource]
      simp
    · have hnone : (h, v) ∉ es := fun hv => hnew (hf.heads.2 ⟨v, hv⟩)
      simp [hnone]
  heads {k} := by
    rw [headers_record, mem_addNew, hf.heads]
    simp [exists_or]

theorem found_foldl (hg : g.Paired) {es' : List (BlockId × BlockId)} (hf : Found g es' ls)
    (es : List (BlockId × BlockId)) :
    Found g (es' ++ es) (es.foldl (fun ls e => Loop.record g e.1 e.2 ls) ls) := by
  induction es generalizing es' ls with
  | nil => rwa [append_nil]
  | cons e es ih => simpa using ih (hf.record hg e.1 e.2)

theorem mem_backEdges (hg : g.Paired) :
    (h, u) ∈ backEdges g g.order (g.domTree g.order) ↔ g.BackEdge u h := by
  simp only [backEdges, mem_flatMap, hg.fits.mem]
  constructor
  · rintro ⟨b, hb, he⟩
    split at he
    · cases he
    · next blk hblk =>
      obtain ⟨h', hh', he⟩ := mem_map.1 he
      cases he
      obtain ⟨hs, hd⟩ := mem_filter.1 hh'
      exact ⟨⟨blk, hblk, hs⟩, hg.dominates_domTree.1 hd⟩
  · rintro ⟨⟨blk, hblk, hs⟩, hd⟩
    refine ⟨u, hd.1, ?_⟩
    rw [hblk]
    exact mem_map.2 ⟨h, mem_filter.2 ⟨hs, hg.dominates_domTree.2 hd⟩, rfl⟩

theorem Natural.congr {l' : Loop} (hl : l.Natural g) (hheader : l'.header = l.header)
    (hsources : l'.sources = l.sources) (hbody : l'.body = l.body) : l'.Natural g :=
  ⟨hsources ▸ hl.sources, hbody ▸ hl.nodup, by rw [hheader, hsources, hbody]; exact hl.mem⟩

/-- The loops with their parents. -/
def linked (ls : List Loop) : List Loop :=
  ls.zipIdx.map fun p => { p.1 with parent := smallestAround ls p.2 p.1.header }

theorem getElem?_linked (i : Nat) : (linked ls)[i]? =
    ls[i]?.map fun l => { l with parent := smallestAround ls i l.header } := by
  simp [linked, Function.comp_def]

theorem getElem?_nest (i : Nat) : (nest ls)[i]? = ls[i]?.map fun l =>
    { l with
      parent := smallestAround ls i l.header
      depth := chainLength (linked ls) ls.length (smallestAround ls i l.header) + 1 } := by
  change ((linked ls).map fun l =>
    { l with depth := chainLength (linked ls) ls.length l.parent + 1 })[i]? = _
  rw [getElem?_map, getElem?_linked, Option.map_map]
  rfl

theorem of_mem_nest (hl : l ∈ nest ls) :
    ∃ l' ∈ ls, l.header = l'.header ∧ l.sources = l'.sources ∧ l.body = l'.body := by
  obtain ⟨i, hi⟩ := mem_iff_getElem?.1 hl
  rw [getElem?_nest] at hi
  obtain ⟨l', hl', rfl⟩ := Option.map_eq_some_iff.1 hi
  exact ⟨l', mem_of_getElem? hl', rfl, rfl, rfl⟩

theorem headers_nest (ls : List Loop) : (nest ls).map (·.header) = ls.map (·.header) := by
  refine ext_getElem? fun i => ?_
  rw [getElem?_map, getElem?_nest, getElem?_map, Option.map_map]
  rfl

theorem Found.nest (hf : Found g es ls) : Found g es (Loop.nest ls) where
  headers := headers_nest ls ▸ hf.headers
  natural hl := by
    obtain ⟨l', hl', h1, h2, h3⟩ := of_mem_nest hl
    exact (hf.natural hl').congr h1 h2 h3
  sources hl := by
    obtain ⟨l', hl', h1, h2, -⟩ := of_mem_nest hl
    rw [h1, h2]
    exact hf.sources hl'
  heads := headers_nest ls ▸ hf.heads

end Loop

/-- The loops of a graph. -/
abbrev Graph.naturalLoops (g : Graph) : List Loop := g.loops g.order (g.domTree g.order)

namespace Graph.Paired

open Loop

variable {l : Loop}

theorem found (hg : g.Paired) :
    Found g (backEdges g g.order (g.domTree g.order)) g.naturalLoops := by
  have hnone : Found g [] [] := ⟨.nil, nofun, nofun, by simp⟩
  exact (found_foldl hg hnone _).nest

variable (hg : g.Paired) (hl : l ∈ g.naturalLoops)

include hg hl in
theorem mem_sources : u ∈ l.sources ↔ g.BackEdge u l.header :=
  (hg.found.sources hl).trans (mem_backEdges hg)

theorem mem_headers (hg : g.Paired) :
    h ∈ g.naturalLoops.map (·.header) ↔ ∃ u, g.BackEdge u h :=
  hg.found.heads.trans (exists_congr fun _ => mem_backEdges hg)

include hg hl in
theorem mem_body :
    x ∈ l.body ↔ x = l.header ∨ ∃ u, g.BackEdge u l.header ∧ g.Around l.header x u := by
  simp only [(hg.found.natural hl).mem, hg.mem_sources hl]

include hg hl in
theorem reaches_header : g.Reaches l.header := by
  obtain ⟨u, e⟩ := hg.mem_headers.1 (mem_map.2 ⟨l, hl, rfl⟩)
  exact e.reaches

include hg hl in
theorem dominates_of_mem (hx : g.Reaches x) (hmem : x ∈ l.body) : g.Dominates l.header x := by
  rcases (hg.mem_body hl).1 hmem with rfl | ⟨u, e, p⟩
  · exact ⟨hx, fun _ hxs => hxs.mem_self⟩
  · exact p.dominates e.2 hx

end Graph.Paired

/-- There is one loop for each block that is the target of a back edge.  Its sources are those of
    the back edges to it, and the reachable blocks of its body are the header and what leads to a
    source around it, all dominated by the header. -/
theorem Graph.Edged.loops_natural (hg : g.Edged) :
    (g.naturalLoops.map (·.header)).Nodup ∧
      (∀ h, h ∈ g.naturalLoops.map (·.header) ↔ ∃ u, g.BackEdge u h) ∧
      ∀ l ∈ g.naturalLoops, l.sources.Nodup ∧ (∀ u, u ∈ l.sources ↔ g.BackEdge u l.header) ∧
        l.body.Nodup ∧ ∀ x, g.Reaches x →
          (x ∈ l.body ↔ x = l.header ∨ ∃ u, g.BackEdge u l.header ∧ g.Around l.header x u) ∧
          (x ∈ l.body → g.Dominates l.header x) := by
  have hg := hg.paired
  refine ⟨hg.found.headers, fun h => hg.mem_headers, fun l hl => ?_⟩
  have hnat := hg.found.natural hl
  exact ⟨hnat.sources, fun u => hg.mem_sources hl, hnat.nodup, fun x hx =>
    ⟨hg.mem_body hl, hg.dominates_of_mem hl hx⟩⟩

/-- Block 2 heads a loop with block 3, which an exceptional edge leads to and which is a loop of its
    own.  Nothing leads to block 4, from where there is an edge to `target`. -/
def strayed (target : BlockId) : Except Fault Graph := do
  let g ← (Graph.new "strayed").newBlock.2.newBlock.2.newBlock.2.addEdge 0 2
  let g ← g.addHandlerEdge 2 3
  let g ← g.addEdge 3 2
  let g ← g.addEdge 3 3
  let g ← g.addEdge 2 1
  g.addEdge 4 target

theorem strayed_passes {target : BlockId} {p : Graph → Prop} [DecidablePred p]
    (h : passes (strayed target) (fun g => decide (p g)) = true) :
    ∃ g, strayed target = .ok g ∧ g.Edged ∧ p g := by
  obtain ⟨g, hg, hp⟩ := of_passes_decide h
  refine ⟨g, hg, ?_, hp⟩
  obtain ⟨g1, h1, hg⟩ := ok_of_bind hg
  obtain ⟨g2, h2, hg⟩ := ok_of_bind hg
  obtain ⟨g3, h3, hg⟩ := ok_of_bind hg
  obtain ⟨g4, h4, hg⟩ := ok_of_bind hg
  obtain ⟨g5, h5, hg⟩ := ok_of_bind hg
  exact .edge (.edge (.edge (.edge (.handler (.edge (.block (.block (.block (.new _)))) h1) h2) h3)
    h4) h5) hg

/-- A case of it: the ways back from block 3 make two loops, and block 2 is on all ways to
    block 3. -/
theorem loops_natural_strayed : ∃ g, strayed 3 = .ok g ∧ g.Edged ∧
    g.naturalLoops.map (·.header) = [2, 3] ∧ g.Reaches 3 ∧ g.BackEdge 3 2 ∧ g.BackEdge 3 3 ∧
    g.Dominates 2 3 := by
  have hcheck : passes (strayed 3) (fun g => decide (3 ∈ g.order.rpo ∧
      g.naturalLoops = [{ header := 2, sources := [3], body := [2, 3, 4] },
        { header := 3, sources := [3], body := [3], parent := some 0, depth := 2 }])) = true := by
    decide +kernel
  obtain ⟨g, hg, hedged, hrpo, hloops⟩ := strayed_passes hcheck
  have h3 := hedged.paired.fits.mem.1 hrpo
  obtain ⟨-, -, hall⟩ := hedged.loops_natural
  rw [hloops] at hall
  obtain ⟨-, hsources, -, hbody⟩ := hall _ mem_cons_self
  obtain ⟨-, hsources', -⟩ := hall _ (mem_cons_of_mem _ mem_cons_self)
  exact ⟨g, hg, hedged, by rw [hloops]; rfl, h3, (hsources 3).1 mem_cons_self,
    (hsources' 3).1 mem_cons_self, (hbody 3 h3).2 (by simp)⟩

/-! ## Blocks that cannot be reached -/

namespace Graph.Paired

variable {l : Loop}

theorem pred_mem_body (hg : g.Paired) (hl : l ∈ g.naturalLoops) (hy : y ∈ l.body)
    (hne : y ≠ l.header) (hs : y ∈ g.succsOf x) : x ∈ l.body := by
  obtain ⟨u, e, p⟩ := ((hg.mem_body hl).1 hy).resolve_left hne
  by_cases hx : x = l.header
  · exact (hg.mem_body hl).2 (.inl hx)
  · exact (hg.mem_body hl).2 (.inr ⟨u, e, .step hx hs p⟩)

theorem reaches_body_iff (hg : g.Paired) (hl : l ∈ g.naturalLoops) :
    (∀ x ∈ l.body, g.Reaches x) ↔
      ∀ x y, ¬ g.Reaches x → y ∈ g.succsOf x → y ∈ l.body → y = l.header := by
  constructor
  · intro hall x y hx hs hy
    by_contra hne
    exact hx (hall x (hg.pred_mem_body hl hy hne hs))
  · intro hall x hx
    rcases (hg.mem_body hl).1 hx with rfl | ⟨u, e, p⟩
    · exact hg.reaches_header hl
    · clear hx
      induction p with
      | refl _ => exact e.2.1
      | step _ hs p ih =>
        by_contra hx
        exact p.ne (hall _ _ hx hs ((hg.mem_body hl).2 (.inr ⟨_, e, p⟩)))

end Graph.Paired

variable {ls : List Loop}

theorem Loop.depth_pos {l : Loop} (hl : l ∈ nest ls) : 0 < l.depth := by
  obtain ⟨_, -, rfl⟩ := mem_map.1 hl
  exact Nat.succ_pos _

theorem foldl_max_le {ns : List Nat} {m n : Nat} :
    ns.foldl max m ≤ n ↔ m ≤ n ∧ ∀ k ∈ ns, k ≤ n := by
  induction ns generalizing m with
  | nil => simp
  | cons k ns ih => rw [foldl_cons, ih, Nat.max_le, forall_mem_cons, and_assoc]

theorem Loop.depthOf_le {n : Nat} : depthOf ls x ≤ n ↔ ∀ l ∈ ls, x ∈ l.body → l.depth ≤ n := by
  rw [depthOf, foldl_max_le, forall_mem_map]
  simp

theorem Loop.depthOf_eq_zero : depthOf (nest ls) x = 0 ↔ ∀ l ∈ nest ls, x ∉ l.body := by
  rw [← Nat.le_zero, depthOf_le]
  exact forall₂_congr fun l hl => imp_congr_right fun _ =>
    iff_false_intro (Nat.not_le_of_lt (depth_pos hl))

/-- A block that cannot be reached is in the body of a loop exactly if it leads to a source around
    the header.  All bodies can be reached exactly if no edge leads from a block that cannot be
    reached into a body, except to the header, and exactly then the depth of all blocks that cannot
    be reached is zero. -/
theorem Graph.Edged.loops_reachable_iff (hg : g.Edged) :
    (∀ l ∈ g.naturalLoops, ∀ x, ¬ g.Reaches x →
      (x ∈ l.body ↔ ∃ u, g.BackEdge u l.header ∧ g.Around l.header x u)) ∧
    ((∀ l ∈ g.naturalLoops, ∀ x ∈ l.body, g.Reaches x) ↔ ∀ l ∈ g.naturalLoops, ∀ x y,
      ¬ g.Reaches x → y ∈ g.succsOf x → y ∈ l.body → y = l.header) ∧
    ((∀ x, ¬ g.Reaches x → Loop.depthOf g.naturalLoops x = 0) ↔
      ∀ l ∈ g.naturalLoops, ∀ x ∈ l.body, g.Reaches x) := by
  have hg := hg.paired
  refine ⟨fun l hl x hx => (hg.mem_body hl).trans (or_iff_right ?_),
    forall₂_congr fun l hl => hg.reaches_body_iff hl, ?_⟩
  · rintro rfl
    exact hx (hg.reaches_header hl)
  · constructor
    · intro hall l hl x hx
      by_contra hn
      exact Loop.depthOf_eq_zero.1 (hall x hn) l hl hx
    · intro hall x hx
      exact Loop.depthOf_eq_zero.2 fun l hl hmem => hx (hall l hl x hmem)

/-- Block 4 is in the body of a loop that it leads into behind the header. -/
theorem loops_take_stray : ∃ g, strayed 3 = .ok g ∧ g.Edged ∧ ¬ g.Reaches 4 ∧
    (∃ l ∈ g.naturalLoops, 4 ∈ l.body) ∧ Loop.depthOf g.naturalLoops 4 = 1 := by
  have hcheck : passes (strayed 3) (fun g => decide (4 ∉ g.order.rpo ∧
      (∃ l ∈ g.naturalLoops, 4 ∈ l.body) ∧ Loop.depthOf g.naturalLoops 4 = 1)) = true := by
    decide +kernel
  obtain ⟨g, hg, hedged, hrpo, hmem, hdepth⟩ := strayed_passes hcheck
  exact ⟨g, hg, hedged, fun h => hrpo (hedged.paired.fits.mem.2 h), hmem, hdepth⟩

/-- Block 4 is outside of the loop when it leads to its header. -/
theorem loops_reachable_strayed : ∃ g, strayed 2 = .ok g ∧ g.Edged ∧ ¬ g.Reaches 4 ∧
    (∀ l ∈ g.naturalLoops, ∀ x ∈ l.body, g.Reaches x) ∧ Loop.depthOf g.naturalLoops 4 = 0 := by
  have hcheck : passes (strayed 2) (fun g => decide (
      g.naturalLoops.map (fun l => (l.header, l.body)) = [(2, [2, 3]), (3, [3])] ∧
      g.predsOf 3 = [2, 3] ∧ 2 ∈ g.order.rpo ∧ 3 ∈ g.order.rpo ∧ 4 ∉ g.order.rpo)) = true := by
    decide +kernel
  obtain ⟨g, hg, hedged, hloops, hpreds, h2, h3, h4⟩ := strayed_passes hcheck
  have hfits := hedged.paired.fits
  have h4 : ¬ g.Reaches 4 := fun h => h4 (hfits.mem.2 h)
  obtain ⟨-, hreach, hdepth⟩ := hedged.loops_reachable_iff
  have hall := hreach.2 fun l hl x y hx hs hy => by
    have hl' := mem_map_of_mem (f := fun l : Loop => (l.header, l.body)) hl
    by_contra hne
    obtain rfl : y = 3 := by grind
    have hx' := hedged.paired.mem_preds.1 hs
    rw [hpreds] at hx'
    rcases mem_pair.1 hx' with rfl | rfl
    · exact hx (hfits.mem.1 h2)
    · exact hx (hfits.mem.1 h3)
  exact ⟨g, hg, hedged, h4, hall, hdepth.2 hall 4 h4⟩

end MethodGraph
