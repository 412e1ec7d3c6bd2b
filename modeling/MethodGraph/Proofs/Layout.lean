import MethodGraph.Proofs.Calls
import MethodGraph.Proofs.Connecting
import MethodGraph.Proofs.Wired
/-!
  The layout of a connected method.

  Connecting a method that a caller can get to never meets a fault, and the layout is the forest of
  its builders written out: the body, then every builder that is part of no sequence in the order
  of their creation, then the exit of the method.  Every block is there once, and each builder that
  got a place knows how many blocks it comes to and which.

  The proof follows the phases.  First the end of the body may get a transfer to the exit, if there
  is code that would come behind it.  Then builders are counted and connected; `Joined` is what
  connecting keeps.  That the number of blocks agrees with the count comes from both being the
  length of the same list.
-/

namespace MethodGraph

open Method List Graph Arena Bool Nat

variable {x : BlockId} {d : Builder} {t : BuilderId} {s : Draft} {flats : List (List BlockId)}
  {loose' risky' xs : List BlockId} {ts : List BuilderId} {m₁ : Method} {α : Type}

variable {l : License} {m m' : Method} {P : BuilderId → Option Builder} {n size fuel : Nat}
  {loose risky : List BlockId} {b : BuilderId}

/-! ## Methods that are not connected -/

/-- Nothing is connected yet, and the ends of all sequences are blocks that are there. -/
structure Draft.Idle (s : Draft) : Prop where
  method : s.method.connected = false
  builders : ∀ b d, s.method.builder? b = some d → d.connected = false ∧ d.count = none
  tails : ∀ b d x, s.method.builder? b = some d → d.tail.block? = some x →
    x < s.method.graph.blocks.size

namespace Draft.Idle

/-- One builder is changed, and its end stays among the blocks that are there. -/
theorem withBuilder (h : Draft.Idle ⟨m, loose, risky⟩) (b : BuilderId) {f : Builder → Builder}
    (hf : ∀ d, m.builder? b = some d → (f d).connected = d.connected ∧ (f d).count = d.count)
    (ht : ∀ d x, m.builder? b = some d → (f d).tail.block? = some x →
      x < m.graph.blocks.size) : Draft.Idle ⟨m.withBuilder b f, loose', risky'⟩ where
  method := h.method
  builders c e he := by
    rcases of_builder?_withBuilder he with ⟨rfl, d, hd, rfl⟩ | ⟨-, he⟩
    · grind [h.builders]
    · exact h.builders c e he
  tails c e x he hx := by
    rcases of_builder?_withBuilder he with ⟨rfl, d, hd, rfl⟩ | ⟨-, he⟩
    · exact ht d x hd hx
    · exact h.tails c e x he hx

/-- Blocks are changed or added. -/
theorem ofBlocks (h : Draft.Idle ⟨m, loose, risky⟩)
    (hb : m'.builders = m.builders) (hc : m'.connected = m.connected)
    (hs : m.graph.blocks.size ≤ m'.graph.blocks.size) : Draft.Idle ⟨m', loose', risky'⟩ := by
  have hsame : ∀ c, m'.builder? c = m.builder? c := fun c => congrArg (get? · c) hb
  refine ⟨hc.trans h.method, fun c e he => ?_, fun c e x he hx => ?_⟩
  · exact h.builders c e ((hsame c).symm.trans he)
  · exact Nat.lt_of_lt_of_le (h.tails c e x ((hsame c).symm.trans he) hx) hs

end Draft.Idle

theorem Tail.close_block? {t : Tail} {falls : Bool}
    (h : (t.close falls).block? = some x) : t.block? = some x := by
  cases t with
  | current y =>
    cases falls with
    | true => exact h
    | false => cases h
  | owed y => cases h
  | closed => cases h

theorem Step.idle {t : Draft} (h : Step l s t) (hf : s.IsForest) (hs : s.Idle) : t.Idle := by
  cases h with
  | quiet h => exact hs.ofBlocks h.builders h.connected (Nat.le_of_eq (by rw [h.blocks]))
  | flag x f => exact hs.ofBlocks rfl rfl (Nat.le_of_eq (size_withBlock ..).symm)
  | tag b f hsame =>
    refine hs.withBuilder b (fun d hd => ?_) fun d x hd hx => ?_
    · exact ⟨(hsame d hd).1.connected, (hsame d hd).1.count⟩
    · rw [(hsame d hd).1.tail] at hx
      exact hs.tails b d x hd hx
  | newBlock => exact hs.ofBlocks rfl rfl (by rw [size_addBlock]; exact le_succ _)
  | @newBuilder m loose risky r =>
    refine ⟨hs.method, fun c e he => ?_, fun c e x he hx => ?_⟩
    · rw [builder?_addBuilder] at he
      split at he
      · cases he
        exact ⟨rfl, rfl⟩
      · exact hs.builders c e he
    · rw [builder?_addBuilder] at he
      rw [size_addBuilder]
      split at he
      · cases he
        cases hx
        exact Nat.lt_add_of_pos_right (Nat.zero_lt_succ _)
      · exact Nat.lt_add_right 2 (hs.tails c e x he hx)
  | edge x y => exact hs.ofBlocks rfl rfl (Nat.le_of_eq (size_withEdge ..).symm)
  | place x hb hx he =>
    refine hs.withBuilder _ (fun d _ => ⟨rfl, rfl⟩) fun d y _ hy => ?_
    cases hy
    exact hf.looseBound x hx
  | @nest m loose risky b c d e hb hc hne hroot hfree he =>
    have hmark : Draft.Idle ⟨m.withBuilder c ({ · with placed := true }), loose, risky⟩ :=
      hs.withBuilder c (fun d _ => ⟨rfl, rfl⟩) fun d x hd hx => hs.tails c d x hd hx
    refine hmark.withBuilder b (fun d _ => ⟨rfl, rfl⟩) fun d x _ hx => ?_
    cases hx
    exact hf.bound (plan?_of_builder? hc) mem_cons_self
  | push op => exact hs.ofBlocks rfl rfl (Nat.le_of_eq (size_withBlock ..).symm)
  | @close m loose risky b d x op hb hx hop he =>
    have hpush : Draft.Idle ⟨m.withBlock x (·.push op), loose, risky⟩ :=
      hs.ofBlocks rfl rfl (Nat.le_of_eq (size_withBlock ..).symm)
    refine hpush.withBuilder b (fun d _ => ⟨rfl, rfl⟩) fun d y hd hy => ?_
    exact hpush.tails b d y hd (Tail.close_block? hy)
  | handle x y => exact hs.ofBlocks rfl rfl (Nat.le_of_eq (size_withHandler ..).symm)
  | @split m loose risky b d x hb hx =>
    refine hs.withBuilder b (fun d _ => ⟨rfl, rfl⟩) fun d' y hd' hy => ?_
    cases hy
    exact hs.tails b d x hb (by rw [hx]; rfl)
  | forget => exact hs.withBuilder _ (fun d _ => ⟨rfl, rfl⟩) fun d y _ hy => by cases hy

/-- What a method is before it is connected. -/
structure Draft.Sound (s : Draft) : Prop where
  forest : s.IsForest
  idle : s.Idle
  bare : s.Bare

theorem Builds.sound {t : Draft} (h : Builds l s t) (hs : s.Sound) : t.Sound :=
  h.keeps (fun _ _ hst hs =>
    ⟨hst.forest hs.forest, hst.idle hs.forest hs.idle, hst.bare hs.forest hs.bare⟩) hs

theorem Draft.sound_new (name : String) (config : Config) :
    Draft.Sound ⟨Method.new name config, [], []⟩ := by
  refine ⟨Forest.new name config, ⟨rfl, fun b d hd => ?_, fun b d x hd hx => ?_⟩, .new name config⟩
  · cases b with
    | zero =>
      cases hd
      exact ⟨rfl, rfl⟩
    | succ b => cases hd
  · cases b with
    | zero =>
      cases hd
      cases hx
      exact zero_lt_succ 1
    | succ b => cases hd

/-- The license for all calls. -/
def License.full : License := ⟨true, true, true, true⟩

theorem Method.Reachable.sound (h : m.Reachable) : Draft.Sound ⟨m, [], []⟩ := by
  obtain ⟨name, config, calls, h⟩ := h
  have hbuilds : Builds .full ⟨new name config, [], []⟩ ⟨m, [], []⟩ :=
    after_builds h rfl rfl (fun _ _ _ => rfl) fun _ _ _ => rfl
  exact hbuilds.sound (Draft.sound_new name config)

/-! ## The end of the body -/

/-- At most one builder has changed, by a block at the end of its sequence. -/
structure Method.Extended (b : BuilderId) (m m' : Method) : Prop where
  builders : m'.builders.size = m.builders.size
  config : m'.config = m.config
  others : ∀ c, c ≠ b → m'.builder? c = m.builder? c
  this : ∀ d, m.builder? b = some d → ∃ e, m'.builder? b = some e ∧ e.entry = d.entry ∧
    e.exit = d.exit ∧ e.placed = d.placed ∧
    (e.sequence = d.sequence ∨ ∃ x, m.graph.blocks.size ≤ x ∧ e.sequence = d.sequence ++ [.block x])

variable (hd : m.builder? b = some d) (hc : d.connected = false)
  (ht : ∀ x, d.tail.block? = some x → x < m.graph.blocks.size)

namespace Emit

/-- The sequence of a builder that is not connected can be extended. -/
theorem extend_run (entry : Entry) (tail : Tail) {target : BlockId}
    (hd : m.builder? b = some d) (hc : d.connected = false)
    (ht : ∀ x, d.tail.block? = some x → x < m.graph.blocks.size)
    (htarget : target < m.graph.blocks.size) : (extend b entry tail target).run m =
      .ok ((), (m.linkFrom d.tail.block? target).withBuilder b (·.extend entry tail)) := by
  refine bind_eq_ok.2 ⟨d, m, builder_eq_ok.2 ⟨hd, rfl⟩, ?_⟩
  rw [hc]
  refine bind_eq_ok.2 ⟨(), _, updateBuilder_eq_ok.2 ⟨lt_of_builder? hd, rfl⟩, ?_⟩
  cases hz : d.tail.block? with
  | none => rfl
  | some z => exact addEdge_eq_ok.2 ⟨ht z hz, htarget, rfl⟩

theorem openBlock_run_current (hd : m.builder? b = some d)
    (hx : d.tail = .current x) : (openBlock b).run m = .ok (x, m) := by
  refine bind_eq_ok.2 ⟨d, m, builder_eq_ok.2 ⟨hd, rfl⟩, ?_⟩
  rw [hx]
  rfl

include hd hc ht in
theorem openBlock_opened (hfull : ∀ x, d.tail ≠ .current x) :
    (openBlock b).run m = .ok (m.graph.blocks.size, m.opened b d) := by
  have hlt : m.graph.blocks.size < m.addBlock.graph.blocks.size := by
    rw [size_addBlock]
    exact lt_succ_self _
  have happend : (appendBlock b m.graph.blocks.size).run m.addBlock = .ok ((), m.opened b d) :=
    extend_run (m := m.addBlock) _ _ hd hc (fun z hz => Nat.lt_trans (ht z hz) hlt) hlt
  refine bind_eq_ok.2 ⟨d, m, builder_eq_ok.2 ⟨hd, rfl⟩, ?_⟩
  have hnew : (do
      let block ← newBlock
      appendBlock b block
      return block : Emit BlockId).run m = .ok (m.graph.blocks.size, m.opened b d) :=
    bind_eq_ok.2 ⟨_, _, newBlock_eq_ok.2 ⟨rfl, rfl⟩, bind_eq_ok.2 ⟨(), _, happend, rfl⟩⟩
  cases htail : d.tail with
  | current x => exact absurd htail (hfull x)
  | owed x => exact hnew
  | closed => exact hnew

include hd hc ht in
/-- A builder that is not connected can be given a block that takes operations. -/
theorem openBlock_run :
    ∃ x m', (openBlock b).run m = .ok (x, m') ∧ x < m'.graph.blocks.size ∧
      m.graph.blocks.size ≤ m'.graph.blocks.size ∧ m.Extended b m' := by
  by_cases hcur : ∃ x, d.tail = .current x
  · obtain ⟨x, hx⟩ := hcur
    refine ⟨x, m, openBlock_run_current hd hx, ht x (by rw [hx]; rfl), Nat.le_refl _, rfl, rfl,
      fun _ _ => rfl, fun d' hd' => ?_⟩
    exact ⟨d', hd', rfl, rfl, rfl, .inl rfl⟩
  · have hfull : ∀ x, d.tail ≠ .current x := fun x hx => hcur ⟨x, hx⟩
    have hgraph : (m.opened b d).graph.blocks.size = m.graph.blocks.size + 1 :=
      (size_linkFrom ..).trans size_addBlock
    refine ⟨_, _, openBlock_opened hd hc ht hfull, ?_, ?_, ?_, ?_, ?_, ?_⟩
    · rw [hgraph]
      exact lt_succ_self _
    · rw [hgraph]
      exact le_succ _
    · unfold opened
      rw [size_withBuilder]
      cases d.tail.block? <;> rfl
    · show (m.addBlock.linkFrom d.tail.block? _).config = m.config
      cases d.tail.block? <;> rfl
    · intro c hne
      unfold opened
      rw [builder?_withBuilder, if_neg (Ne.symm hne), builder?_linkFrom]
      rfl
    · intro d' hd'
      cases hd.symm.trans hd'
      exact ⟨_, builder?_opened hd, rfl, rfl, rfl, .inr ⟨_, Nat.le_refl _, rfl⟩⟩

/-- A builder that is not connected can be made to go to a block. -/
theorem gotoBlock_run (target : BlockId) (hd : m.builder? b = some d)
    (hc : d.connected = false) (ht : ∀ x, d.tail.block? = some x → x < m.graph.blocks.size)
    (htarget : target < m.graph.blocks.size) :
    ∃ m', (gotoBlock b target).run m = .ok ((), m') ∧ m.Extended b m' ∧
      ∀ e, m'.builder? b = some e → e.fallsOut = false := by
  obtain ⟨x, m₁, hopen, hx, hsize, hext⟩ := openBlock_run hd hc ht
  obtain ⟨e, he, -⟩ := hext.this d hd
  let op : Operation := { opcode := .goto, operands := [], targets := [target] }
  let m₂ := (m₁.withBlock x (·.push op)).withEdge x target
  refine ⟨m₂.withBuilder b fun d => { d with tail := d.tail.close false }, ?_, ⟨?_, ?_, ?_, ?_⟩,
    ?_⟩
  · refine bind_eq_ok.2 ⟨x, m₁, hopen, ?_⟩
    refine bind_eq_ok.2 ⟨(), m₁.withBlock x (·.push op), push_eq_ok.2 ⟨hx, rfl⟩, ?_⟩
    refine bind_eq_ok.2 ⟨(), m₂, bind_eq_ok.2 ⟨(), m₂, addEdge_eq_ok.2 ⟨?_, ?_, rfl⟩, rfl⟩, ?_⟩
    · rw [size_withBlock]
      exact hx
    · rw [size_withBlock]
      exact Nat.lt_of_lt_of_le htarget hsize
    · exact updateBuilder_eq_ok.2 ⟨lt_of_builder? (m := m₂) he, rfl⟩
  · rw [size_withBuilder]
    exact hext.builders
  · exact hext.config
  · intro c hne
    rw [builder?_withBuilder, if_neg (Ne.symm hne)]
    exact hext.others c hne
  · intro d' hd'
    obtain ⟨e', he', hprops⟩ := hext.this d' hd'
    refine ⟨{ e' with tail := e'.tail.close false }, ?_, hprops⟩
    rw [builder?_withBuilder, if_pos rfl]
    show (m₁.builder? b).map _ = _
    rw [he']
    rfl
  · intro e' he'
    rcases of_builder?_withBuilder he' with ⟨-, f, -, rfl⟩ | ⟨hne, -⟩
    · show (f.tail.close false).isLive = false
      cases f.tail <;> rfl
    · exact absurd rfl hne

end Emit

/-! ## Builders that are part of no sequence -/

theorem Arena.mem_entries {a : Arena α} {i : Nat} {x : α} :
    (i, x) ∈ a.entries ↔ a.get? i = some x := by
  unfold entries ids toList
  rw [List.mem_iff_getElem?]
  constructor
  · grind [get?]
  · intro h
    have hi : i < a.size := get?_isSome.1 (by rw [h]; rfl)
    refine ⟨i, List.getElem?_zip_eq_some.2 ⟨?_, ?_⟩⟩
    · exact List.getElem?_range hi
    · simpa [get?] using h

namespace Method

theorem mem_detached : b ∈ m.detached ↔
    b ≠ Method.root ∧ ∃ d, m.builder? b = some d ∧ d.placed = false := by
  unfold detached
  rw [mem_map]
  constructor
  · grind [mem_entries, builder?]
  · rintro ⟨hroot, d, hd, hp⟩
    refine ⟨(b, d), mem_filter.2 ⟨mem_entries.2 hd, ?_⟩, rfl⟩
    simp [hroot, hp]

/-- They are listed in the order of their creation. -/
theorem detached_sorted (m : Method) : m.detached.Pairwise (· < ·) := by
  grind [entries, ids, toList, map_fst_zip, Arena.size, pairwise_lt_range, detached]

theorem detached_nodup (m : Method) : m.detached.Nodup :=
  m.detached_sorted.imp ne_of_lt

end Method

/-! ## The phases before connecting -/

namespace Emit

/-- Marking builders as parts of the layout changes nothing else. -/
theorem markPlaced_run : ∀ (ts : List BuilderId) (m : Method), (∀ t ∈ ts, t < m.builders.size) →
    ∃ m', (ts.forM fun t => updateBuilder t fun d => { d with placed := true }).run m =
        .ok ((), m') ∧ m.Alike m' ∧ m'.graph = m.graph ∧
      ∀ b d, m.builder? b = some d → ∃ e, m'.builder? b = some e ∧ e.count = d.count
  | [], m, _ => ⟨m, rfl, .refl m, rfl, fun _ d hd => ⟨d, hd, rfl⟩⟩
  | t :: ts, m, hlt => by
    let m₁ := m.withBuilder t ({ · with placed := true })
    have hsize : m₁.builders.size = m.builders.size := size_withBuilder ..
    obtain ⟨m', hrun, halike, hgraph, hcount⟩ := markPlaced_run ts m₁ fun t' ht' => by
      rw [hsize]
      exact hlt t' (mem_cons_of_mem _ ht')
    have hfirst : (updateBuilder t fun d => { d with placed := true }).run m = .ok ((), m₁) :=
      updateBuilder_eq_ok.2 ⟨hlt t mem_cons_self, rfl⟩
    have hmark : m.Alike m₁ := .withBuilder t fun _ _ => rfl
    refine ⟨m', bind_eq_ok.2 ⟨(), m₁, hfirst, hrun⟩, hmark.trans halike, hgraph,
      fun b d hd => ?_⟩
    have hd1 : ∃ d1, m₁.builder? b = some d1 ∧ d1.count = d.count := by grind [builder?_withBuilder]
    obtain ⟨d1, hd1, hk⟩ := hd1
    obtain ⟨e, he, hk'⟩ := hcount b d1 hd1
    exact ⟨e, he, hk'.trans hk⟩

/-- Counting several trees. -/
theorem countAll_run (hf : Forest P n loose) (hsize : ∀ a d, P a = some d → a < size) :
    ∀ (ts : List BuilderId) (m : Method), (∀ t ∈ ts, Deep P size fuel t) → Plans P m →
      Counted P m → ∃ counts flats m', (ts.mapM (countBlocks fuel)).run m = .ok (counts, m') ∧
        total counts = flats.flatten.length ∧ List.Forall₂ (Flat P) ts flats ∧ m.Counts m' ∧
        Counted P m' ∧ ∀ t ∈ ts, ∃ e k, m'.builder? t = some e ∧ e.count = some k
  | [], m, _, _, hcounted => ⟨[], [], m, rfl, rfl, .nil, .refl m, hcounted,
      fun _ ht => absurd ht not_mem_nil⟩
  | t :: ts, m, hdeep, hplans, hcounted => by
    obtain ⟨xs, m₁, hrun1, hflat, hcm1, hcounted1, e1, he1, hk1⟩ :=
      countBlocks_run hf hsize (hdeep t mem_cons_self) m hplans hcounted
    obtain ⟨counts, flats, m', hrun, htotal, hflats, hcm, hcounted', hall⟩ :=
      countAll_run hf hsize ts m₁ (fun t' ht' => hdeep t' (mem_cons_of_mem _ ht'))
        (hplans.alike hcm1.alike) hcounted1
    refine ⟨xs.length :: counts, xs :: flats, m', ?_, ?_, .cons hflat hflats, hcm1.trans hcm,
      hcounted', fun t' ht' => ?_⟩
    · rw [mapM_cons]
      exact bind_eq_ok.2 ⟨_, m₁, hrun1, bind_eq_ok.2 ⟨counts, m', hrun, rfl⟩⟩
    · rw [total_cons, htotal, flatten_cons, length_append]
    · grind [hcm.kept]

/-- The blocks of several connected builders. -/
theorem readBlocks_run (hflats : List.Forall₂ (Flat P) ts flats) (hts : ∀ t ∈ ts, Connected P m t) :
    (ts.mapM fun b => do return (← builder b).blocks).run m = .ok (flats, m) := by
  induction hflats with
  | nil => rfl
  | @cons t xs ts flats hflat _ ih =>
    obtain ⟨e, he, hblocks⟩ := hts t mem_cons_self
    rw [mapM_cons]
    have hread : (do return (← builder t).blocks : Emit (List BlockId)).run m = .ok (xs, m) :=
      bind_eq_ok.2 ⟨e, m, builder_eq_ok.2 ⟨he, rfl⟩, pure_eq_ok.2 ⟨hblocks.unique hflat, rfl⟩⟩
    exact bind_eq_ok.2 ⟨xs, m, hread,
      bind_eq_ok.2 ⟨flats, m, ih fun t' ht' => hts t' (mem_cons_of_mem _ ht'), rfl⟩⟩

end Emit

/-- The method before its builders are connected: `m₁` is `m` with the end of the body in order,
    and `m₂` is `m₁` with all builders counted. -/
structure Prepared (m m₁ m₂ : Method) : Prop where
  builds : ∀ l, Builds l ⟨m, [], []⟩ ⟨m₁, [], []⟩
  extended : m.Extended Method.root m₁
  same : m.detached = [] → m₁ = m
  ends : m.detached ≠ [] → ∀ d, m₁.builder? Method.root = some d → d.fallsOut = false
  alike : m₁.Alike m₂
  graph : m₂.graph = m₁.graph
  counted : Counted m₁.plan? m₂
  tops : ∀ t ∈ Method.root :: m.detached, ∃ e k, m₂.builder? t = some e ∧ e.count = some k

/-- The entry of a builder is one of its blocks, and another one than its exit. -/
theorem Forest.opening_owned (hf : Forest P n loose) (hd : P b = some d) :
    d.entry ∈ d.owned ∧ d.exit ≠ d.entry := by
  have hopens := @hf.opens
  have hnodup := @hf.nodup
  grind [Builder.mem_blocksHere, Builder.owned]

theorem Forest.exit_lt (hf : Forest P n loose) : Graph.exit < n := by
  obtain ⟨d, hd, -, hexit⟩ := hf.root
  rw [← hexit]
  exact hf.bound hd mem_cons_self

/-- The body and the builders that are part of no sequence are contained in none. -/
theorem Method.Extended.tops (h : m.Extended Method.root m₁)
    (hf : Forest m₁.plan? n loose) : ∀ t ∈ Method.root :: m.detached,
      (∀ a, ¬ Holds m₁.plan? a t) ∧ ∃ d, m₁.plan? t = some d := by
  intro t ht
  rcases mem_cons.1 ht with rfl | ht
  · grind [Holds, hf.root, hf.child]
  · obtain ⟨hroot, d, hd, hp⟩ := mem_detached.1 ht
    have hd1 := plan?_of_builder? ((h.others t hroot).trans hd)
    refine ⟨?_, d.plan, hd1⟩
    rintro a ⟨e, he, hc⟩
    obtain ⟨-, f, hf', hp'⟩ := hf.child he hc
    cases hd1.symm.trans hf'
    exact false_ne_true (hp.symm.trans hp')

variable (hs : Draft.Sound ⟨m, [], []⟩)

namespace Emit

include hs in
/-- The first phase: the end of the body is in order. -/
theorem leaveBody_run (hd : m.builder? Method.root = some d) : ∃ m₁,
      (if !m.detached.isEmpty && d.fallsOut then gotoBlock Method.root Graph.exit
        else pure ()).run m = .ok ((), m₁) ∧ (∀ l, Builds l ⟨m, [], []⟩ ⟨m₁, [], []⟩) ∧
      m.Extended Method.root m₁ ∧ (m.detached = [] → m₁ = m) ∧
      (m.detached ≠ [] → ∀ e, m₁.builder? Method.root = some e → e.fallsOut = false) := by
  by_cases hc : (!m.detached.isEmpty && d.fallsOut) = true
  · obtain ⟨m₁, hrun, hext, hends⟩ := gotoBlock_run exit hd
      (hs.idle.builders _ d hd).1 (fun x hx => hs.idle.tails _ d x hd hx) hs.forest.exit_lt
    refine ⟨m₁, by rw [if_pos hc]; exact hrun, fun l => ?_, hext, fun hnone => ?_, fun _ => hends⟩
    · exact transfer_builds rfl (forall_mem_singleton.2 (.inr (.inr rfl))) hrun
    · rw [hnone] at hc
      cases hc
  · refine ⟨m, by rw [if_neg hc]; rfl, fun l => .refl, ⟨rfl, rfl, fun _ _ => rfl,
      fun d hd => ⟨d, hd, rfl, rfl, rfl, .inl rfl⟩⟩, fun _ => rfl, fun hsome e he => ?_⟩
    cases hd.symm.trans he
    cases hf : d.fallsOut with
    | false => rfl
    | true => grind

include hs in
/-- Connecting all builders keeps an invariant of the kind that connecting a tree keeps, and its
    answer is the layout. -/
theorem connectBuilders_keeps : ∃ m₁ m₂, Prepared m m₁ m₂ ∧
    ∀ I : List BuilderId → List BuilderId → Method → Prop,
      (∀ {done left m'}, I done left m' → Joined m₁.plan? m₂ done m') →
      (∀ {done left m' b d}, I done left m' → m₁.plan? b = some d →
        (∀ c ∈ d.children, c ∈ done) → b ∉ done → ¬ Circular m₁.plan? b →
        ∃ m'', (connectBuilder b).run m' = .ok ((), m'') ∧ I (done ++ [b]) left m'') →
      (∀ {done left m' t e}, I done left m' → t ∈ m.detached → t ∈ done → t ∉ left →
        m'.builder? t = some e → I done (left ++ [t]) (m'.sentOut e)) →
      I [] [] m₂ → ∃ flats m', connectBuilders.run m = .ok (flats.flatten ++ [Graph.exit], m') ∧
        List.Forall₂ (Flat m₁.plan?) (Method.root :: m.detached) flats ∧
        I ((Method.root :: m.detached).flatMap (nested m₁.plan? m.builders.size)) m.detached
          m' := by
  obtain ⟨r, hr⟩ : ∃ r, m.builder? root = some r := by grind [builder?_of_plan?, hs.forest.root]
  obtain ⟨m₁, hrun1, hbuilds, hext, hsame, hends⟩ := leaveBody_run hs hr
  have hs1 : Draft.Sound ⟨m₁, [], []⟩ := (hbuilds .full).sound hs
  have hf : Forest m₁.plan? m₁.graph.blocks.size [] := hs1.forest
  have hsize : ∀ a d, m₁.plan? a = some d → a < m.builders.size := by
    intro a d hd
    obtain ⟨e, he, -⟩ := builder?_of_plan? hd
    rw [← hext.builders]
    exact lt_of_builder? he
  have htops := hext.tops hf
  have hdeep : ∀ t ∈ root :: m.detached,
      Deep m₁.plan? m.builders.size m.builders.size t :=
    fun t ht => .top hf (htops t ht).1 (htops t ht).2
  -- the second phase
  obtain ⟨mp, hrunp, halikep, hgraphp, hcountp⟩ := markPlaced_run m.detached m₁ fun t ht => by
    obtain ⟨-, d, hd, -⟩ := mem_detached.1 ht
    rw [hext.builders]
    exact lt_of_builder? hd
  have hplansp : Plans m₁.plan? mp := (Plans.self m₁).alike halikep
  have hnone : ∀ {b e}, mp.builder? b = some e → e.count = none := by
    have hbuilder := @halikep.symm.builder?
    have hbuilders := @hs1.idle.builders
    grind
  have hcountedp : Counted m₁.plan? mp := by
    refine ⟨fun he hk => ?_, fun he hk _ => ?_⟩
    · rw [hnone he] at hk
      cases hk
    · rw [hnone he] at hk
      cases hk
  obtain ⟨counts, flats, m₂, hrun2, htotal, hflats, hcm, hcounted, hall⟩ :=
    countAll_run hf hsize (root :: m.detached) mp hdeep hplansp hcountedp
  have halike : m₁.Alike m₂ := halikep.trans hcm.alike
  have hgraph : m₂.graph = m₁.graph := hcm.graph.trans hgraphp
  refine ⟨m₁, m₂, ⟨hbuilds, hext, hsame, hends, halike, hgraph, hcounted, hall⟩, ?_⟩
  intro I hjoined hstep hleave hstart
  -- the third phase
  have hplans : ∀ {done left m'}, I done left m' → Plans m₁.plan? m' :=
    fun hI => ((Plans.self m₁).alike halike).alike (hjoined hI).alike
  have hnodup : (root :: m.detached).Nodup :=
    nodup_cons.2 ⟨fun h => (mem_detached.1 h).1 rfl, m.detached_nodup⟩
  obtain ⟨m4, hrun4, hI4⟩ := connectTree_keeps (I := fun done m => I done [] m) hf hsize
    hplans hstep (hdeep _ mem_cons_self) [] m₂ hstart fun _ _ => not_mem_nil
  have hapart : ∀ t ∈ m.detached, ∀ k, Under m₁.plan? t k →
      k ∉ [] ++ nested m₁.plan? m.builders.size root := by
    intro t ht k hk hmem
    rw [nil_append] at hmem
    have hkr := (mem_nested hf hsize (hdeep _ mem_cons_self) k).1 hmem
    have heq := hf.top_unique (htops _ mem_cons_self).1
      (htops t (mem_cons_of_mem _ ht)).1 hkr hk
    exact (mem_detached.1 ht).1 heq.symm
  have hleave' : ∀ {done left m' t e}, I done left m' → t ∈ m.detached → t ∈ done → t ∉ left →
      m'.builder? t = some e → e.exit < m'.graph.blocks.size ∧
        exit < m'.graph.blocks.size ∧ I done (left ++ [t]) (m'.sentOut e) := by
    intro done left m' t e hI ht hdone hstay he
    have hbound : m'.graph.blocks.size = m₁.graph.blocks.size := by
      rw [(hjoined hI).size, hgraph]
    obtain ⟨d, hd⟩ := (htops t (mem_cons_of_mem _ ht)).2
    obtain ⟨e', he', -, hexit, -⟩ := hplans hI t d hd
    cases he.symm.trans he'
    rw [hbound]
    refine ⟨?_, hf.exit_lt, hleave hI ht hdone hstay he⟩
    rw [hexit]
    exact hf.bound hd mem_cons_self
  obtain ⟨m', hrun', hI'⟩ := connectDetached_keeps (I := I) hf hsize hplans hstep
    (fun t ht => htops t (mem_cons_of_mem _ ht)) hleave' m.detached _ [] m4
    (fun _ h => h) (nodup_cons.1 hnodup).2 hI4 hapart fun _ _ => not_mem_nil
  rw [nil_append, nil_append] at hI'
  -- the layout
  have hconnected : ∀ t ∈ root :: m.detached, Connected m₁.plan? m' t := by
    intro t ht
    refine (hjoined hI').blocks t ?_
    have hmem : t ∈ (root :: m.detached).flatMap (nested m₁.plan? m.builders.size) :=
      mem_flatMap.2 ⟨t, ht, (mem_nested hf hsize (hdeep t ht) t).2 .refl⟩
    exact hmem
  have hread := readBlocks_run hflats hconnected
  refine ⟨flats, m', ?_, hflats, hI'⟩
  have hlen : (flats.flatten ++ [exit]).length = total counts + 1 := by
    rw [length_append, htotal]
    rfl
  have hrest : (do
      m.detached.forM fun b => updateBuilder b fun d => { d with placed := true }
      let count := total (← (root :: m.detached).mapM (countBlocks m.builders.size))
      connectTree m.builders.size root
      m.detached.forM (connectDetached m.builders.size)
      let layout := (← (root :: m.detached).mapM fun b =>
        do return (← builder b).blocks).flatten ++ [exit]
      if layout.length ≠ count + 1 then throw .blockCountMismatch
      return layout : Emit (List BlockId)).run m₁ = .ok (flats.flatten ++ [exit], m') := by
    refine bind_eq_ok.2 ⟨(), mp, hrunp, bind_eq_ok.2 ⟨counts, m₂, hrun2, ?_⟩⟩
    refine bind_eq_ok.2 ⟨(), m4, hrun4, bind_eq_ok.2 ⟨(), m', hrun', ?_⟩⟩
    refine bind_eq_ok.2 ⟨flats, m', hread, ?_⟩
    exact guard_eq_ok.2 ⟨fun hne => hne hlen, rfl⟩
  refine bind_eq_ok.2 ⟨m, m, get_eq_ok.2 ⟨rfl, rfl⟩, ?_⟩
  refine bind_eq_ok.2 ⟨r, m, builder_eq_ok.2 ⟨hr, rfl⟩, ?_⟩
  by_cases hc : (!m.detached.isEmpty && r.fallsOut) = true
  · grind [bind_eq_ok]
  · rw [if_neg hc] at hrun1
    refine Eq.trans (congrArg (StateT.run · m) (if_neg hc)) ?_
    obtain ⟨-, rfl⟩ := pure_eq_ok.1 hrun1
    exact hrest

end Emit

/-! ## Fixing the order of the blocks -/

/-- Only the blocks that control falls into have changed. -/
structure Graph.Threaded (g g' : Graph) : Prop where
  size : g'.blocks.size = g.blocks.size
  values : g'.values = g.values
  symbols : g'.symbols = g.symbols
  returnType : g'.returnType = g.returnType

namespace Graph

/-- Each block of a list falls into the one after it, and no other block changes. -/
theorem thread_run : ∀ (xs : List BlockId) (g : Graph), xs.Nodup → (∀ x ∈ xs, x < g.blocks.size) →
    ∃ g', g.thread xs = .ok g' ∧ g.Threaded g' ∧ (∀ x, x ∉ xs → g'.block? x = g.block? x) ∧
      ∀ before x rest, xs = before ++ x :: rest →
        g'.block? x = (g.block? x).map ({ · with next := rest.head? })
  | [], g, _, _ => by
    refine ⟨g, rfl, ⟨rfl, rfl, rfl, rfl⟩, fun _ _ => rfl, fun before x rest h => ?_⟩
    exact absurd h.symm (by simp)
  | y :: ys, g, hnodup, hlt => by
    have hnodup' := nodup_cons.1 hnodup
    let g1 := g.modifyBlock y ({ · with next := ys.head? })
    have hsize : g1.blocks.size = g.blocks.size := size_modify ..
    have hget : ∀ x, g1.block? x =
        if y = x then (g.block? x).map ({ · with next := ys.head? }) else g.block? x :=
      fun x => get?_modify ..
    obtain ⟨g', hrun, hth, hout, hin⟩ := thread_run ys g1 hnodup'.2 fun x hx => by
      rw [hsize]
      exact hlt x (mem_cons_of_mem _ hx)
    refine ⟨g', ?_, ⟨hth.size.trans hsize, hth.values, hth.symbols, hth.returnType⟩, ?_, ?_⟩
    · have hfirst : g.updateBlock y ({ · with next := ys.head? }) = .ok g1 :=
        Emit.updateBlock_eq_ok.2 ⟨hlt y mem_cons_self, rfl⟩
      rw [thread, hfirst]
      exact hrun
    · grind
    · intro before x rest hsplit
      cases before with
      | nil =>
        cases hsplit
        rw [hout y hnodup'.1, hget, if_pos rfl]
      | cons z before =>
        cases hsplit
        have hne : y ≠ x := by
          rintro rfl
          exact hnodup'.1 (mem_append_right _ mem_cons_self)
        rw [hin before x rest rfl, hget, if_neg hne]

theorem setLayout_run (g : Graph) (hnodup : xs.Nodup)
    (hlt : ∀ x ∈ xs, x < g.blocks.size) : ∃ g', g.setLayout xs = .ok g' ∧ g'.layout = xs ∧
      g.Threaded g' ∧ (∀ x, x ∉ xs → g'.block? x = g.block? x) ∧
      ∀ before x rest, xs = before ++ x :: rest →
        g'.block? x = (g.block? x).map ({ · with next := rest.head? }) := by
  obtain ⟨g', hrun, hth, hout, hin⟩ := thread_run xs g hnodup hlt
  refine ⟨{ g' with layout := xs }, ?_, rfl, ⟨hth.size, hth.values, hth.symbols,
    hth.returnType⟩, hout, hin⟩
  unfold setLayout
  rw [hrun]
  rfl

end Graph

namespace Build

theorem writeListing_run (m : Method) :
    ∃ r w, writeListing.run.run m = .ok (r, { m with written := w }) ∧
      ∀ flaw, r ≠ .error (.malformed flaw) := by
  unfold writeListing
  cases hdir : m.config.listingDir with
  | none =>
    refine ⟨.ok (), m.written, bind_eq_ok.2 (.inl ⟨m, m, rfl, ?_⟩), fun _ h => (nomatch h)⟩
    rw [hdir]
    rfl
  | some dir =>
    by_cases hc : (dir.writable &&
        decide ((listingFile m.graph.name).length ≤ fileNameLimit)) = true
    · refine ⟨.ok (), m.written ++ [(listingFile m.graph.name, m.graph.listing)],
        bind_eq_ok.2 (.inl ⟨m, m, rfl, ?_⟩), fun _ h => (nomatch h)⟩
      rw [hdir]
      refine Eq.trans (congrArg (fun x : Build Unit => x.run.run m) (if_pos hc)) ?_
      rfl
    · refine ⟨.error .listingNotWritten, m.written, bind_eq_ok.2 (.inl ⟨m, m, rfl, ?_⟩),
        fun _ h => (nomatch h)⟩
      rw [hdir]
      refine Eq.trans (congrArg (fun x : Build Unit => x.run.run m) (if_neg hc)) ?_
      rfl

/-- What is left to do when a method is connected: its graph is verified if this is asked for, and
    its listing is written. -/
theorem closing_run (m : Method) :
    ∃ r w, (do
      let m ← get
      if m.config.verify then
        match m.graph.verify with
        | .ok () => pure ()
        | .error flaw => throw (.malformed flaw)
      writeListing : Build Unit).run.run m = .ok (r, { m with written := w }) ∧
      (m.config.verify = true →
        ((∃ flaw, r = .error (.malformed flaw)) ↔ m.graph.verify ≠ .ok ())) := by
  obtain ⟨r, w, hw, hr⟩ := writeListing_run m
  by_cases hv : m.config.verify = true
  · cases hg : m.graph.verify with
    | ok u =>
      refine ⟨r, w, bind_eq_ok.2 (.inl ⟨m, m, rfl, ?_⟩), fun _ => ?_⟩
      · grind
      · grind
    | error flaw =>
      refine ⟨.error (.malformed flaw), m.written, bind_eq_ok.2 (.inl ⟨m, m, rfl, ?_⟩),
        fun _ => ⟨fun _ h => (nomatch h), fun _ => ⟨flaw, rfl⟩⟩⟩
      refine Eq.trans (congrArg (fun x : Build Unit => x.run.run m) (if_pos hv)) ?_
      rw [hg]
      exact bind_eq_ok.2 (.inr ⟨.malformed flaw, m, rfl, rfl⟩)
  · refine ⟨r, w, bind_eq_ok.2 (.inl ⟨m, m, rfl, ?_⟩), fun hv' => absurd hv' hv⟩
    refine Eq.trans (congrArg (fun x : Build Unit => x.run.run m) (if_neg hv)) ?_
    exact hw

/-- Connecting a method fixes the layout that connecting its builders gives, whatever becomes of
    the verification and of the listing.  The answer tells of a malformed graph if verification is
    asked for and fails. -/
theorem connect_run {layout : List BlockId} {g : Graph} (hm : m.connected = false)
    (hrun : Emit.connectBuilders.run m = .ok (layout, m₁))
    (hlayout : m₁.graph.setLayout layout = .ok g) : ∃ r w, connect.run.run m =
      .ok (r, { m₁ with graph := g, connected := true, written := w }) ∧
      (m₁.config.verify = true →
        ((∃ flaw, r = .error (.malformed flaw)) ↔ g.verify ≠ .ok ())) := by
  let m₂ : Method := { m₁ with graph := g, connected := true }
  have hset : (Emit.onGraph (·.setLayout layout)).run m₁ = .ok ((), { m₁ with graph := g }) :=
    Emit.onGraph_eq_ok.2 ⟨g, hlayout, rfl⟩
  obtain ⟨r, w, hend, hanswer⟩ := closing_run m₂
  refine ⟨r, w, bind_eq_ok.2 (.inl ⟨m, m, rfl, ?_⟩), hanswer⟩
  rw [hm]
  refine bind_eq_ok.2 (.inl ⟨layout, m₁, lift_eq_ok.2 ⟨layout, hrun, rfl⟩, ?_⟩)
  refine bind_eq_ok.2 (.inl ⟨(), _, lift_eq_ok.2 ⟨(), hset, rfl⟩, ?_⟩)
  exact bind_eq_ok.2 (.inl ⟨(), m₂, rfl, hend⟩)

end Build

/-! ## The layout -/

namespace Flat

variable {Q : BuilderId → Option Builder} {xs : List BlockId}

theorem congr (hPQ : ∀ c e, P c = some e → ∃ e', Q c = some e' ∧ e'.sequence = e.sequence ∧
    e'.exit = e.exit) (h : Flat P b xs) : Flat Q b xs := by
  obtain ⟨d, ys, hd, hys, rfl⟩ := h
  obtain ⟨d', hd', hseq, hexit⟩ := hPQ b d hd
  exact ⟨d', ys, hd', hseq ▸ hys.congr hPQ, by rw [hexit]⟩

/-- Each block belongs to a builder that hangs from this one. -/
theorem mem (h : Flat P b xs) (hx : x ∈ xs) : ∃ k e, Under P b k ∧ P k = some e ∧ x ∈ e.owned := by
  obtain ⟨d, ys, hd, hys, rfl⟩ := h
  have hin : x ∈ ys → ∃ k e, Under P b k ∧ P k = some e ∧ x ∈ e.owned := by
    intro hx
    rcases Forest.writes_mem hd hys hx with hx | ⟨k, e, hk, he⟩
    · exact ⟨b, d, .refl, hd, mem_cons_of_mem _ hx⟩
    · exact ⟨k, e, hk.to_reflTransGen, he⟩
  split at hx
  · exact hin hx
  · rcases mem_append.1 hx with hx | hx
    · exact hin hx
    · rw [mem_singleton.1 hx]
      exact ⟨b, d, .refl, hd, mem_cons_self⟩

end Flat

theorem forall₂_mem {β : Type} {R : α → β → Prop} {xs : List α} {ys : List β}
    (h : List.Forall₂ R xs ys) {x : α} (hx : x ∈ xs) : ∃ y ∈ ys, R x y := by
  induction h with
  | nil => exact absurd hx not_mem_nil
  | cons hxy _ ih => grind

namespace Forest

variable (hf : Forest P n loose) (hsize : ∀ a d, P a = some d → a < size)

include hf hsize in
theorem flat_nodup (hb : Deep P size fuel b) (h : Flat P b xs) : xs.Nodup := by
  grind [Flat, hf.writes_nodup, hf.exit_not_mem, hb.tree]

theorem flats_mem (h : List.Forall₂ (Flat P) ts flats) (hx : x ∈ flats.flatten) :
    ∃ t ∈ ts, ∃ k e, Under P t k ∧ P k = some e ∧ x ∈ e.owned := by
  obtain ⟨xs, hxs, hx⟩ := mem_flatten.1 hx
  obtain ⟨t, ht, hflat⟩ := forall₂_mem h.flip hxs
  exact ⟨t, ht, Flat.mem hflat hx⟩

include hf hsize in
/-- Trees written out one after the other have no block twice. -/
theorem flats_nodup (hts : ∀ t ∈ ts, (∀ a, ¬ Holds P a t) ∧ ∃ d, P t = some d) (hnodup : ts.Nodup)
    (hflats : List.Forall₂ (Flat P) ts flats) : flats.flatten.Nodup := by
  induction hflats with
  | nil => exact nodup_nil
  | @cons t xs ts flats hflat hrest ih =>
    have hnodup' := nodup_cons.1 hnodup
    have ht := hts t mem_cons_self
    have hts' := fun t' ht' => hts t' (mem_cons_of_mem t ht')
    refine List.Nodup.append (hf.flat_nodup hsize (.top hf ht.1 ht.2) hflat)
      (ih hts' hnodup'.2) ?_
    intro x hx hx'
    obtain ⟨k, e, hk, he, hxe⟩ := hflat.mem hx
    obtain ⟨t', ht', k', e', hk', he', hxe'⟩ := flats_mem hrest hx'
    rw [← hf.owner he he' hxe hxe'] at hk'
    have heq := hf.top_unique ht.1 (hts' t' ht').1 hk hk'
    subst heq
    exact hnodup'.1 ht'

/-- The exit of the method is left out of the body, and no other builder has it. -/
theorem exit_not_mem_flats (hf : Forest P n loose)
    (hts : ∀ t ∈ Method.root :: ts, ∀ a, ¬ Holds P a t) (hnodup : (Method.root :: ts).Nodup)
    (hflats : List.Forall₂ (Flat P) (Method.root :: ts) flats) : Graph.exit ∉ flats.flatten := by
  intro hx
  obtain ⟨r, hr, -, hexit⟩ := hf.root
  have hroot := hts _ List.mem_cons_self
  cases hflats with
  | cons hflat hrest =>
    rcases List.mem_append.1 hx with hx | hx
    · obtain ⟨d, ys, hd, hys, hxs⟩ := hflat
      cases hr.symm.trans hd
      rw [hxs, if_pos rfl, ← hexit] at hx
      exact hf.exit_not_mem (hf.not_circular hroot .refl) hr hys hx
    · obtain ⟨t, ht, k, e, hk, he, hxe⟩ := flats_mem hrest hx
      have hkr : Method.root = k := hf.owner hr he (hexit ▸ List.mem_cons_self) hxe
      subst hkr
      have heq := hf.top_unique hroot (hts t (List.mem_cons_of_mem _ ht)) .refl hk
      subst heq
      exact (List.nodup_cons.1 hnodup).1 ht

end Forest

/-- What was counted at the top was counted everywhere below. -/
theorem Counted.under (h : Counted P m) {k : BuilderId} {e : Builder} {j : Nat}
    (ht : m.builder? t = some e) (hj : e.count = some j) (hk : Under P t k) :
    ∃ f i, m.builder? k = some f ∧ f.count = some i := by
  induction hk with
  | refl => exact ⟨e, j, ht, hj⟩
  | tail _ hbc ih =>
    obtain ⟨f, i, hf, hi⟩ := ih
    exact h.closed hf hi hbc

/-- A builder that is part of no sequence is contained in none. -/
theorem Forest.mem_detached_iff (hf : Forest m.plan? n loose) : t ∈ m.detached ↔
      t ≠ Method.root ∧ t < m.builders.size ∧ ∀ a, ¬ Holds m.builder? a t := by
  rw [mem_detached]
  constructor
  · rintro ⟨hroot, d, hd, hp⟩
    refine ⟨hroot, lt_of_builder? hd, ?_⟩
    rintro a ⟨e, he, hc⟩
    obtain ⟨-, d', hd', hp'⟩ := hf.child (plan?_of_builder? he) hc
    cases (plan?_of_builder? hd).symm.trans hd'
    exact false_ne_true (hp.symm.trans hp')
  · rintro ⟨hroot, hlt, hheld⟩
    obtain ⟨d, hd⟩ := exists_builder? hlt
    refine ⟨hroot, d, hd, ?_⟩
    cases hp : d.placed with
    | false => rfl
    | true =>
      obtain ⟨a, e, ha, hc⟩ := hf.placed (plan?_of_builder? hd) hp
      obtain ⟨e', he', rfl⟩ := builder?_of_plan? ha
      exact absurd ⟨e', he', hc⟩ (hheld a)

/-- The order of the blocks is fixed: each block of the list falls into the one after it. -/
structure Method.Arranged (m : Method) (xs : List BlockId) (m' : Method) : Prop where
  builders : ∀ b, m'.builder? b = m.builder? b
  threaded : m.graph.Threaded m'.graph
  layout : m'.graph.layout = xs
  outside : ∀ x, x ∉ xs → m'.block? x = m.block? x
  inside : ∀ before x rest, xs = before ++ x :: rest →
    m'.block? x = (m.block? x).map ({ · with next := rest.head? })

namespace Method.Arranged

variable {xs : List BlockId}

theorem block? (h : m.Arranged xs m') (x : BlockId) : ∃ next : Block → Option BlockId,
    m'.block? x = (m.block? x).map fun blk => { blk with next := next blk } := by
  by_cases hx : x ∈ xs
  · obtain ⟨before, rest, hsplit⟩ := append_of_mem hx
    exact ⟨fun _ => rest.head?, h.inside before x rest hsplit⟩
  · refine ⟨Block.next, (h.outside x hx).trans ?_⟩
    cases m.block? x <;> rfl

theorem succsOf (h : m.Arranged xs m') (x : BlockId) : m'.graph.succsOf x = m.graph.succsOf x := by
  obtain ⟨next, hx⟩ := h.block? x
  unfold Graph.succsOf
  rw [show m'.graph.block? x = _ from hx]
  cases hm : m.block? x <;> rw [show m.graph.block? x = _ from hm] <;> rfl

theorem predsOf (h : m.Arranged xs m') (x : BlockId) : m'.graph.predsOf x = m.graph.predsOf x := by
  obtain ⟨next, hx⟩ := h.block? x
  unfold Graph.predsOf
  rw [show m'.graph.block? x = _ from hx]
  cases hm : m.block? x <;> rw [show m.graph.block? x = _ from hm] <;> rfl

end Method.Arranged

namespace Prepared

variable {m₁ m₂ : Method}

include hs in
theorem forest (h : Prepared m m₁ m₂) : Forest m₁.plan? m₂.graph.blocks.size [] := by
  rw [h.graph]
  exact ((h.builds .full).sound hs).forest

theorem plans (h : Prepared m m₁ m₂) : Plans m₁.plan? m₂ := (Plans.self m₁).alike h.alike

theorem lt_size (h : Prepared m m₁ m₂) {a : BuilderId} (hd : m₁.plan? a = some d) :
    a < m.builders.size := by
  obtain ⟨e, he, -⟩ := builder?_of_plan? hd
  rw [← h.extended.builders]
  exact lt_of_builder? he

include hs in
/-- No block is there twice, and all are blocks of the method. -/
theorem layout (h : Prepared m m₁ m₂)
    (hflats : List.Forall₂ (Flat m₁.plan?) (Method.root :: m.detached) flats) :
    (flats.flatten ++ [Graph.exit]).Nodup ∧
      ∀ x ∈ flats.flatten ++ [Graph.exit], x < m₂.graph.blocks.size := by
  have hf := h.forest hs
  have htops := h.extended.tops hf
  have hnodup : (root :: m.detached).Nodup :=
    nodup_cons.2 ⟨fun h => (mem_detached.1 h).1 rfl, m.detached_nodup⟩
  refine ⟨List.Nodup.append (hf.flats_nodup (fun _ _ => h.lt_size) htops hnodup hflats)
    (nodup_singleton _) fun x hx hx' => ?_, fun x hx => ?_⟩
  · grind [hf.exit_not_mem_flats]
  · have hbound := @hf.bound
    have hexit_lt := @hf.exit_lt
    grind [Forest.flats_mem]

include hs in
/-- What hangs from the body or from a builder that nothing contains is connected. -/
theorem mem_nested (h : Prepared m m₁ m₂) (ht : t ∈ Method.root :: m.detached)
    (hb : Under m₁.plan? t b) :
    b ∈ (Method.root :: m.detached).flatMap (nested m₁.plan? m.builders.size) := by
  have hf := h.forest hs
  obtain ⟨htop, hd⟩ := h.extended.tops hf t ht
  exact mem_flatMap.2
    ⟨t, ht, (MethodGraph.mem_nested hf (fun _ _ => h.lt_size) (.top hf htop hd) b).2 hb⟩

include hs in
/-- Connecting the method fixes the order that connecting its builders gave. -/
theorem connect (h : Prepared m m₁ m₂) {m3 : Method}
    (hrun : Emit.connectBuilders.run m = .ok (flats.flatten ++ [Graph.exit], m3))
    (hflats : List.Forall₂ (Flat m₁.plan?) (Method.root :: m.detached) flats)
    (hsize : m3.graph.blocks.size = m₂.graph.blocks.size) :
    ∃ r m', Build.connect.run.run m = .ok (r, m') ∧
      m3.Arranged (flats.flatten ++ [Graph.exit]) m' := by
  obtain ⟨hnodup, hbound⟩ := h.layout hs hflats
  rw [← hsize] at hbound
  obtain ⟨g, hg, hlayout, hthreaded, hout, hin⟩ := m3.graph.setLayout_run hnodup hbound
  obtain ⟨r, w, hconnect, -⟩ := Build.connect_run hs.idle.method hrun hg
  exact ⟨r, _, hconnect, fun _ => rfl, hthreaded, hlayout, hout, hin⟩

end Prepared

/-- Connecting a method never meets a fault, and its layout is the forest of its builders written
    out: the body, the builders that are contained in none in the order of their creation, and the
    exit of the method.  No block is there twice, and every builder that hangs from one of these
    consists of what it comes to and was counted so.  Sequences are as they were, except that the
    body may have got one more block, for the transfer around the code behind it. -/
theorem connect_writes_forest (h : m.Reachable) :
    ∃ r m', Build.connect.run.run m = .ok (r, m') ∧ m'.builders.size = m.builders.size ∧
      (∀ b d, m.builder? b = some d → ∃ e, m'.builder? b = some e ∧ e.entry = d.entry ∧
        e.exit = d.exit ∧ (e.sequence = d.sequence ∨ b = Method.root ∧
          ∃ x, m.graph.blocks.size ≤ x ∧ e.sequence = d.sequence ++ [.block x])) ∧
      ∃ tops flats, tops.Pairwise (· < ·) ∧
        (∀ t, t ∈ tops ↔
          t ≠ Method.root ∧ t < m.builders.size ∧ ∀ a, ¬ Holds m.builder? a t) ∧
        List.Forall₂ (Flat m'.builder?) (Method.root :: tops) flats ∧
        m'.graph.layout = flats.flatten ++ [Graph.exit] ∧ m'.graph.layout.Nodup ∧
        ∀ t ∈ Method.root :: tops, ∀ b, Under m'.builder? t b → ∃ e, m'.builder? b = some e ∧
          Flat m'.builder? b e.blocks ∧ e.count = some e.blocks.length := by
  have hs := h.sound
  obtain ⟨m₁, m₂, hprep, hkeeps⟩ := Emit.connectBuilders_keeps hs
  have hf := hprep.forest hs
  obtain ⟨flats, m₃, hrun, hflats, hjoined⟩ := hkeeps
    (fun done _ m' => Joined m₁.plan? m₂ done m') id
    (fun hI hd hparts hnew _ => by
      obtain ⟨e, xs, -, -, -, -, -, hrun, hI'⟩ := hI.step hf hprep.plans hd hparts hnew
      exact ⟨_, hrun, hI'⟩)
    (fun hI _ _ _ _ => hI.leave _) (.start _ m₂)
  obtain ⟨hlayout, hbound⟩ := hprep.layout hs hflats
  rw [← hjoined.size] at hbound
  obtain ⟨g, hg, hgl, -⟩ := m₃.graph.setLayout_run hlayout hbound
  obtain ⟨r, w, hconnect, -⟩ := Build.connect_run hs.idle.method hrun hg
  -- the plans are those of the connected method
  have halike : m₁.Alike m₃ := hprep.alike.trans hjoined.alike
  have hto : ∀ c e, m₁.plan? c = some e → ∃ e', m₃.builder? c = some e' ∧
      e'.sequence = e.sequence ∧ e'.exit = e.exit := by
    intro c e he
    obtain ⟨e', he', hseq, hexit, -⟩ := (Plans.self m₁).alike halike c e he
    exact ⟨e', he', hseq, hexit⟩
  have hholds : ∀ {a c}, Holds m₃.builder? a c → Holds m₁.plan? a c := by
    rintro a c ⟨e, he, hc⟩
    obtain ⟨d, hd, hframe⟩ := halike.symm.builder? he
    refine ⟨d.plan, Method.plan?_of_builder? hd, ?_⟩
    have hseq := Builder.sequence_eq_of_frame hframe
    exact Builder.mem_children.2 (hseq ▸ Builder.mem_children.1 hc)
  refine ⟨r, _, hconnect, halike.size.trans hprep.extended.builders, ?_, m.detached, flats,
    m.detached_sorted, fun t => hs.forest.mem_detached_iff, ?_, hgl, ?_, ?_⟩
  · intro b d hd
    obtain ⟨e, he, hentry, hexit, hseq⟩ : ∃ e, m₁.builder? b = some e ∧ e.entry = d.entry ∧
        e.exit = d.exit ∧ (e.sequence = d.sequence ∨ b = Method.root ∧
          ∃ x, m.graph.blocks.size ≤ x ∧ e.sequence = d.sequence ++ [.block x]) := by
      by_cases hb : b = Method.root
      · subst hb
        obtain ⟨e, he, hentry, hexit, -, hseq⟩ := hprep.extended.this d hd
        exact ⟨e, he, hentry, hexit, hseq.imp id fun h => ⟨rfl, h⟩⟩
      · exact ⟨d, (hprep.extended.others b hb).trans hd, rfl, rfl, .inl rfl⟩
    obtain ⟨e', he', hframe⟩ := halike.builder? he
    refine ⟨e', he', (Builder.entry_eq_of_frame hframe).trans hentry,
      (Builder.exit_eq_of_frame hframe).trans hexit, ?_⟩
    rw [Builder.sequence_eq_of_frame hframe]
    exact hseq
  · exact hflats.imp fun _ _ h => h.congr hto
  · rw [hgl]
    exact hlayout
  · intro t ht b hb
    have hb₁ : Under m₁.plan? t b := hb.lift id fun _ _ h => hholds h
    have hdone := hprep.mem_nested hs ht hb₁
    obtain ⟨e, he, hflat⟩ := hjoined.blocks b hdone
    obtain ⟨d, k, hd, hk⟩ := hprep.tops t ht
    obtain ⟨d', j, hd', hj⟩ := hprep.counted.under hd hk hb₁
    obtain ⟨e', he', hcount⟩ := hjoined.counts b d' hd'
    cases he.symm.trans he'
    obtain ⟨xs, hxs, hlen⟩ := hprep.counted.right hd' hj
    refine ⟨e, he, hflat.congr hto, ?_⟩
    rw [hcount, hj, ← hlen, hxs.unique hflat]

/-- A case of it: builders `1` and `2` hold each other, `3` is in the root and `4` in no builder. -/
theorem connect_writes_forest_circle :
    ∃ m r m' tops flats, (Method.new "f" {}).after [.orphan, .orphan, .append 1 2, .append 2 1,
        .orphan, .append 0 3, .returnVoid 3, .orphan] = .ok m ∧
      Build.connect.run.run m = .ok (r, m') ∧
      (∀ t, t ∈ tops ↔ t ≠ Method.root ∧ t < m.builders.size ∧ ∀ a, ¬ Holds m.builder? a t) ∧
      List.Forall₂ (Flat m'.builder?) (Method.root :: tops) flats ∧
      m'.graph.layout = List.flatten flats ++ [Graph.exit] := by
  have hcheck : passes ((Method.new "f" {}).after [.orphan, .orphan, .append 1 2, .append 2 1,
      .orphan, .append 0 3, .returnVoid 3, .orphan]) (fun _ => true) = true := by decide +kernel
  obtain ⟨m, h, -⟩ := of_passes hcheck
  obtain ⟨r, m', hrun, -, -, tops, flats, -, htops, hflats, hlayout, -⟩ :=
    connect_writes_forest ⟨_, _, _, h⟩
  exact ⟨m, r, m', tops, flats, h, hrun, htops, hflats, hlayout⟩

end MethodGraph
