import Mathlib.Logic.Function.Basic
import Mathlib.Logic.Relation
import Mathlib.Order.WithBot
import MethodGraph.Proofs.Bridged
import MethodGraph.Proofs.Suited
/-!
  Methods in which control only climbs.

  Blocks have ranks.  The blocks of a builder have the rank of the builder, its exit has the highest
  rank that there is, and of two blocks of one rank the one that was made earlier comes first.  Code
  that goes straight on, and transfers to builders of a higher rank, keep it so that all edges lead
  upwards (`Method.Climbs`).  The body of the method is where control starts: it has a rank below
  those of the builders that it contains until the first of them is appended to it, and the highest
  rank from then on.

  Main statements: whatever line of code is emitted into a builder keeps the method climbing, and so
  does connecting it (`Method.Ascends`, with its instances); and no edges of a graph that climbs
  lead from a block back to it (`Graph.Climbs.acyclic`).
-/

namespace MethodGraph

open Method List Function Nat

variable {u : Unit}

variable {m m' : Method} {b : BuilderId} {x y : BlockId} {n n' : Nat} {r : WithTop Nat}
  {rank rank' : BlockId → WithTop Nat} {level : BuilderId → WithTop Nat} {f : Builder → Builder}

/-! ## Ranks -/

/-- The first block is of a lower rank, or of the same rank and made earlier.  Everything precedes
    the exit of the method, and the exit precedes nothing. -/
def Precedes (rank : BlockId → WithTop Nat) (x y : BlockId) : Prop :=
  x ≠ Graph.exit ∧ (y = Graph.exit ∨ rank x < rank y ∨ rank x = rank y ∧ x < y)

namespace Precedes

theorem irrefl (h : Precedes rank x x) : False := by grind [Precedes]

theorem trans {z : BlockId} (h : Precedes rank x y) (h' : Precedes rank y z) :
    Precedes rank x z := by grind [Precedes]

instance : Trans (Precedes rank) (Precedes rank) (Precedes rank) := ⟨trans⟩

end Precedes

/-- A block that there is, other than the exit of the method, and its rank. -/
structure AtRank (rank : BlockId → WithTop Nat) (n : Nat) (r : WithTop Nat) (x : BlockId) :
    Prop where
  lt : x < n
  ne : x ≠ Graph.exit
  rank : rank x = r

/-- All edges from a block lead upwards, no transaction begins in it, and it has no place in a
    layout yet. -/
structure Block.Climbs (rank : BlockId → WithTop Nat) (n : Nat) (x : BlockId) (blk : Block) :
    Prop where
  edges : ∀ y ∈ blk.allSuccs, y < n ∧ Precedes rank x y
  plain : ∀ op ∈ blk.operations, op.opcode ≠ .transactionBegin
  loose : blk.next = none

/-- The blocks of a builder have the rank of the builder; those of the body may have been made while
    it had another one.  Only the body contains builders. -/
structure Builder.Climbs (rank : BlockId → WithTop Nat) (n : Nat) (r : WithTop Nat)
    (b : BuilderId) (d : Builder) : Prop where
  tail : ∀ x, d.tail.block? = some x → AtRank rank n r x
  block : ∀ x, .block x ∈ d.sequence → AtRank rank n (if b = Method.root then rank x else r) x
  child : ∀ c, .builder c ∈ d.sequence → b = Method.root ∧ c ≠ Method.root
  blocks : b ≠ Method.root → ∀ x ∈ d.blocks, AtRank rank n (rank x) x
  body : b = Method.root → d.exit = Graph.exit
  apart : b ≠ Method.root → r ≠ ⊤ ∧ AtRank rank n r d.entry ∧ AtRank rank n ⊤ d.exit

/-- All edges lead upwards. -/
structure Method.Climbs (level : BuilderId → WithTop Nat) (rank : BlockId → WithTop Nat)
    (m : Method) : Prop where
  exit : Graph.exit < m.graph.blocks.size
  body : Method.root < m.builders.size
  blocks : ∀ x blk, m.block? x = some blk → blk.Climbs rank m.graph.blocks.size x
  builders : ∀ b d, m.builder? b = some d → d.Climbs rank m.graph.blocks.size (level b) b

/-! ## More blocks -/

theorem AtRank.mono (h : AtRank rank n r x) (hle : n ≤ n') (hrank : ∀ y < n, rank' y = rank y) :
    AtRank rank' n' r x :=
  ⟨h.lt.trans_le hle, h.ne, (hrank x h.lt).trans h.rank⟩

theorem Block.Climbs.mono {blk : Block} (h : blk.Climbs rank n x) (hx : x < n) (hle : n ≤ n')
    (hrank : ∀ y < n, rank' y = rank y) : blk.Climbs rank' n' x where
  edges y hy := by grind [Precedes, h.edges]
  plain := h.plain
  loose := h.loose

theorem Builder.Climbs.mono {d : Builder} (h : d.Climbs rank n r b) (hle : n ≤ n')
    (hrank : ∀ y < n, rank' y = rank y) : d.Climbs rank' n' r b where
  tail x hx := (h.tail x hx).mono hle hrank
  block x hx := by
    have hat := h.block x hx
    rw [hrank x hat.lt]
    exact hat.mono hle hrank
  child := h.child
  blocks hb x hx := by
    have hat := h.blocks hb x hx
    rw [hrank x hat.lt]
    exact hat.mono hle hrank
  body := h.body
  apart hb := by
    obtain ⟨hlow, hentry, hexit⟩ := h.apart hb
    exact ⟨hlow, hentry.mono hle hrank, hexit.mono hle hrank⟩

/-- Where an operation can go, its block precedes. -/
theorem AtRank.precedes (h : AtRank rank n r x) (hy : r < rank y) : Precedes rank x y :=
  ⟨h.ne, .inr (.inl (h.rank ▸ hy))⟩

theorem AtRank.precedes_exit (h : AtRank rank n r x) : Precedes rank x Graph.exit :=
  ⟨h.ne, .inl rfl⟩

namespace Method.Climbs

/-- In a new method there are no edges. -/
theorem new (name : String) (config : Config) (r : WithTop Nat) :
    (Method.new name config).Climbs (fun _ => r) (fun _ => r) where
  exit := lt_succ_self 1
  body := zero_lt_succ 0
  blocks x blk hx := by
    rw [eq_of_block?_new hx]
    exact ⟨fun _ hy => absurd hy not_mem_nil, fun _ hop => absurd hop not_mem_nil, rfl⟩
  builders b d hd := by
    have hentry : AtRank (fun _ => r) 2 r Graph.entry := ⟨zero_lt_succ 1, nofun, rfl⟩
    cases b with
    | succ b => cases hd
    | zero =>
      cases hd
      refine ⟨fun x hx => ?_, fun x hx => ?_, fun c hc => ?_, fun hne => absurd rfl hne,
        fun _ => rfl, fun hne => absurd rfl hne⟩
      · cases hx
        exact hentry
      · cases mem_singleton.1 hx
        exact hentry
      · cases mem_singleton.1 hc

variable (h : m.Climbs level rank)

include h

/-- Nothing but blocks and builders matters. -/
theorem congr (hg : m'.graph.blocks = m.graph.blocks)
    (hb : m'.builders = m.builders) : m'.Climbs level rank := by
  have hblock : ∀ x, m'.block? x = m.block? x := by
    intro x
    unfold block? Graph.block?
    rw [hg]
  have hbuilder : ∀ b, m'.builder? b = m.builder? b := by
    intro b
    unfold builder?
    rw [hb]
  refine ⟨hg ▸ h.exit, hb ▸ h.body, fun x blk hx => ?_, fun b d hd => ?_⟩
  · rw [hg]
    exact h.blocks x blk (hblock x ▸ hx)
  · rw [hg]
    exact h.builders b d (hbuilder b ▸ hd)

theorem withBlock {f : Block → Block}
    (hf : ∀ blk, blk.Climbs rank m.graph.blocks.size x →
      (f blk).Climbs rank m.graph.blocks.size x) : (m.withBlock x f).Climbs level rank where
  exit := by
    rw [size_withBlock]
    exact h.exit
  body := h.body
  blocks y blk hy := by grind [size_withBlock, of_block?_withBlock, h.blocks]
  builders b d hd := by
    rw [size_withBlock]
    exact h.builders b d hd

/-- A builder is changed, and with it the rank of what is added to it. -/
theorem withBuilder (hf : ∀ d, m.builder? b = some d → (f d).Climbs rank m.graph.blocks.size r b) :
    (m.withBuilder b f).Climbs (Function.update level b r) rank where
  exit := h.exit
  body := (Arena.size_modify ..).symm ▸ h.body
  blocks := h.blocks
  builders c e he := by grind [of_builder?_withBuilder, withBuilder, h.builders]

theorem withBuilder_self (hf : ∀ d, d.Climbs rank m.graph.blocks.size (level b) b →
      (f d).Climbs rank m.graph.blocks.size (level b) b) :
    (m.withBuilder b f).Climbs level rank := by
  have hwith := h.withBuilder (f := f) fun d hd => hf d (h.builders b d hd)
  rwa [update_eq_self] at hwith

theorem withEdge (hy : y < m.graph.blocks.size)
    (hxy : Precedes rank x y) : (m.withEdge x y).Climbs level rank := by
  have hsource : (m.withBlock x (·.addSucc y)).Climbs level rank := by
    refine h.withBlock fun blk hblk => ⟨fun z hz => ?_, hblk.plain, hblk.loose⟩
    rcases mem_append.1 hz with hz | hz
    · rcases mem_addNew.1 hz with hz | rfl
      · exact hblk.edges z (mem_append_left _ hz)
      · exact ⟨hy, hxy⟩
    · exact hblk.edges z (mem_append_right _ hz)
  exact hsource.withBlock fun blk hblk => ⟨hblk.edges, hblk.plain, hblk.loose⟩

theorem withEdges {ys : List BlockId}
    (hys : ∀ y ∈ ys, y < m.graph.blocks.size ∧ Precedes rank x y) :
    (m.withEdges x ys).Climbs level rank := by
  induction ys generalizing m with
  | nil => exact h
  | cons y ys ih => grind [size_withEdge, withEdges, h.withEdge]

theorem linkFrom (source : Option BlockId)
    (hlink : ∀ x, source = some x → y < m.graph.blocks.size ∧ Precedes rank x y) :
    (m.linkFrom source y).Climbs level rank := by
  cases source with
  | none => exact h
  | some x => exact h.withEdge (hlink x rfl).1 (hlink x rfl).2

theorem push {op : Operation} (hop : op.opcode ≠ .transactionBegin) :
    (m.withBlock x (·.push op)).Climbs level rank := by
  refine h.withBlock fun blk hblk => ⟨hblk.edges, fun o ho => ?_, hblk.loose⟩
  rcases mem_append.1 ho with ho | ho
  · exact hblk.plain o ho
  · rw [mem_singleton.1 ho]
    exact hop

/-- A new block may have any rank. -/
theorem addBlock (r : WithTop Nat) :
    m.addBlock.Climbs level (Function.update rank m.graph.blocks.size r) := by
  have hrank : ∀ y < m.graph.blocks.size,
      update rank m.graph.blocks.size r y = rank y :=
    fun y hy => Function.update_of_ne hy.ne ..
  have hle : m.graph.blocks.size ≤ m.addBlock.graph.blocks.size := by
    rw [size_addBlock]
    exact le_succ _
  refine ⟨h.exit.trans_le hle, h.body, fun x blk hx => ?_, fun b d hd => ?_⟩
  · rw [block?_addBlock] at hx
    split at hx
    · cases hx
      exact ⟨fun y hy => absurd hy not_mem_nil, fun op hop => absurd hop not_mem_nil, rfl⟩
    · exact (h.blocks x blk hx).mono (lt_of_block? hx) hle hrank
  · exact (h.builders b d hd).mono hle hrank

theorem atRank_addBlock (r : WithTop Nat) :
    AtRank (Function.update rank m.graph.blocks.size r) m.addBlock.graph.blocks.size r
      m.graph.blocks.size where
  lt := by
    rw [size_addBlock]
    exact lt_succ_self _
  ne := ne_of_gt h.exit
  rank := update_self ..

/-- A new builder may have any rank but the highest. -/
theorem addBuilder (hr : r ≠ ⊤) (record : Option BytecodeRecord) :
    ∃ rank', (m.addBuilder record).Climbs (Function.update level m.builders.size r) rank' := by
  have hone := h.addBlock r
  have htwo := hone.addBlock ⊤
  have hexit := hone.atRank_addBlock ⊤
  have hentry : AtRank (update (update rank m.graph.blocks.size r)
      m.addBlock.graph.blocks.size ⊤) m.addBlock.addBlock.graph.blocks.size r
      m.graph.blocks.size :=
    (h.atRank_addBlock r).mono (le_of_lt hexit.lt)
      fun y hy => Function.update_of_ne hy.ne ..
  have hroot : m.builders.size ≠ root := ne_of_gt h.body
  refine ⟨_, htwo.exit, ?_, htwo.blocks, fun b d hd => ?_⟩
  · grind [Arena.size_alloc, addBuilder]
  · rw [builder?_addBuilder] at hd
    split at hd
    · next hb =>
      cases hd
      rw [hb, update_self]
      refine ⟨fun x hx => ?_, fun x hx => ?_, fun c hc => ?_, fun _ x hx => ?_, fun hb => ?_,
        fun _ => ⟨hr, hentry, ?_⟩⟩
      · cases hx
        exact hentry
      · cases mem_singleton.1 hx
        rw [if_neg hroot]
        exact hentry
      · cases mem_singleton.1 hc
      · exact absurd hx not_mem_nil
      · exact absurd hb hroot
      · show AtRank _ _ ⊤ (m.graph.blocks.size + 1)
        rw [← size_addBlock (m := m)]
        exact hexit
    · next hb =>
      rw [update_of_ne hb]
      exact htwo.builders b d hd

end Method.Climbs

/-! ## Emission -/

variable (h : m.Climbs level rank)

namespace Emit

include h in
/-- The open block of a builder has the rank of the builder. -/
theorem openBlock_climbs (hrun : (openBlock b).run m = .ok (x, m')) :
    ∃ rank', m'.Climbs level rank' ∧ AtRank rank' m'.graph.blocks.size (level b) x ∧
      m.graph.blocks.size ≤ m'.graph.blocks.size ∧ ∀ y < m.graph.blocks.size, rank' y = rank y := by
  obtain ⟨d, hd, ⟨ht, rfl⟩ | ⟨-, rfl, rfl, -⟩⟩ := openBlock_eq_ok hrun
  · refine ⟨rank, h, (h.builders b d hd).tail x ?_, le_rfl, fun _ _ => rfl⟩
    rw [ht]
    rfl
  · have hnew := h.addBlock (level b)
    have hat := h.atRank_addBlock (level b)
    -- control falls into the new block from one that was made before
    have hlink := hnew.linkFrom (y := m.graph.blocks.size) d.tail.block? fun z hz => by
      have htail := (hnew.builders b d hd).tail z hz
      have hlt := ((h.builders b d hd).tail z hz).lt
      exact ⟨hat.lt, htail.ne, .inr (.inr ⟨htail.rank.trans hat.rank.symm, hlt⟩)⟩
    have hsize := size_linkFrom m.addBlock d.tail.block? m.graph.blocks.size
    refine ⟨_, hlink.withBuilder_self fun d' hd' => ?_, ?_, ?_, fun y hy => ?_⟩
    · rw [hsize] at hd' ⊢
      refine ⟨fun z hz => ?_, fun z hz => ?_, fun c hc => ?_, hd'.blocks, hd'.body, hd'.apart⟩
      · cases hz
        exact hat
      · grind [Builder.extend, hd'.block]
      · grind [Builder.extend, hd'.child]
    · show AtRank _ (linkFrom ..).graph.blocks.size _ _
      rw [hsize]
      exact hat
    · show _ ≤ (linkFrom ..).graph.blocks.size
      rw [hsize, size_addBlock]
      exact le_succ _
    · exact Function.update_of_ne hy.ne ..

include h in
/-- A transfer to the exit of the method, or to blocks of a higher rank. -/
theorem transfer_climbs {opcode : Opcode} {operands : List ValueId} {targets : List BlockId}
    (hop : opcode ≠ .transactionBegin)
    (htargets : ∀ y ∈ targets, y = Graph.exit ∨ y < m.graph.blocks.size ∧ level b < rank y)
    (hrun : (transfer b opcode operands targets).run m = .ok (u, m')) :
    ∃ rank', m'.Climbs level rank' := by
  obtain ⟨x, m1, h1, -, -, rfl⟩ := transfer_eq_ok hrun
  obtain ⟨rank', hopen, hx, hle, hrank⟩ := openBlock_climbs h h1
  have hpush : (m1.withBlock x (·.push { opcode, operands, targets })).Climbs level rank' :=
    hopen.push hop
  have hup : ∀ y ∈ targets, y < m1.graph.blocks.size ∧ Precedes rank' x y := by
    grind [hopen.exit, hx.precedes_exit, hx.precedes]
  refine ⟨rank', (hpush.withEdges ?_).withBuilder_self fun d hd => ?_⟩
  · rw [size_withBlock]
    exact hup
  · exact ⟨fun z hz => hd.tail z (Tail.close_block? hz), hd.block, hd.child, hd.blocks, hd.body,
      hd.apart⟩

include h in
/-- A builder is appended to the body, which so far is of a lower rank. -/
theorem append_climbs {c : BuilderId} (hlevel : level Method.root < level c)
    (hrun : (append Method.root c).run m = .ok (u, m')) :
    m'.Climbs (Function.update level Method.root ⊤) rank := by
  obtain ⟨d, e, hd, he, hne, hroot, -, -, hm'⟩ := append_eq_ok hrun
  obtain ⟨-, hentry, hexit⟩ := (h.builders c e he).apart hroot
  have hplaced : (m.withBuilder c ({ · with placed := true })).Climbs level rank :=
    h.withBuilder_self fun d hd =>
      ⟨hd.tail, hd.block, hd.child, hd.blocks, hd.body, hd.apart⟩
  have hbody := h.builders _ d hd
  have hlink := hplaced.linkFrom (y := e.entry) d.tail.block? fun z hz =>
    ⟨hentry.lt, (hbody.tail z hz).precedes (hentry.rank ▸ hlevel)⟩
  have hsize := size_linkFrom (m.withBuilder c ({ · with placed := true })) d.tail.block?
    e.entry
  have hnest := hlink.withBuilder (b := root) (r := ⊤)
    (f := (·.extend (.builder c) (.owed e.exit))) fun d' hd' => by
      have hd' := hlink.builders _ d' hd'
      rw [hsize] at hd' ⊢
      refine ⟨fun x hx => ?_, fun x hx => ?_, fun k hk => ?_, fun hne => absurd rfl hne, hd'.body,
        fun hne => absurd rfl hne⟩
      · cases hx
        exact hexit
      · grind [Builder.extend, hd'.block]
      · grind [Builder.extend, hd'.child]
  rcases hm' with ⟨-, rfl⟩ | ⟨-, rfl⟩
  · exact hnest.withBlock fun blk hblk => ⟨hblk.edges, hblk.plain, hblk.loose⟩
  · exact hnest

end Emit

/-! ## Lines of code -/

/-- If one method climbs, with builders of the given ranks, so does the other. -/
def Method.Ascends (level : BuilderId → WithTop Nat) (m m' : Method) : Prop :=
  ∀ rank, m.Climbs level rank → ∃ rank', m'.Climbs level rank'

instance (level : BuilderId → WithTop Nat) : Accrues (Method.Ascends level) where
  refl _ rank h := ⟨rank, h⟩
  trans h h' rank hrank := by
    obtain ⟨rank1, h1⟩ := h rank hrank
    exact h' rank1 h1

namespace Emit

include h in
theorem updateRecord_climbs {f : BytecodeRecord → BytecodeRecord}
    (hrun : (updateRecord b f).run m = .ok (u, m')) : m'.Climbs level rank := by
  obtain ⟨d, r, -, -, rfl⟩ := updateRecord_eq_ok.1 hrun
  exact h.withBuilder_self fun d hd =>
    ⟨hd.tail, hd.block, hd.child, hd.blocks, hd.body, hd.apart⟩

instance (level : BuilderId → WithTop Nat) (b : BuilderId) :
    Rewrites b (Method.Ascends level) where
  value _ _ rank h := ⟨rank, h.congr rfl rfl⟩
  symbol m name ty kind rank h := ⟨rank, h.congr (m.graph.define_keeps name ty kind).1 rfl⟩
  emit {m m' op u} hop _ hrun rank h := by
    obtain ⟨x, m1, h1, hrun⟩ := bind_eq_ok.1 hrun
    obtain ⟨rank', hopen, -⟩ := openBlock_climbs h h1
    obtain ⟨-, rfl⟩ := push_eq_ok.1 hrun
    refine ⟨rank', hopen.push fun hbegin => ?_⟩
    have hstays := hop.stays
    unfold Operation.isTerminator at hstays
    rw [hbegin] at hstays
    cases hstays
  record _ hrun rank h := ⟨rank, updateRecord_climbs h hrun⟩

/-! ## Connecting -/

/-- The blocks of a sequence are its own or those of the builders in it. -/
theorem of_mem_entryBlocks {es : List Entry} {xss : List (List BlockId)}
    (hrun : (es.mapM entryBlocks).run m = .ok (xss, m')) : m' = m ∧ ∀ x ∈ xss.flatten,
      .block x ∈ es ∨ ∃ c d, .builder c ∈ es ∧ m.builder? c = some d ∧ x ∈ d.blocks := by
  induction es generalizing xss with
  | nil => grind [pure_eq_ok]
  | cons e es ih =>
    rw [mapM_cons] at hrun
    obtain ⟨xs, m1, h1, hrun⟩ := bind_eq_ok.1 hrun
    obtain ⟨yss, m2, h2, hrun⟩ := bind_eq_ok.1 hrun
    obtain ⟨rfl, rfl⟩ := pure_eq_ok.1 hrun
    have hfirst : m1 = m ∧ ∀ x ∈ xs, .block x ∈ e :: es ∨
        ∃ c d, .builder c ∈ e :: es ∧ m.builder? c = some d ∧ x ∈ d.blocks := by
      cases e with
      | block y => grind [pure_eq_ok, entryBlocks]
      | builder c =>
        obtain ⟨d, _, h0, h1⟩ := bind_eq_ok.1 h1
        obtain ⟨hd, rfl⟩ := builder_eq_ok.1 h0
        obtain ⟨rfl, rfl⟩ := pure_eq_ok.1 h1
        exact ⟨rfl, fun x hx => .inr ⟨c, d, mem_cons_self, hd, hx⟩⟩
    obtain ⟨rfl, hxs⟩ := hfirst
    obtain ⟨rfl, hrest⟩ := ih h2
    refine ⟨rfl, fun x hx => ?_⟩
    rcases mem_append.1 hx with hx | hx
    · exact hxs x hx
    · grind

include h in
/-- From the last block of a builder control climbs to the exit. -/
theorem connectBuilder_climbs (hrun : (connectBuilder b).run m = .ok (u, m'))
    : m'.Climbs level rank := by
  obtain ⟨d, _, h1, hrest⟩ := bind_eq_ok.1 hrun
  obtain ⟨hd, rfl⟩ := builder_eq_ok.1 h1
  obtain ⟨xss, m1, h2, -⟩ := bind_eq_ok.1 hrest
  obtain ⟨rfl, hmembers⟩ := of_mem_entryBlocks h2
  have hclimbs := h.builders b d hd
  -- every block that is written out is there, and outside the body has the rank of the builder
  have hat : ∀ x ∈ xss.flatten,
      AtRank rank m1.graph.blocks.size (if b = root then rank x else level b) x := by
    intro x hx
    rcases hmembers x hx with hx | ⟨c, e, hc, he, hx⟩
    · exact hclimbs.block x hx
    · obtain ⟨hb, hc⟩ := hclimbs.child c hc
      rw [if_pos hb]
      exact (h.builders c e he).blocks hc x hx
  have hexit : d.exit < m1.graph.blocks.size ∧
      ∀ x ∈ xss.flatten, Precedes rank x d.exit := by
    by_cases hb : b = root
    · rw [hclimbs.body hb]
      exact ⟨h.exit, fun x hx => (hat x hx).precedes_exit⟩
    · obtain ⟨hlow, -, hexit⟩ := hclimbs.apart hb
      refine ⟨hexit.lt, fun x hx => ?_⟩
      have hx := hat x hx
      rw [if_neg hb] at hx
      exact hx.precedes (hexit.rank ▸ WithTop.lt_top_iff_ne_top.2 hlow)
  have hjoined := connectBuilder_run hd h2 (fun x hx => (hat x hx).lt) hexit.1
  cases hjoined.symm.trans hrun
  have hjoin : (m1.joinExit d xss.flatten).Climbs level rank := by
    grind [m1.joinExit_cases, h.withEdge]
  have hwith := hjoin.withBuilder (b := b) (r := level b) (f := fun e => { e with
      blocks := if b = root then xss.flatten else xss.flatten ++ [d.exit]
      derived := some (m1.comesBack d xss.flatten)
      connected := true }) fun e he => by
    have heq : e = d := by
      rw [builder?_joinExit] at he
      exact Option.some.inj (he.symm.trans hd)
    subst heq
    have he := hjoin.builders b e he
    refine ⟨he.tail, he.block, he.child, fun hb x hx => ?_, he.body, he.apart⟩
    rw [size_joinExit]
    rw [if_neg hb] at hx
    rcases mem_append.1 hx with hx | hx
    · exact ⟨(hat x hx).lt, (hat x hx).ne, rfl⟩
    · obtain ⟨-, -, hexit⟩ := hclimbs.apart hb
      rw [mem_singleton.1 hx]
      exact ⟨hexit.lt, hexit.ne, rfl⟩
  rwa [update_eq_self] at hwith

instance (level : BuilderId → WithTop Nat) : Connects (Method.Ascends level) where
  place b m _ m' hrun rank h := by
    obtain ⟨-, rfl⟩ := updateBuilder_eq_ok.1 hrun
    exact ⟨rank, h.withBuilder_self fun d hd =>
      ⟨hd.tail, hd.block, hd.child, hd.blocks, hd.body, hd.apart⟩⟩
  count b n m _ m' hrun rank h := by
    obtain ⟨-, rfl⟩ := updateBuilder_eq_ok.1 hrun
    exact ⟨rank, h.withBuilder_self fun d hd =>
      ⟨hd.tail, hd.block, hd.child, hd.blocks, hd.body, hd.apart⟩⟩
  join b m _ m' hrun rank h := ⟨rank, connectBuilder_climbs h hrun⟩
  leave b hb m _ m' hrun rank h := by
    obtain ⟨d, _, h1, hrun⟩ := bind_eq_ok.1 hrun
    obtain ⟨hd, rfl⟩ := builder_eq_ok.1 h1
    obtain ⟨-, -, hexit⟩ := (h.builders b d hd).apart hb
    split at hrun
    · obtain ⟨_, m1, h2, hrun⟩ := bind_eq_ok.1 hrun
      obtain ⟨-, rfl⟩ := push_eq_ok.1 h2
      obtain ⟨-, hlt, rfl⟩ := addEdge_eq_ok.1 hrun
      have hpush : (m.withBlock d.exit (·.push { opcode := .goto, targets := [Graph.exit] })).Climbs
          level rank := h.push nofun
      exact ⟨rank, hpush.withEdge hlt hexit.precedes_exit⟩
    · obtain ⟨-, rfl⟩ := pure_eq_ok.1 hrun
      exact ⟨rank, h⟩
  goto m _ m' hrun rank h :=
    transfer_climbs h (show Opcode.goto ≠ .transactionBegin from nofun)
      (fun y hy => .inl (List.mem_singleton.1 hy)) hrun

end Emit

/-! ## Graphs -/

/-- All edges of a graph lead upwards, and no transaction begins in it. -/
structure Graph.Climbs (g : Graph) (rank : BlockId → WithTop Nat) : Prop where
  edges : ∀ x y, y ∈ g.succsOf x → Precedes rank x y
  plain : ∀ x blk, g.block? x = some blk → ∀ op ∈ blk.operations, op.opcode ≠ .transactionBegin

namespace Graph.Climbs

variable {g : Graph}

/-- No edges lead from a block back to it. -/
theorem acyclic (h : g.Climbs rank) (x : BlockId) :
    ¬ Relation.TransGen (fun x y => y ∈ g.succsOf x) x x := by
  have hclimb : ∀ {x y}, Relation.TransGen (fun x y => y ∈ g.succsOf x) x y →
      Precedes rank x y := by
    intro x y hxy
    induction hxy with
    | single hxy => exact h.edges _ _ hxy
    | tail _ hyz ih => exact ih.trans (h.edges _ _ hyz)
  exact fun hcycle => (hclimb hcycle).irrefl

end Graph.Climbs

end MethodGraph
