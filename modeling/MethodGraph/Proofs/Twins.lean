import Mathlib.Data.List.Sort
import MethodGraph.Proofs.Pages
import MethodGraph.Proofs.Relinking
/-!
  Methods that show the same pages differ in names only.

  A block is found on a page by its position: the first label of a builder's text is its entry, and
  so on; the exit of a builder counts as one more label in front.  Two methods that show the same
  pages have labels at the same positions, which is the renaming (`Ledger.Shows.twin`).  That it is
  one relies on every block belonging to one builder and standing there once.

  Sequences are read off the texts (`sequences_renamed`), and so are tails and edges, so main
  statement `Ledger.Shows.renamed`: the two methods are renamings of each other, and hence are
  connected alike (`Ledger.Shows.connect`).
-/

namespace MethodGraph

open Method List Builder Emit Graph

variable {blk blk' : Block} {x x' y : BlockId} {d d' : Builder} {ts ts' : List Token} {i : Nat}
  {α β γ : Type}

variable {base m m' : Method} {b c : BuilderId} {ρ : Renaming} {doors : Doors} {P : α → β → Prop}
  {Q : α → γ → Prop} {R : β → γ → Prop}

/-! ## Labels -/

/-- The block that begins at a token. -/
def Token.label? : Token → Option BlockId
  | .label x => some x
  | _ => none

namespace Method

/-- The text of a builder behind the label of its exit. -/
def sheet (m : Method) (b : BuilderId) : List Token := .label (m.doors b).2 :: m.stream b

theorem labels_tokens (m : Method) (es : List Entry) :
    (es.flatMap m.tokens).filterMap Token.label? = es.filterMap Entry.block? := by
  have hops : ∀ ops : List Operation, (ops.map Token.op).filterMap Token.label? = [] := by
    intro ops
    induction ops with
    | nil => rfl
    | cons op ops ih => exact ih
  induction es with
  | nil => rfl
  | cons e es ih =>
    rw [flatMap_cons, filterMap_append, ih]
    cases e with
    | block x =>
      rw [tokens_block, filterMap_cons, hops]
      rfl
    | builder c => rfl

theorem labels_sheet (h : m.builder? b = some d) :
    (m.sheet b).filterMap Token.label? = d.plan.owned := by
  unfold sheet
  rw [doors_of_builder? h, stream_of_builder? h, filterMap_cons, labels_tokens]
  rfl

/-- A block stands at one place. -/
theorem Plain.sheet_unique (h : m.Plain) {j : Nat}
    (hb : (m.sheet b)[i]? = some (.label x)) (hc : (m.sheet c)[j]? = some (.label x))
    (hltb : b < m.builders.size) (hltc : c < m.builders.size) : b = c ∧ i = j := by
  obtain ⟨d, hd⟩ := exists_builder? hltb
  obtain ⟨e, he⟩ := exists_builder? hltc
  have hmem : ∀ {k : BuilderId} {f : Builder} {n : Nat}, m.builder? k = some f →
      (m.sheet k)[n]? = some (.label x) → x ∈ f.plan.owned := by
    intro k f n hf hx
    rw [← labels_sheet hf]
    exact List.mem_filterMap.2 ⟨_, List.mem_of_getElem? hx, rfl⟩
  have hforest := h.ready.sound.forest
  have heq : b = c := hforest.owner (plan?_of_builder? hd) (plan?_of_builder? he) (hmem hd hb)
    (hmem he hc)
  subst heq
  refine ⟨rfl, ?_⟩
  have hnodup : ((m.sheet b).filterMap Token.label?).Nodup := by
    rw [labels_sheet hd]
    exact hforest.nodup (plan?_of_builder? hd)
  have hpair := List.pairwise_filterMap.1 hnodup
  rw [List.pairwise_iff_getElem] at hpair
  obtain ⟨hi, hxi⟩ := List.getElem?_eq_some_iff.1 hb
  obtain ⟨hj, hxj⟩ := List.getElem?_eq_some_iff.1 hc
  rcases Nat.lt_trichotomy i j with hlt | heq | hlt
  · exact absurd rfl (hpair i j hi hj hlt x (by rw [hxi]; rfl) x (by rw [hxj]; rfl))
  · exact heq
  · exact absurd rfl (hpair j i hj hi hlt x (by rw [hxj]; rfl) x (by rw [hxi]; rfl))

end Method

/-! ## Texts with other names -/

/-- A token with other names; builders keep theirs, and so do their entries and exits. -/
inductive Token.Renamed (ρ : Renaming) (doors : Doors) : Token → Token → Prop where
  | label {x x' : BlockId} (h : ρ.block x x') : Renamed ρ doors (.label x) (.label x')
  | op {op op' : Operation} (h : op.Renamed ρ op') : Renamed ρ doors (.op op) (.op op')
  | child (c : BuilderId) (hin : ρ.block (doors c).1 (doors c).1)
    (hout : ρ.block (doors c).2 (doors c).2) : Renamed ρ doors (.child c) (.child c)

/-- The end of a sequence with other names. -/
inductive Tail.Renamed (ρ : Renaming) : Tail → Tail → Prop where
  | current {x x' : BlockId} (h : ρ.block x x') : Renamed ρ (.current x) (.current x')
  | owed {x x' : BlockId} (h : ρ.block x x') : Renamed ρ (.owed x) (.owed x')
  | closed : Renamed ρ .closed .closed

namespace Tail.Renamed

variable {t t' : Tail}

theorem block (h : t.Renamed ρ t') : Option.Rel ρ.block t.block? t'.block? := by
  cases h with
  | current h => exact .some h
  | owed h => exact .some h
  | closed => exact .none

theorem isLive (h : t.Renamed ρ t') : t'.isLive = t.isLive := by
  cases h <;> rfl

theorem close (h : t.Renamed ρ t') (falls : Bool) : (t.close falls).Renamed ρ (t'.close falls) := by
  cases h with
  | current h => cases falls with
    | true => exact .owed h
    | false => exact .closed
  | owed h => exact .closed
  | closed => exact .closed

end Tail.Renamed

/-- What two texts say of control, where names differ. -/
structure Reading.Renamed (ρ : Renaming) (r r' : Reading) : Prop where
  tail : r.tail.Renamed ρ r'.tail
  edges : List.Forall₂ (fun e e' => ρ.block e.1 e'.1 ∧ ρ.block e.2 e'.2) r.edges r'.edges

namespace Reading.Renamed

variable {r r' : Reading}

theorem read (h : r.Renamed ρ r') {t t' : Token} (ht : t.Renamed ρ doors t') :
    (r.read doors t).Renamed ρ (r'.read doors t') := by
  -- an edge from the end of the text to a block
  have hinto : ∀ {y y' : BlockId}, ρ.block y y' → List.Forall₂
      (fun e e' : BlockId × BlockId => ρ.block e.1 e'.1 ∧ ρ.block e.2 e'.2)
      (r.tail.block?.toList.map (·, y)) (r'.tail.block?.toList.map (·, y')) := by
    intro y y' hy
    rcases rel_cases h.tail.block with ⟨hx, hx'⟩ | ⟨x, x', hx, hx', hxx⟩
    · rw [hx, hx']
      exact .nil
    · rw [hx, hx']
      exact .cons ⟨hxx, hy⟩ .nil
  cases ht with
  | label hx => exact ⟨.current hx, rel_append h.edges (hinto hx)⟩
  | child c hin hout => exact ⟨.owed hout, rel_append h.edges (hinto hin)⟩
  | @op op op' hop =>
    refine ⟨?_, rel_append h.edges ?_⟩
    · show (if op.opcode.isTerminator then r.tail.close (!op.opcode.isUnconditional)
        else r.tail).Renamed ρ (if op'.opcode.isTerminator then
          r'.tail.close (!op'.opcode.isUnconditional) else r'.tail)
      rw [hop.opcode]
      split
      · exact h.tail.close _
      · exact h.tail
    · rw [Reading.added_op, Reading.added_op]
      rcases rel_cases h.tail.block with ⟨hx, hx'⟩ | ⟨x, x', hx, hx', hxx⟩
      · rw [hx, hx']
        exact .nil
      · grind [forall₂_map_left_iff, forall₂_map_right_iff, hop.targets.imp]

theorem foldl (hts : List.Forall₂ (Token.Renamed ρ doors) ts ts') :
    ∀ {r r' : Reading}, r.Renamed ρ r' →
      (ts.foldl (Reading.read doors) r).Renamed ρ (ts'.foldl (Reading.read doors) r') := by
  induction hts with
  | nil => exact id
  | cons ht _ ih => exact fun h => ih (h.read ht)

end Reading.Renamed

/-! ## Sequences -/

/-- An entry of a sequence with other names, where a block has its operations renamed too. -/
inductive Entry.Matches (ρ : Renaming) (m m' : Method) : Entry → Entry → Prop where
  | block {x x' : BlockId} (h : ρ.block x x')
    (hops : List.Forall₂ (Operation.Renamed ρ) (m.ops x) (m'.ops x')) :
    Matches ρ m m' (.block x) (.block x')
  | builder (c : BuilderId) : Matches ρ m m' (.builder c) (.builder c)

/-- Operations in front of a text that begins with none are told apart from it. -/
theorem ops_split {ops ops' : List Operation}
    (hts : ∀ op, ts.head? ≠ some (.op op)) (hts' : ∀ op, ts'.head? ≠ some (.op op))
    (h : List.Forall₂ (Token.Renamed ρ doors) (ops.map .op ++ ts) (ops'.map .op ++ ts')) :
    List.Forall₂ (Operation.Renamed ρ) ops ops' ∧
      List.Forall₂ (Token.Renamed ρ doors) ts ts' := by
  induction ops generalizing ops' with
  | nil =>
    cases ops' with
    | nil => exact ⟨.nil, h⟩
    | cons op' ops' =>
      rcases forall₂_cons_right_iff.1 h with ⟨t, us, ht, -, hus⟩
      cases ht with
      | @op op _ _ => exact absurd (congrArg head? hus) (hts op)
  | cons op ops ih =>
    cases ops' with
    | nil =>
      rcases forall₂_cons_left_iff.1 h with ⟨t, us, ht, -, hus⟩
      cases ht with
      | @op _ op' _ => exact absurd (congrArg head? hus) (hts' op')
    | cons op' ops' =>
      obtain ⟨hop, hrest⟩ := forall₂_cons.1 h
      obtain ⟨hops, hts⟩ := ih hrest
      cases hop with
      | op hop => exact ⟨.cons hop hops, hts⟩

theorem Method.head?_tokens (m : Method) (es : List Entry) (op : Operation) :
    (es.flatMap m.tokens).head? ≠ some (.op op) := by
  cases es with
  | nil => exact nofun
  | cons e es => cases e <;> exact nofun

/-- Sequences are read off the texts. -/
theorem sequences_renamed {es es' : List Entry} (h : List.Forall₂ (Token.Renamed ρ doors)
    (es.flatMap m.tokens) (es'.flatMap m'.tokens)) :
    List.Forall₂ (Entry.Matches ρ m m') es es' := by
  induction es generalizing es' with
  | nil =>
    cases es' with
    | nil => exact .nil
    | cons e' es' => cases e' <;> exact nomatch h
  | cons e es ih =>
    cases es' with
    | nil => cases e <;> exact nomatch h
    | cons e' es' =>
      cases e with
      | block x =>
        cases e' with
        | block x' =>
          obtain ⟨hx, hrest⟩ := forall₂_cons.1 h
          obtain ⟨hops, hrest⟩ := ops_split (m.head?_tokens es) (m'.head?_tokens es') hrest
          cases hx with
          | label hx => exact .cons (.block hx hops) (ih hrest)
        | builder c => exact nomatch (forall₂_cons.1 h).1
      | builder c =>
        cases e' with
        | block x' => exact nomatch (forall₂_cons.1 h).1
        | builder c' =>
          obtain ⟨hc, hrest⟩ := forall₂_cons.1 h
          cases hc with
          | child => exact .cons (.builder c) (ih hrest)

/-! ## The renaming -/

theorem forall₂_meet (hR : ∀ a x y, P a x → Q a y → R x y) {as : List α} {xs : List β} {ys : List γ}
    (hxs : List.Forall₂ P as xs) (hys : List.Forall₂ Q as ys) : List.Forall₂ R xs ys := by
  induction hxs generalizing ys with
  | nil =>
    cases hys
    exact .nil
  | cons hx _ ih =>
    cases hys with
    | cons hy hys => exact .cons (hR _ _ _ hx hy) (ih hys)

theorem rel_meet (hR : ∀ a x y, P a x → Q a y → R x y) {a : Option α} {x : Option β} {y : Option γ}
    (hx : Option.Rel P a x) (hy : Option.Rel Q a y) : Option.Rel R x y := by
  cases hx with
  | none =>
    cases hy
    exact .none
  | some hx =>
    cases hy with
    | some hy => exact .some (hR _ _ _ hx hy)

namespace Ledger.Shows

variable {pages : BuilderId → Page} {L L' : Ledger} (h : L.Shows base pages)
  (h' : L'.Shows base pages)

include h

variable (hb : b < base.builders.size)

include hb in
theorem exists_builder : ∃ d, L.method.builder? b = some d :=
  exists_builder? (h.size ▸ hb)

include hb in
theorem head_stream : (L.method.stream b)[0]? = some (.label (base.doors b).1) := by
  obtain ⟨d, hd⟩ := h.exists_builder hb
  obtain ⟨rest, hrest⟩ := h.plain.ready.sound.forest.opens (plan?_of_builder? hd)
  have hseq : d.sequence = .block d.entry :: rest := hrest
  rw [stream_of_builder? hd, hseq, h.doors_eq hd]
  rfl

/-- The builders in a text are there. -/
theorem child_lt (hc : .child c ∈ L.method.stream b) :
    c < base.builders.size := by
  cases hd : L.method.builder? b with
  | none =>
    unfold stream at hc
    rw [hd] at hc
    exact absurd hc not_mem_nil
  | some d =>
    rw [stream_of_builder? hd] at hc
    obtain ⟨e, he, hc⟩ := mem_flatMap.1 hc
    cases e with
    | block x => grind [tokens_block]
    | builder k =>
      cases mem_singleton.1 hc
      obtain ⟨-, e, hk, -⟩ := h.plain.ready.sound.forest.child (plan?_of_builder? hd)
        (mem_children.2 he)
      obtain ⟨f, hf, -⟩ := builder?_of_plan? hk
      exact h.builder_lt hf

include hb in
/-- Where a block stands. -/
theorem placed_at (hx : (L.method.sheet b)[i]? = some (.label x)) :
    ∃ d blk, L.method.builder? b = some d ∧ L.method.block? x = some blk ∧
      (x = d.exit ∨ .block x ∈ d.sequence) := by
  obtain ⟨d, hd⟩ := h.exists_builder hb
  have howned : x ∈ d.plan.owned := by
    rw [← labels_sheet hd]
    exact mem_filterMap.2 ⟨_, mem_of_getElem? hx, rfl⟩
  have hlt := h.plain.ready.sound.forest.bound (plan?_of_builder? hd) howned
  obtain ⟨blk, hblk⟩ := Option.isSome_iff_exists.1 (Arena.get?_isSome.2 hlt)
  refine ⟨d, blk, hd, hblk, (mem_cons.1 howned).imp id fun hx => ?_⟩
  exact mem_blocksHere.1 hx

/-- Blocks at the same place of the same builder stand for each other, and so do values with the
    same name. -/
def twin : Renaming where
  block x x' := ∃ b < base.builders.size, ∃ i,
    (L.method.sheet b)[i]? = some (Token.label x) ∧
      (L'.method.sheet b)[i]? = some (Token.label x')
  value v v' := ∃ r, L.made r = some v ∧ L'.made r = some v'
  blocks_unique := by
    constructor
    · rintro x y z ⟨b, hb, i, hx, hz⟩ ⟨c, hc, j, hy, hz'⟩
      obtain ⟨rfl, rfl⟩ := h'.plain.sheet_unique hz hz' (h'.size ▸ hb) (h'.size ▸ hc)
      cases hx.symm.trans hy
      rfl
    · rintro x y z ⟨b, hb, i, hx, hy⟩ ⟨c, hc, j, hx', hz⟩
      obtain ⟨rfl, rfl⟩ := h.plain.sheet_unique hx hx' (h.size ▸ hb) (h.size ▸ hc)
      cases hy.symm.trans hz
      rfl
  values_unique := by
    constructor
    · rintro v w u ⟨r, hv, hu⟩ ⟨k, hw, hu'⟩
      cases h'.apart r k u hu hu'
      cases hv.symm.trans hw
      rfl
    · rintro v w u ⟨r, hv, hw⟩ ⟨k, hv', hu⟩
      cases h.apart r k v hv hv'
      cases hw.symm.trans hu
      rfl

include h'

include hb in
theorem twin_exit : (h.twin h').block (base.doors b).2 (base.doors b).2 := by
  refine ⟨b, hb, 0, ?_, ?_⟩
  · rw [← h.doors]
    rfl
  · rw [← h'.doors]
    rfl

include hb in
theorem twin_entry : (h.twin h').block (base.doors b).1 (base.doors b).1 :=
  ⟨b, hb, 1, h.head_stream hb, h'.head_stream hb⟩

theorem twin_door (hx : base.IsDoor x) : (h.twin h').block x x := by
  rcases hx with ⟨c, hc, rfl | rfl⟩
  · exact h.twin_entry h' hc
  · exact h.twin_exit h' hc

include hb in
/-- The texts differ in names. -/
theorem streams_renamed :
    List.Forall₂ (Token.Renamed (h.twin h') base.doors) (L.method.stream b)
      (L'.method.stream b) := by
  obtain ⟨hlen, hreads⟩ := forall₂_iff_get.1 (h.texts b hb)
  obtain ⟨hlen', hreads'⟩ := forall₂_iff_get.1 (h'.texts b hb)
  refine forall₂_iff_get.2 ⟨hlen.symm.trans hlen', fun i hi hi' => ?_⟩
  have hread := hreads i (hlen ▸ hi) hi
  have hread' := hreads' i (hlen ▸ hi) hi'
  have haim := h.aims b _ (get_mem (pages b).marks ⟨i, hlen ▸ hi⟩)
  have hsome : (L.method.stream b)[i]? = some ((L.method.stream b).get ⟨i, hi⟩) :=
    getElem?_eq_getElem hi
  have hsome' : (L'.method.stream b)[i]? = some ((L'.method.stream b).get ⟨i, hi'⟩) :=
    getElem?_eq_getElem hi'
  generalize (L.method.stream b).get ⟨i, hi⟩ = t at hread hsome ⊢
  generalize (L'.method.stream b).get ⟨i, hi'⟩ = t' at hread' hsome' ⊢
  generalize (pages b).marks.get ⟨i, hlen ▸ hi⟩ = k at hread hread' haim
  cases hread with
  | label x =>
    cases hread' with
    | label x' => exact .label ⟨b, hb, i + 1, hsome, hsome'⟩
  | child c =>
    cases hread' with
    | child =>
      have hc := h.child_lt (mem_of_getElem? hsome)
      exact .child c (h.twin_entry h' hc) (h.twin_exit h' hc)
  | op hopcode htargets hoperands hresult =>
    cases hread' with
    | op hopcode' htargets' hoperands' hresult' =>
      refine .op ⟨hopcode'.trans hopcode.symm, ?_, ?_, ?_⟩
      · exact forall₂_meet (fun r v v' hv hv' => ⟨r, hv, hv'⟩) hoperands hoperands'
      · exact rel_meet (fun r v v' hv hv' => ⟨r, hv, hv'⟩) hresult hresult'
      · rw [htargets, htargets']
        exact forall₂_same.2 fun x hx => h.twin_door h' (haim x hx)

theorem twin_comm : (h.twin h').block x x' ↔ (h'.twin h).block x' x := by
  constructor <;> rintro ⟨b, hb, i, hx, hx'⟩ <;> exact ⟨b, hb, i, hx', hx⟩

include hb in
theorem reading_renamed : (L.method.reading b).Renamed (h.twin h') (L'.method.reading b) := by
  unfold reading
  rw [h.doors, h'.doors]
  exact .foldl (h.streams_renamed h' hb) ⟨.closed, .nil⟩

variable (hd : L.method.builder? b = some d) (hd' : L'.method.builder? b = some d')

include hd hd' in
theorem sequence_matches :
    List.Forall₂ (Entry.Matches (h.twin h') L.method L'.method) d.sequence d'.sequence := by
  have hstreams := h.streams_renamed h' (h.builder_lt hd)
  rw [stream_of_builder? hd, stream_of_builder? hd'] at hstreams
  exact sequences_renamed hstreams

/-- Edges lead along the texts, so each has its twin. -/
theorem edge_twin
    (hxy : L.method.HasEdge x y) : ∃ x' y', (h.twin h').block x x' ∧ (h.twin h').block y y' ∧
      L'.method.HasEdge x' y' := by
  obtain ⟨b, hb⟩ := (h.plain.edges x y).1 hxy
  cases hd : L.method.builder? b with
  | none =>
    unfold reading stream at hb
    rw [hd] at hb
    exact absurd hb not_mem_nil
  | some d =>
    obtain ⟨⟨x', y'⟩, he, hx, hy⟩ :=
      forall₂_mem (h.reading_renamed h' (h.builder_lt hd)).edges hb
    exact ⟨x', y', hx, hy, (h'.plain.edges x' y').2 ⟨b, he⟩⟩

/-- Twins have the same operations. -/
theorem ops_renamed (hx : (h.twin h').block x x') :
    List.Forall₂ (Operation.Renamed (h.twin h')) (L.method.ops x) (L'.method.ops x') := by
  obtain ⟨b, hb, i, hi, hi'⟩ := hx
  have htwin : (h.twin h').block x x' := ⟨b, hb, i, hi, hi'⟩
  obtain ⟨d, blk, hd, hblk, hplace⟩ := h.placed_at hb hi
  obtain ⟨d', blk', hd', hblk', -⟩ := h'.placed_at hb hi'
  rcases hplace with rfl | hmem
  · -- nothing is in front of an exit, and nothing is in it
    have hexit : d'.exit = d.exit :=
      congrArg Prod.snd ((h'.doors_eq hd').symm.trans (h.doors_eq hd))
    have hdoor := h.twin_exit h' hb
    rw [h.doors_eq hd] at hdoor
    obtain rfl : x' = d'.exit := ((h.twin h').blocks_unique.2 htwin hdoor).trans hexit.symm
    rw [ops_of_block? hblk, ops_of_block? hblk', h.plain.ready.wired.exits hd hblk,
      h'.plain.ready.wired.exits hd' hblk']
    exact .nil
  · obtain ⟨e', -, he⟩ := forall₂_mem (h.sequence_matches h' hd hd') hmem
    cases he with
    | block hxy hops =>
      cases (h.twin h').blocks_unique.2 htwin hxy
      exact hops

/-- Edges from a block lead to the twins of those that edges from its twin lead to. -/
theorem succs_same (hx : (h.twin h').block x x') (hblk : L.method.block? x = some blk)
    (hblk' : L'.method.block? x' = some blk') : (h.twin h').Same blk.succs blk'.succs := by
  constructor
  · intro y hy
    obtain ⟨z, y', hz, hyy, e, he, hy'⟩ := h.edge_twin h' ⟨blk, hblk, hy⟩
    cases (h.twin h').blocks_unique.2 hx hz
    cases hblk'.symm.trans he
    exact ⟨y', hy', hyy⟩
  · intro y' hy'
    obtain ⟨z, y, hz, hyy, e, he, hy⟩ := h'.edge_twin h ⟨blk', hblk', hy'⟩
    cases (h.twin h').blocks_unique.1 hx ((h.twin_comm h').2 hz)
    cases hblk.symm.trans he
    exact ⟨y, hy, (h.twin_comm h').2 hyy⟩

theorem preds_same {y' : BlockId}
    (hy : (h.twin h').block y y') (hblk : L.method.block? y = some blk)
    (hblk' : L'.method.block? y' = some blk') : (h.twin h').Same blk.preds blk'.preds := by
  constructor
  · intro x hx
    obtain ⟨x', z, hxx, hz, hedge⟩ := h.edge_twin h' ((h.plain.tidy.preds hblk x).1 hx)
    cases (h.twin h').blocks_unique.2 hy hz
    exact ⟨x', (h'.plain.tidy.preds hblk' x').2 hedge, hxx⟩
  · intro x' hx'
    obtain ⟨x, z, hxx, hz, hedge⟩ := h'.edge_twin h ((h'.plain.tidy.preds hblk' x').1 hx')
    cases (h.twin h').blocks_unique.1 hy ((h.twin_comm h').2 hz)
    exact ⟨x, (h.plain.tidy.preds hblk x).2 hedge, (h.twin_comm h').2 hxx⟩

/-- Twins are alike in all that a method says of them. -/
theorem blocks_relabeled (hx : (h.twin h').block x x') : ∃ blk blk', L.method.block? x = some blk ∧
      L'.method.block? x' = some blk' ∧ blk.Relabeled (h.twin h') blk' := by
  obtain ⟨b, hb, i, hi, hi'⟩ := id hx
  obtain ⟨d, blk, hd, hblk, -⟩ := h.placed_at hb hi
  obtain ⟨d', blk', hd', hblk', -⟩ := h'.placed_at hb hi'
  obtain ⟨hhandlers, hnext⟩ := h.plain.tidy.bare hblk
  obtain ⟨hhandlers', hnext'⟩ := h'.plain.tidy.bare hblk'
  have hops := h.ops_renamed h' hx
  rw [ops_of_block? hblk, ops_of_block? hblk'] at hops
  refine ⟨blk, blk', hblk, hblk', ⟨hops, ?_, ?_⟩, h.succs_same h' hx hblk hblk',
    h.preds_same h' hx hblk hblk'⟩
  · rw [hhandlers, hhandlers']
    exact .nil
  · rw [hnext, hnext']
    exact .none

include hd hd' in
/-- A builder is part of a sequence in both methods or in none. -/
theorem placed_of_placed (hplaced : d.placed = true) : d'.placed = true := by
  obtain ⟨a, p, hp, hmem⟩ := h.plain.ready.sound.forest.placed (plan?_of_builder? hd) hplaced
  obtain ⟨e, he, rfl⟩ := builder?_of_plan? hp
  obtain ⟨e', he'⟩ := h'.exists_builder (h.builder_lt he)
  obtain ⟨k, hk, hmatch⟩ := forall₂_mem (h.sequence_matches h' he he') (mem_children.1 hmem)
  cases hmatch with
  | builder =>
    obtain ⟨-, f, hf, hset⟩ := h'.plain.ready.sound.forest.child (plan?_of_builder? he')
      (mem_children.2 hk)
    cases (plan?_of_builder? hd').symm.trans hf
    exact hset

include hd hd' in
theorem builder_renamed : d.Renamed (h.twin h') d' := by
  have hb := h.builder_lt hd
  have hdoors : (d'.entry, d'.exit) = (d.entry, d.exit) :=
    (h'.doors_eq hd').symm.trans (h.doors_eq hd)
  obtain ⟨-, hblocks, hderived⟩ := h.plain.fresh hd
  obtain ⟨-, hblocks', hderived'⟩ := h'.plain.fresh hd'
  refine ⟨?_, ?_, ?_, ?_, ?_, ?_, ?_, ?_⟩
  · have htwin_entry := @h.twin_entry
    have hdoors_eq := @h.doors_eq
    grind
  · have htwin_exit := @h.twin_exit
    have hdoors_eq := @h.doors_eq
    grind
  · refine (h.sequence_matches h' hd hd').imp fun e e' he => ?_
    cases he with
    | block hx _ => exact .block hx
    | builder c => exact .builder c
  · unfold fallsOut
    rw [h.plain.tails hd, h'.plain.tails hd']
    exact (h.reading_renamed h' hb).tail.isLive
  · exact Bool.eq_iff_iff.2 ⟨h'.placed_of_placed h hd' hd, h.placed_of_placed h' hd hd'⟩
  · rw [(h.plain.ready.sound.idle.builders b d hd).2,
      (h'.plain.ready.sound.idle.builders b d' hd').2]
  · rw [hblocks, hblocks']
    exact .nil
  · rw [hderived, hderived']

/-- Functions are known alike, however often they were asked for. -/
theorem hosts_same (name : String) :
    (L'.method.functions.filterMap (·.host)).get? name =
      (L.method.functions.filterMap (·.host)).get? name := by
  have hget : L'.method.functions.get? name = L.method.functions.get? name := by
    by_cases hp : ∃ b, name ∈ (pages b).asked
    · rw [(h.inquired.after name hp).1, (h'.inquired.after name hp).1]
    · rw [(h.inquired.before name hp).1, (h'.inquired.before name hp).1]
  rw [Bindings.get?_filterMap h.inquired.keys, Bindings.get?_filterMap h'.inquired.keys, hget]

/-- Methods that show the same pages differ in names. -/
theorem renamed (hlayout : base.graph.layout = []) : L.method.Renamed (h.twin h') L'.method := by
  have hfills := h.fills
  have hfills' := h'.fills
  unfold Method.Fills at hfills hfills'
  obtain ⟨r, hroot, hentry, hexit⟩ := h.plain.ready.sound.forest.root
  obtain ⟨d, hd, rfl⟩ := builder?_of_plan? hroot
  have hdoors : base.doors root = (Graph.entry, Graph.exit) := by
    rw [h.doors_eq hd]
    exact congrArg₂ Prod.mk hentry hexit
  refine ⟨⟨fun x x' => h.blocks_relabeled h', ?_, ?_, ?_, ?_, ?_, ?_⟩, fun b => ?_, ?_, ?_, ?_,
    h.hosts_same h'⟩
  · grind [twin, h.typed, h'.made]
  · have htwin := h.twin_entry h' (h.builder_lt hd)
    rw [hdoors] at htwin
    exact htwin
  · have htwin := h.twin_exit h' (h.builder_lt hd)
    rw [hdoors] at htwin
    exact htwin
  · rw [hfills, hfills']
  · rw [hfills, hfills']
  · rw [hfills, hfills']
    show List.Forall₂ _ base.graph.layout base.graph.layout
    rw [hlayout]
    exact .nil
  · cases hb : L.method.builder? b with
    | none =>
      have hle := Arena.get?_eq_none.1 hb
      rw [show L'.method.builder? b = none from
        Arena.get?_eq_none.2 ((h'.size.trans h.size.symm).trans_le hle)]
      exact .none
    | some d =>
      obtain ⟨d', hd'⟩ := h'.exists_builder (h.builder_lt hb)
      rw [hd']
      exact .some (h.builder_renamed h' hb hd')
  · rw [h.size, h'.size]
  · rw [hfills, hfills']
  · rw [h.plain.ready.sound.idle.method, h'.plain.ready.sound.idle.method]

end Ledger.Shows

/-! ## Connecting -/

theorem Method.Renamed.detached (h : m.Renamed ρ m') : m'.detached = m.detached := by
  refine m'.detached_sorted.eq_of_mem_iff m.detached_sorted fun b => ?_
  rw [mem_detached, mem_detached]
  refine and_congr_right fun _ => ?_
  rcases rel_cases (h.builders b) with ⟨hd, hd'⟩ | ⟨d, d', hd, hd', hsame⟩
  · rw [hd, hd']
  · rw [hd, hd']
    simp only [Option.some.injEq, exists_eq_left', hsame.placed]

/-- Connecting starts by leaving the body, where there is something behind it. -/
theorem Emit.connectBuilders_run (hd : m.builder? Method.root = some d) : connectBuilders.run m =
      ((if !m.detached.isEmpty && d.fallsOut then gotoBlock Method.root Graph.exit
        else pure () : Emit Unit).run m >>=
          fun p => (joinAll m.detached m.builders.size).run p.2) := by
  have hbuilder : (builder root).run m = .ok (d, m) := builder_eq_ok.2 ⟨hd, rfl⟩
  simp only [connectBuilders_eq, StateT.run_bind, StateT.run_get, pure_bind, hbuilder]
  show (if _ then _ else _ : Emit (List BlockId)).run m = _
  split
  · exact StateT.run_bind ..
  · rfl

/-- Methods that show the same pages are connected alike. -/
theorem Ledger.Shows.connect {pages : BuilderId → Page} {L L' : Ledger} (h : L.Shows base pages)
    (h' : L'.Shows base pages) (hlayout : base.graph.layout = []) :
    Matched (fun p p' => ∃ ρ : Renaming, List.Forall₂ ρ.block p.1 p'.1 ∧ p.2.Renamed ρ p'.2)
      (Emit.connectBuilders.run L.method) (Emit.connectBuilders.run L'.method) := by
  have hsame := h.renamed h' hlayout
  obtain ⟨_, hroot, -⟩ := h.plain.ready.sound.forest.root
  obtain ⟨d, hd, -⟩ := builder?_of_plan? hroot
  have hb := h.builder_lt hd
  obtain ⟨d', hd'⟩ := h'.exists_builder hb
  -- what is left to do once the body is left, on methods that still show the same pages
  have hjoin : ∀ {pages : BuilderId → Page} {L1 L1' : Ledger}, L1.Shows base pages →
      L1'.Shows base pages → Matched
        (fun p p' => ∃ ρ : Renaming, List.Forall₂ ρ.block p.1 p'.1 ∧ p.2.Renamed ρ p'.2)
        ((joinAll L.method.detached L.method.builders.size).run L1.method)
        ((joinAll L.method.detached L.method.builders.size).run L1'.method) := by
    intro pages L1 L1' h1 h1'
    have hρ := h1.renamed h1' hlayout
    exact (renames_joinAll hρ.graph.exit _ _ _ _ hρ).imp fun p p' hp => ⟨_, hp⟩
  rw [connectBuilders_run hd, connectBuilders_run hd', hsame.detached, hsame.size,
    (h.builder_renamed h' hd hd').fallsOut]
  by_cases hc : (!L.method.detached.isEmpty && d.fallsOut) = true
  · have hleave : ∀ {K : Ledger} {e : Builder}, K.Shows base pages →
        K.method.builder? root = some e → ∃ m1,
          (gotoBlock root exit).run K.method = .ok ((), m1) ∧
          Performs root (.jump .goto [] [exit]) K ⟨m1, K.made⟩ := by
      intro K e hK he
      have hs := hK.plain.ready.sound
      obtain ⟨m1, hrun, -⟩ := gotoBlock_run exit he (hs.idle.builders _ e he).1
        (fun x hx => hs.idle.tails _ e x he hx) hs.forest.exit_lt
      refine ⟨m1, hrun, .jump rfl .nil (fun t ht => ?_) hrun⟩
      rw [mem_singleton.1 ht]
      exact .inr (.inr rfl)
    obtain ⟨m1, hrun, hp⟩ := hleave h hd
    obtain ⟨m1', hrun', hp'⟩ := hleave h' hd'
    rw [if_pos hc, hrun, hrun']
    exact hjoin (hp.shows h hb) (hp'.shows h' hb)
  · rw [if_neg hc]
    exact hjoin h h'

end MethodGraph
