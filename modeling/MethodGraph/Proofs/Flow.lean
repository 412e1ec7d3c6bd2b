import MethodGraph.Proofs.Settled
import MethodGraph.Proofs.Trace
/-!
  Control runs through the texts of builders.

  When a method is connected, the texts of its builders are what a run of the graph goes through:
  an operation stands at the place that the text in front of it leads to, control falls from behind
  the text in front of a label into the block, from there into a builder that was appended, and
  from the end of a text to the exit of its builder (`Graph.Executes`).  That the entries of a
  sequence stand one behind the other in the layout is the crux (`Writes.next`); what connecting
  adds to the graph are edges, which a run does not look at.
-/

namespace MethodGraph

open Method List

variable {r : Builder} {zs : List BlockId} {m' : Method} {t : Token}

variable {m : Method} {g : Graph} {F : Sketch} {b c : BuilderId} {d : Builder}
  {P : BuilderId → Option Builder} {x : BlockId}

/-! ## Places in texts -/

namespace Sketch

/-- The place behind a token. -/
def step (F : Sketch) (p : BlockId × Nat) : Token → BlockId × Nat
  | .label x => (x, 0)
  | .op _ => (p.1, p.2 + 1)
  | .child c => (F.exit c, 0)

/-- The place behind a text. -/
def spot (F : Sketch) (ts : List Token) : BlockId × Nat := ts.foldl F.step (Graph.entry, 0)

@[simp] theorem spot_concat (F : Sketch) (ts : List Token) (t : Token) :
    F.spot (ts ++ [t]) = F.step (F.spot ts) t := by
  unfold spot
  rw [foldl_append]
  rfl

end Sketch

/-- The graph runs the texts of a sketch, for the builders that control can be in. -/
structure Graph.Conducts (g : Graph) (F : Sketch) (live : BuilderId → Prop) : Prop where
  root : live Method.root
  inside : ∀ {b c}, live b → .child c ∈ F.stream b → live c
  op : ∀ {b pre o post}, live b → F.stream b = pre ++ .op o :: post → g.HasOp (F.spot pre) o
  label : ∀ {b pre x post}, live b → F.stream b = pre ++ .label x :: post → pre ≠ [] →
    g.FallsTo (F.spot pre) x
  child : ∀ {b pre c post}, live b → F.stream b = pre ++ .child c :: post → pre ≠ [] →
    g.FallsTo (F.spot pre) (F.entry c)
  back : ∀ {b}, live b → b ≠ Method.root → g.FallsTo (F.spot (F.stream b)) (F.exit b)
  values : g.values = F.values
  symbols : g.symbols = F.symbols

/-- The end of the body leads to the exit as well. -/
structure Graph.Executes (g : Graph) (F : Sketch) (live : BuilderId → Prop) : Prop
    extends g.Conducts F live where
  leave : ∀ {b}, live b → g.FallsTo (F.spot (F.stream b)) (F.exit b)

/-! ## Pieces of text -/

/-- A text stands in the text of a builder, behind another that is not empty. -/
def Sketch.Stands (F : Sketch) (b : BuilderId) (pre ts : List Token) : Prop :=
  pre ≠ [] ∧ pre ++ ts <+: F.stream b

namespace Sketch.Stands

variable {pre ts us : List Token}

theorem left (h : F.Stands b pre (ts ++ us)) : F.Stands b pre ts :=
  ⟨h.1, (prefix_append_right_inj pre).2 (prefix_append ..) |>.trans h.2⟩

theorem right (h : F.Stands b pre (ts ++ us)) : F.Stands b (pre ++ ts) us :=
  ⟨append_ne_nil_of_left_ne_nil h.1 _, append_assoc pre ts us ▸ h.2⟩

theorem next {t : Token} (h : F.Stands b pre (t :: ts)) : F.Stands b (pre ++ [t]) ts :=
  right (show F.Stands b pre ([t] ++ ts) from h)

theorem exists_stream {t : Token} (h : F.Stands b pre (t :: ts)) :
    ∃ post, F.stream b = pre ++ t :: post := by
  obtain ⟨post, hpost⟩ := h.2
  refine ⟨ts ++ post, ?_⟩
  rw [← hpost, append_assoc]
  rfl

end Sketch.Stands

/-- Control gets from one place to another, and the machine stays as it is. -/
abbrev Graph.Slides (g : Graph) (hosts : Bindings String HostFn) (σ : Machine) :
    BlockId × Nat → BlockId × Nat → Prop :=
  Relation.ReflTransGen fun p q => g.Moves hosts (p, σ) (q, σ)

theorem Graph.Slides.arrives {hosts : Bindings String HostFn} {σ : Machine} {p q : BlockId × Nat}
    (h : g.Slides hosts σ p q) : g.Arrives hosts (p, σ) (q, σ) := h.lift (·, σ) fun _ _ => id

namespace Graph.Conducts

variable {op : Operation} {live : BuilderId → Prop} {hosts : Bindings String HostFn}
  {σ σ' : Machine}
  {pre ts : List Token} (hg : g.Conducts F live) (hb : live b)

include hg hb

variable (hosts σ) in
/-- Control gets to an operation of a text, from in front of it and of its label. -/
theorem arrives_op (hts : F.Stands b pre ts) (hop : op.Emits ts) :
    ∃ p, g.Slides hosts σ (F.spot pre) p ∧ g.HasOp p op ∧
      F.spot (pre ++ ts) = (p.1, p.2 + 1) := by
  rcases hop with rfl | ⟨x, rfl⟩
  · obtain ⟨post, hstream⟩ := hts.exists_stream
    exact ⟨_, .refl, hg.op hb hstream, Sketch.spot_concat ..⟩
  · obtain ⟨post, hstream⟩ := hts.exists_stream
    have hfall := hg.label hb hstream hts.1
    have hts' : F.Stands b pre ([.label x] ++ [.op op]) := hts
    obtain ⟨post', hstream'⟩ := hts'.right.exists_stream
    have hlabel : F.spot (pre ++ [.label x]) = (x, 0) := Sketch.spot_concat ..
    have hop := hg.op hb hstream'
    rw [hlabel] at hop
    refine ⟨(x, 0), .single (.fall hfall), hop, ?_⟩
    rw [show pre ++ [.label x, .op op] = (pre ++ [.label x]) ++ [.op op] by simp,
      Sketch.spot_concat, hlabel]
    rfl

/-- An operation that control goes on behind. -/
theorem arrives_next (hts : F.Stands b pre ts) (hop : op.Emits ts)
    (hstep : ∀ p, (Exec.step g hosts p op).run.run σ = .ok (.ok .next, σ')) :
    g.Arrives hosts (F.spot pre, σ) (F.spot (pre ++ ts), σ') := by
  obtain ⟨p, harr, hhas, hspot⟩ := hg.arrives_op hosts σ hb hts hop
  rw [hspot]
  exact harr.arrives.tail (.next hhas (hstep p))

/-- An operation that sends control to a block. -/
theorem arrives_jump {y : BlockId} (hts : F.Stands b pre ts) (hop : op.Emits ts)
    (hstep : ∀ p, (Exec.step g hosts p op).run.run σ = .ok (.ok (.jump y), σ')) :
    g.Arrives hosts (F.spot pre, σ) ((y, 0), σ') := by
  obtain ⟨p, harr, hhas, -⟩ := hg.arrives_op hosts σ hb hts hop
  exact harr.arrives.tail (.jump hhas (hstep p))

variable (hts : F.Stands b pre (.child c :: ts))

include hts in
theorem slides_child : g.Slides hosts σ (F.spot pre) (F.entry c, 0) := by
  obtain ⟨post, hstream⟩ := hts.exists_stream
  exact .single (.fall (hg.child hb hstream hts.1))

include hts in
theorem arrives_child :
    g.Arrives hosts (F.spot pre, σ) ((F.entry c, 0), σ) := (hg.slides_child hb hts).arrives

theorem arrives_label (hts : F.Stands b pre (.label x :: ts)) :
    g.Arrives hosts (F.spot pre, σ) ((x, 0), σ) := by
  obtain ⟨post, hstream⟩ := hts.exists_stream
  exact .single (.fall (hg.label hb hstream hts.1))

include hts in
theorem live_of_stands : live c := by
  grind [hts.exists_stream, hg.inside]

end Graph.Conducts

/-! ## Texts cut in two -/

namespace Method

theorem flatMap_tokens_split {es : List Entry} {pre post : List Token}
    (h : es.flatMap m.tokens = pre ++ t :: post) : ∃ before e after u v,
      es = before ++ e :: after ∧ m.tokens e = u ++ t :: v ∧
        pre = before.flatMap m.tokens ++ u := by
  induction es generalizing pre with
  | nil => exact absurd h (by simp)
  | cons e es ih =>
    rw [flatMap_cons] at h
    rcases append_eq_append_iff.1 h with ⟨u, hpre, hrest⟩ | ⟨u, htokens, hrest⟩
    · grind
    · cases u with
      | nil =>
        have hrest' : es.flatMap m.tokens = [] ++ t :: post := hrest.symm
        obtain ⟨before, e', after, u', v, rfl, htokens', hnil⟩ := ih hrest'
        refine ⟨e :: before, e', after, u', v, rfl, htokens', ?_⟩
        rw [flatMap_cons, htokens, append_nil, append_assoc, ← hnil,
          append_nil]
      | cons t' u =>
        obtain ⟨rfl, -⟩ := cons.inj hrest
        exact ⟨[], e, es, pre, u, rfl, htokens, rfl⟩

/-- The place behind an entry. -/
def final (m : Method) (F : Sketch) : Entry → BlockId × Nat
  | .block x => (x, (m.ops x).length)
  | .builder c => (F.exit c, 0)

theorem foldl_step_ops (F : Sketch) (ops : List Operation) (x : BlockId) (i : Nat) :
    (ops.map Token.op).foldl F.step (x, i) = (x, i + ops.length) := by
  induction ops generalizing i with
  | nil => rfl
  | cons o ops ih =>
    rw [map_cons, foldl_cons]
    refine (ih (i + 1)).trans ?_
    rw [length_cons, Nat.add_assoc, Nat.add_comm 1]

/-- Where the text of an entry leads does not depend on what is in front of it. -/
theorem spot_tokens (F : Sketch) (ts : List Token) (e : Entry) :
    F.spot (ts ++ m.tokens e) = m.final F e := by
  unfold Sketch.spot
  rw [foldl_append]
  cases e with
  | block x =>
    rw [tokens_block, foldl_cons]
    exact (foldl_step_ops F _ x 0).trans (by rw [Nat.zero_add]; rfl)
  | builder c => rfl

end Method

/-! ## Texts in the graph -/

variable (h : m.Laid m') (hm : m.Views F)

variable (hd : m.builder? b = some d) (hz : .block z ∈ d.sequence) (hlaid : z ∈ m'.graph.layout)

namespace Method.Laid

variable {before after : List Entry} {e : Entry} {z : BlockId} {pre post : List Token}

include h hm in
include hd hz hlaid in
/-- Control falls from behind an entry into the block that stands behind it. -/
theorem behind (hseq : d.sequence = before ++ e :: after)
    (hlast : after = [] → b ≠ Method.root ∨ m.detached = []) :
    ∃ y, m'.graph.FallsTo (m.final F e) y ∧ y ∈ m'.graph.layout ∧
      (after = [] ∧ y = F.exit b ∨ ∃ e', after.head? = some e' ∧ m.Begins e' y) := by
  obtain ⟨x, y, blk, hx, hblk, hnext, hy, hthen⟩ := h.next hd hz hlaid hseq hlast
  rw [(hm.builders b d hd).2.1] at hthen
  refine ⟨y, ?_, hy, hthen⟩
  have hmem : e ∈ d.sequence := by simp [hseq]
  have hfalls : ∀ {ops}, m'.graph.HasCode x ops → m'.graph.FallsTo (x, ops.length) y := by
    rintro ops ⟨hne, blk', hblk', rfl⟩
    cases hblk.symm.trans hblk'
    exact ⟨hne, blk, hblk, rfl, hnext⟩
  cases e with
  | block x' =>
    cases hx
    exact hfalls (h.code hd hmem)
  | builder c =>
    obtain ⟨k, hk, rfl⟩ := hx
    have hcode := h.exits ⟨d, hd, Builder.mem_children.2 hmem⟩ hk
    rw [(hm.builders c k hk).2.1] at hcode hfalls
    exact hfalls hcode

include h hm in
include hd hz hlaid in
/-- Control falls into an entry that is not the first. -/
theorem into (hseq : d.sequence = before ++ e :: after) (hne : before ≠ []) :
    ∃ y, m.Begins e y ∧ y ∈ m'.graph.layout ∧
      m'.graph.FallsTo (F.spot (before.flatMap m.tokens)) y := by
  obtain ⟨before, e0, rfl⟩ := (eq_nil_or_concat' before).resolve_left hne
  rw [append_assoc] at hseq
  obtain ⟨y, hfalls, hy, ⟨hnil, -⟩ | ⟨e', he', hbegins⟩⟩ :=
    h.behind hm hd hz hlaid hseq (by simp)
  · cases hnil
  · cases he'
    rw [flatMap_append, flatMap_singleton, spot_tokens]
    exact ⟨y, hbegins, hy, hfalls⟩

theorem hasOp (h : m.Laid m') (hd : m.builder? b = some d) {o : Operation}
    (heq : m.stream b = pre ++ .op o :: post) : m'.graph.HasOp (F.spot pre) o := by
  obtain ⟨before, e, after, u, v, hseq, htokens, rfl⟩ :=
    flatMap_tokens_split ((stream_of_builder? hd).symm.trans heq)
  cases e with
  | builder c => grind [singleton_eq_append_iff, Method.tokens]
  | block x =>
    cases u with
    | nil => cases htokens
    | cons t u =>
      obtain ⟨rfl, hmap⟩ := cons.inj htokens
      obtain ⟨os, os', hsplit, rfl, hos'⟩ := map_eq_append_iff.1 hmap
      obtain ⟨o', rest, rfl, ho', -⟩ := map_eq_cons_iff.1 hos'
      obtain rfl : o' = o := Token.op.inj ho'
      have hspot : F.spot (before.flatMap m.tokens ++ .label x :: os.map .op) =
          (x, os.length) := by
        unfold Sketch.spot
        rw [foldl_append, foldl_cons]
        exact (foldl_step_ops F os x 0).trans (by rw [Nat.zero_add])
      rw [hspot]
      have hcode := h.code hd (x := x) (by simp [hseq])
      rw [hsplit] at hcode
      exact hcode.hasOp

end Method.Laid

/-- Where a label or a builder stands in a text, an entry begins. -/
theorem Method.opens_of_stream {pre post : List Token} (hd : m.builder? b = some d)
    (ht : ∀ o, t ≠ .op o) (heq : m.stream b = pre ++ t :: post) : ∃ before e after,
      d.sequence = before ++ e :: after ∧ pre = before.flatMap m.tokens ∧
        (m.tokens e).head? = some t := by
  obtain ⟨before, e, after, u, v, hseq, htokens, rfl⟩ :=
    flatMap_tokens_split ((stream_of_builder? hd).symm.trans heq)
  refine ⟨before, e, after, hseq, ?_⟩
  cases u with
  | nil =>
    rw [htokens]
    exact ⟨append_nil _, rfl⟩
  | cons t' u =>
    have hin : t ∈ (m.tokens e).tail := by
      rw [htokens]
      exact mem_append_right _ mem_cons_self
    cases e with
    | builder c => cases hin
    | block x =>
      obtain ⟨o, -, ho⟩ := mem_map.1 hin
      exact absurd ho.symm (ht o)

theorem Method.label_mem_stream (hd : m.builder? b = some d) :
    .label x ∈ m.stream b ↔ .block x ∈ d.sequence := by
  rw [stream_of_builder? hd, mem_flatMap]
  constructor
  · rintro ⟨e, he, h⟩
    cases e with
    | block y =>
      have hxy : x = y := by simpa [tokens_block] using h
      exact hxy ▸ he
    | builder c => cases h with | tail _ h => cases h
  · exact fun h => ⟨_, h, mem_cons_self⟩

/-- Some block of the text is in the layout. -/
def Graph.Live (g : Graph) (F : Sketch) (b : BuilderId) : Prop :=
  ∃ x, .label x ∈ F.stream b ∧ x ∈ g.layout

theorem Graph.Live.sequence (h : g.Live F b) (hm : m.Views F) :
    ∃ d x, m.builder? b = some d ∧ .block x ∈ d.sequence ∧ x ∈ g.layout := by
  obtain ⟨x, hx, hlaid⟩ := h
  rw [← hm.stream] at hx
  cases hd : m.builder? b with
  | none => simp [stream, hd] at hx
  | some d => exact ⟨d, x, rfl, (label_mem_stream hd).1 hx, hlaid⟩

variable (hs : Draft.Sound ⟨m, [], []⟩)

include hs in
theorem Draft.Sound.label_entry (hd : m.builder? b = some d) : .label d.entry ∈ m.stream b := by
  have hhere := hs.forest.entry_here (plan?_of_builder? hd)
  exact (label_mem_stream hd).2 (Builder.mem_blocksHere.1 hhere)

namespace Method.Laid

include h hm in
/-- Control falls from the end of the text to the exit. -/
theorem leave (hb : m'.graph.Live F b) (hout : b ≠ Method.root ∨ m.detached = []) :
    m'.graph.FallsTo (F.spot (F.stream b)) (F.exit b) := by
  obtain ⟨d, z, hd, hz, hlaid⟩ := hb.sequence hm
  obtain ⟨before, e, hseq⟩ := (eq_nil_or_concat' d.sequence).resolve_left (ne_nil_of_mem hz)
  obtain ⟨y, hfalls, -, ⟨-, rfl⟩ | ⟨e', he', -⟩⟩ := h.behind hm hd hz hlaid hseq fun _ => hout
  · rwa [← hm.stream, stream_of_builder? hd, hseq, flatMap_append, flatMap_singleton, spot_tokens]
  · cases he'

include h hm in
include hs in
/-- Control falls into a builder that stands in a text. -/
theorem enters (hb : m'.graph.Live F b) {pre post : List Token}
    (heq : F.stream b = pre ++ .child c :: post) :
    m'.graph.Live F c ∧ m'.graph.FallsTo (F.spot pre) (F.entry c) := by
  obtain ⟨d, z, hd, hz, hlaid⟩ := hb.sequence hm
  obtain ⟨before, e, after, hseq, rfl, he⟩ :=
    opens_of_stream hd (by simp) ((hm.stream b).trans heq)
  cases e with
  | block x => cases he
  | builder c' =>
    cases he
    obtain ⟨rest, hopens⟩ := hs.forest.opens (plan?_of_builder? hd)
    have hopens' : d.sequence = .block d.entry :: rest := hopens
    obtain ⟨_, ⟨k, hk, rfl⟩, hin, hfalls⟩ :=
      h.into hm hd hz hlaid hseq fun hnil => by simp [hopens', hnil] at hseq
    rw [← (hm.builders c k hk).1]
    exact ⟨⟨_, hm.stream c ▸ hs.label_entry hk, hin⟩, hfalls⟩

include h hm in
include hs in
/-- A method whose blocks are laid out runs its texts. -/
theorem conducts : m'.graph.Conducts F (m'.graph.Live F) := by
  refine ⟨?_, fun hb hc => ?_, fun hb heq => ?_, fun hb heq hne => ?_,
    fun hb heq _ => (h.enters hm hs hb heq).2, fun hb hne => h.leave hm hb (.inl hne),
    h.values.trans hm.values, h.symbols.trans hm.symbols⟩
  · obtain ⟨r, hr, hentry, -⟩ := hs.forest.root
    obtain ⟨d, hd, rfl⟩ := builder?_of_plan? hr
    exact ⟨_, hm.stream _ ▸ hs.label_entry hd, hentry ▸ h.entry⟩
  · obtain ⟨pre, post, heq⟩ := append_of_mem hc
    exact (h.enters hm hs hb heq).1
  · obtain ⟨d, -, hd, -⟩ := hb.sequence hm
    exact h.hasOp hd ((hm.stream _).trans heq)
  · obtain ⟨d, z, hd, hz, hlaid⟩ := hb.sequence hm
    obtain ⟨before, e, after, hseq, rfl, he⟩ :=
      opens_of_stream hd (by simp) ((hm.stream _).trans heq)
    obtain ⟨y, hy, -, hfalls⟩ := h.into hm hd hz hlaid hseq fun hnil => hne (by rw [hnil]; rfl)
    cases e with
    | builder c => cases he
    | block x =>
      cases he
      cases hy
      exact hfalls

end Method.Laid

/-! ## Connecting -/

namespace Method

/-- A method whose builders are all part of the body runs their texts when it is connected. -/
theorem Shows.connect (hm : m.Shows F) (hloose : F.loose = [])
    (hplaced : ∀ c < F.count, c ≠ root → F.placed c = true) :
    ∃ r m', Build.connect.run.run m = .ok (r, m') ∧ m'.graph.layout ≠ [] ∧
      m'.graph.Executes F (m'.graph.Live F) := by
  have hready := hm.ready
  rw [hloose] at hready
  have hdetached : m.detached = [] := by
    refine eq_nil_iff_forall_not_mem.2 fun t ht => ?_
    obtain ⟨hroot, d, hd, hfree⟩ := mem_detached.1 ht
    have htrue := hplaced t (hm.count ▸ lt_of_builder? hd) hroot
    rw [← (hm.builders t d hd).2.2, hfree] at htrue
    cases htrue
  obtain ⟨_, r, m', hconnect, -, hsame, hlaid⟩ := hready.sound.connect
  obtain rfl := hsame hdetached
  exact ⟨r, m', hconnect, ne_nil_of_mem hlaid.entry, hlaid.conducts hm.toViews hready.sound,
    fun hb => hlaid.leave hm.toViews hb (.inr hdetached)⟩

end Method
end MethodGraph
