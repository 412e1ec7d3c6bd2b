import MethodGraph.Proofs.Layout
import MethodGraph.Proofs.Scripts
import MethodGraph.Proofs.Twins
/-!
  The order in which builders are filled does not matter.

  Builders and locals are declared first; then each builder has a script, and a schedule says whose
  turn it is (`Job`).  A builder takes its steps in order, and a step can be taken once the values
  it names are there.

  The crux is that what is on the pages in the end does not depend on the schedule.  The pages are
  a function of the scripts and of the types of the values that they name, and these types are
  found in the pages again: a typing that fits the pages after one schedule fits every value as it
  is made under another (`Desk.Kept`).  So both methods show the same pages, and main statement
  `Job.fill_order`: they are connected alike and give the same outcomes.
-/

namespace MethodGraph

open Method List Emit Build Option Function Nat

variable {i : Instr Ref} {schedule : List BuilderId}

variable {m m' : Method} {b c : BuilderId}

/-! ## Declarations -/

/-- The call declares something and adds no code. -/
def Call.declares : Call → Bool
  | defineName _ | defineFile _ | defineLine _ | defineParameter .. | defineLocal ..
  | defineReturnType _ | defineFunction _ | allLocalsDefined | setResolver _ | setTypes _
  | setVmState _ | orphan | orphanBytecode .. | bytecodeBuilder _ => true
  | _ => false

namespace Method

/-- A method in which things are declared and no builder has been filled. -/
def Declared (m : Method) : Prop :=
  ∃ name config calls, (∀ c ∈ calls, Call.declares c = true) ∧
    (Method.new name config).after calls = .ok m

/-- There is no code: each builder has an open block, and no block has anything in it. -/
structure Blank (m : Method) : Prop where
  builders : ∀ {b d}, m.builder? b = some d → d.sequence = [.block d.entry] ∧
    d.tail = .current d.entry ∧ d.isHandler = false ∧ d.blocks = [] ∧ d.derived = none
  blocks : ∀ {x blk}, m.block? x = some blk → blk = {}
  layout : m.graph.layout = []
  keys : m.functions.keys.Nodup

namespace Blank

theorem new (name : String) (config : Config) : (Method.new name config).Blank where
  builders {b d} hd := by
    match b, hd with
    | 0, hd =>
      cases hd
      exact ⟨rfl, rfl, rfl, rfl, rfl⟩
  blocks {x blk} hx := by
    match x, hx with
    | 0, hx => exact (some.inj hx).symm
    | 1, hx => exact (some.inj hx).symm
  layout := rfl
  keys := nodup_nil

theorem same (h : m.Blank) (hbuilders : m'.builders = m.builders)
    (hblocks : m'.graph.blocks = m.graph.blocks) (hlayout : m'.graph.layout = m.graph.layout)
    (hkeys : m'.functions.keys.Nodup) : m'.Blank where
  builders {b d} hd := by
    unfold builder? at hd
    rw [hbuilders] at hd
    exact h.builders hd
  blocks {x blk} hx := by
    unfold block? Graph.block? at hx
    rw [hblocks] at hx
    exact h.blocks hx
  layout := hlayout.trans h.layout
  keys := hkeys

theorem addBuilder (h : m.Blank) (r : Option BytecodeRecord) : (m.addBuilder r).Blank where
  builders {b d} hd := by
    rw [builder?_addBuilder] at hd
    split at hd
    · cases hd
      exact ⟨rfl, rfl, rfl, rfl, rfl⟩
    · exact h.builders hd
  blocks {x blk} hx := by grind [block?_addBuilder, h.blocks]
  layout := h.layout
  keys := h.keys

theorem define (h : m.Blank) (name : String) (ty : Ty) (kind : SymbolKind) :
    (m.defineSymbol name ty kind).Blank := by
  obtain ⟨hb, -, hl⟩ := m.graph.define_keeps name ty kind
  exact h.same rfl hb hl h.keys

theorem orphanBytecode (h : m.Blank) {index : Int} {name : Option String}
    (hrun : (Emit.orphanBytecode index name).run m = .ok (b, m')) : m'.Blank := by
  unfold Emit.orphanBytecode at hrun
  obtain ⟨-, hrun⟩ := guard_eq_ok.1 hrun
  obtain ⟨-, rfl⟩ := newBuilder_eq_ok.1 hrun
  exact h.addBuilder _

/-- A declaration adds no code. -/
theorem apply (h : m.Blank) {c : Call} (hc : c.declares = true) (hrun : c.apply m = .ok m') :
    m'.Blank := by
  -- calls that make a builder, whose name is not looked at
  have hmakes : ∀ {x : Emit BuilderId},
      (∀ {b n}, x.run m = .ok (b, n) → n.Blank) → ∀ {r n},
      (discard (liftM x : Build BuilderId)).run.run m = .ok (r, n) → n.Blank := by
    intro x hx r n hrun
    rcases Build.bind_eq_ok.1 hrun with ⟨b, n1, h1, hrun⟩ | ⟨e, n1, h1, -⟩
    · obtain ⟨-, rfl⟩ := Build.pure_eq_ok.1 hrun
      obtain ⟨b, h1, -⟩ := Build.lift_eq_ok.1 h1
      exact hx h1
    · obtain ⟨b, -, heq⟩ := Build.lift_eq_ok.1 h1
      cases heq
  obtain ⟨r, hrun⟩ := Call.apply_eq_ok.1 hrun
  cases c with
  | defineName | defineFile | defineLine | defineReturnType | allLocalsDefined | setResolver
  | setTypes | setVmState =>
    cases hrun
    exact h.same rfl rfl rfl h.keys
  | defineFunction s =>
    cases hrun
    exact h.same rfl rfl rfl (Bindings.keys_insert_nodup h.keys ..)
  | defineParameter | defineLocal =>
    cases hrun
    exact h.define ..
  | orphan =>
    refine hmakes (fun hx => ?_) hrun
    obtain ⟨-, rfl⟩ := Emit.newBuilder_eq_ok.1 hx
    exact h.addBuilder _
  | orphanBytecode index name => exact hmakes h.orphanBytecode hrun
  | bytecodeBuilder index =>
    refine hmakes (fun hx => ?_) hrun
    obtain ⟨_, _, h1, hx⟩ := Emit.bind_eq_ok.1 hx
    obtain ⟨rfl, rfl⟩ := Emit.get_eq_ok.1 h1
    split at hx
    · obtain ⟨-, rfl⟩ := Emit.pure_eq_ok.1 hx
      exact h
    · exact h.orphanBytecode hx
  | _ => cases hc

theorem stream (h : m.Blank) {d : Builder} (hd : m.builder? b = some d) :
    m.stream b = [.label d.entry] := by
  have hops : ∀ x, m.ops x = [] := by
    intro x
    unfold ops
    cases hx : m.block? x with
    | none => rfl
    | some blk =>
      cases h.blocks hx
      rfl
  rw [stream_of_builder? hd, (h.builders hd).1]
  show m.tokens (.block d.entry) ++ [] = _
  rw [append_nil, tokens_block, hops]
  rfl

/-- What the text of a builder says is that its block is open. -/
theorem reading (h : m.Blank) {d : Builder} (hd : m.builder? b = some d) :
    m.reading b = ⟨.current d.entry, []⟩ := by
  unfold Method.reading
  rw [h.stream hd]
  rfl

theorem plain (h : m.Blank) (hready : Draft.Ready ⟨m, [], []⟩) : m.Plain where
  ready := hready
  tidy := by
    have hedge : ∀ x y, ¬ m.HasEdge x y := by
      rintro x y ⟨blk, hblk, hy⟩
      cases h.blocks hblk
      exact absurd hy not_mem_nil
    refine ⟨fun {y blk} hblk x => ?_, fun {x blk} hblk => ?_⟩
    · cases h.blocks hblk
      exact iff_of_false not_mem_nil (hedge x y)
    · cases h.blocks hblk
      exact ⟨rfl, rfl⟩
  tails {b d} hd := by
    rw [h.reading hd]
    exact (h.builders hd).2.1
  edges x y := by
    refine iff_of_false ?_ ?_
    · rintro ⟨blk, hblk, hy⟩
      cases h.blocks hblk
      exact absurd hy not_mem_nil
    · rintro ⟨b, hb⟩
      cases hd : m.builder? b with
      | none =>
        unfold Method.reading Method.stream at hb
        rw [hd] at hb
        exact absurd hb not_mem_nil
      | some d =>
        rw [h.reading hd] at hb
        exact absurd hb not_mem_nil
  fresh hd := (h.builders hd).2.2

end Blank

theorem after_blank {calls : List Call} (h : m.Blank) (hc : ∀ c ∈ calls, Call.declares c = true)
    (hrun : m.after calls = .ok m') : m'.Blank := by
  induction calls generalizing m with
  | nil =>
    cases hrun
    exact h
  | cons c calls ih =>
    unfold after at hrun
    obtain ⟨m1, hr, hrun⟩ := ok_of_bind hrun
    exact ih (h.apply (hc c mem_cons_self) hr)
      (fun c hmem => hc c (mem_cons_of_mem _ hmem)) hrun

namespace Declared

theorem blank (h : m.Declared) : m.Blank := by
  obtain ⟨name, config, calls, hcalls, hrun⟩ := h
  exact after_blank (.new name config) hcalls hrun

theorem ready (h : m.Declared) : Draft.Ready ⟨m, [], []⟩ := by
  obtain ⟨name, config, calls, hcalls, hrun⟩ := h
  have hquiet : ∀ c ∈ calls, c.restarts = false ∧ c.forgets = false := by
    intro c hc
    have hdeclares := hcalls c hc
    cases c <;> first | exact ⟨rfl, rfl⟩ | cases hdeclares
  have hbuilds : Builds ⟨true, false, false, true⟩ ⟨new name config, [], []⟩ ⟨m, [], []⟩ :=
    after_builds hrun rfl rfl
      (fun c hc h => absurd h (by rw [(hquiet c hc).1]; exact Bool.false_ne_true))
      (fun c hc h => absurd h (by rw [(hquiet c hc).2]; exact Bool.false_ne_true))
  exact hbuilds.ready rfl ⟨Draft.sound_new name config, Draft.Wired.new name config⟩

/-- At first the pages are empty. -/
theorem shows (h : m.Declared) : Ledger.Shows m (fun _ => {}) ⟨m, fun _ => none⟩ where
  plain := h.blank.plain h.ready
  fills := rfl
  size := rfl
  doors := rfl
  inquired := by
    refine ⟨rfl, h.blank.keys, fun _ _ => ⟨rfl, rfl⟩, ?_⟩
    rintro name ⟨b, hb⟩
    exact absurd hb not_mem_nil
  texts b hb := by
    obtain ⟨d, hd⟩ := exists_builder? hb
    rw [h.blank.stream hd]
    exact .cons (.label d.entry) .nil
  aims b k hk := by
    rw [mem_singleton.1 hk]
    trivial
  isOpen b hb := by
    obtain ⟨d, hd⟩ := exists_builder? hb
    rw [h.blank.reading hd]
    exact iff_of_true rfl ⟨_, rfl⟩
  made b r ty hr := absurd hr not_mem_nil
  named r v hr := nomatch hr
  apart r r' v hr _ := nomatch hr

end Declared
end Method

/-! ## Scripts and schedules -/

/-- Builders and locals that are declared up front, and a script for each builder.  A local that is
    written is declared, unless all that are not are refused. -/
structure Job where
  base : Method
  scripts : BuilderId → List (Instr Ref)
  declared : base.Declared
  builders : ∀ b, base.builders.size ≤ b → scripts b = []
  locals : ∀ b, ∀ i ∈ scripts b, ∀ name ∈ i.stores?,
    (base.graph.lookup name).isSome = true ∨ base.localsDefined = true

/-- A method that is being filled, and what the steps of each builder have answered so far. -/
structure Desk where
  method : Method
  answers : BuilderId → List (Option ValueId)

namespace Desk

/-- The value that a step has answered with. -/
def value? (d : Desk) (r : Ref) : Option ValueId := ((d.answers r.builder)[r.step]?).join

/-- The next step of a builder is over, with its answer and the method it has left. -/
def note (d : Desk) (b : BuilderId) (answer : Option ValueId) (method : Method) : Desk :=
  { method, answers := Function.update d.answers b (d.answers b ++ [answer]) }

end Desk

namespace Job

/-- The next step of a builder.  There is none behind the end of its script, nor if a value is not
    there yet, nor if there is a fault; a step that fails is over all the same. -/
def turn (job : Job) (d : Desk) (b : BuilderId) : Option Desk := do
  let i ← (job.scripts b)[(d.answers b).length]?
  let i ← i.mapM d.value?
  match (i.run b).run.run d.method with
  | .error _ => none
  | .ok (r, method) => some (d.note b r.toOption.join method)

/-- Turn by turn, in the order of a schedule. -/
def play (job : Job) (schedule : List BuilderId) : Option Desk :=
  schedule.foldlM job.turn ⟨job.base, fun _ => []⟩

/-- Every builder gets as many turns as its script has steps. -/
def Interleaves (job : Job) (schedule : List BuilderId) : Prop :=
  ∀ b, schedule.count b = (job.scripts b).length

/-- What is on the page of a builder after so many steps. -/
def page (job : Job) (τ : Name → Ty) (b : BuilderId) : Nat → Page
  | 0 => {}
  | n + 1 =>
    match (job.scripts b)[n]? with
    | some i => (job.page τ b n).addAll (i.pieces job.base τ b n)
    | none => job.page τ b n

/-- The types of all values are those that are on the pages in the end. -/
def Types (job : Job) (τ : Name → Ty) : Prop :=
  ∀ b r ty, (r, ty) ∈ (job.page τ b (job.scripts b).length).results → τ r = ty

end Job

variable {job : Job} {d d' : Desk} {L : Ledger} {τ : Name → Ty} {n : Nat}

theorem Page.results_addAll (p : Page) (ps : List Piece) : p.results ⊆ (p.addAll ps).results := by
  induction ps generalizing p with
  | nil => exact List.Subset.refl _
  | cons k ps ih =>
    refine List.Subset.trans ?_ (ih (p.add k))
    cases k with
    | push opcode operands result => exact subset_append_left ..
    | jump | nest | ask => exact List.Subset.refl _

namespace Job

theorem page_succ (hi : (job.scripts b)[n]? = some i) (τ : Name → Ty) :
    job.page τ b (n + 1) = (job.page τ b n).addAll (i.pieces job.base τ b n) := by
  rw [page, hi]

theorem page_mono (τ : Name → Ty) (b : BuilderId) {n' : Nat} (h : n ≤ n') :
    (job.page τ b n).results ⊆ (job.page τ b n').results := by
  induction h with
  | refl => exact List.Subset.refl _
  | @step k _ ih =>
    refine List.Subset.trans ih ?_
    cases hi : (job.scripts b)[k]? with
    | some i =>
      rw [page_succ hi]
      exact Page.results_addAll ..
    | none =>
      rw [show job.page τ b (k + 1) = job.page τ b k by rw [page, hi]]
      exact List.Subset.refl _

/-- The pages of all builders when a desk has been reached. -/
def pages (job : Job) (τ : Name → Ty) (d : Desk) (b : BuilderId) : Page :=
  job.page τ b (d.answers b).length

theorem turn_eq_some (h : job.turn d b = some d') : ∃ i j r m',
    (job.scripts b)[(d.answers b).length]? = some i ∧ i.mapM d.value? = some j ∧
      (j.run b).run.run d.method = .ok (r, m') ∧
      d' = d.note b r.toOption.join m' := by grind [bind_eq_some_iff, turn]

end Job

/-! ## A ledger along the turns -/

/-- The ledger records what is on a desk.  Whatever types are chosen, if they are right for the
    values made so far then the pages are shown; and types that fit the pages in the end are
    right. -/
structure Desk.Kept (job : Job) (d : Desk) (L : Ledger) : Prop where
  method : L.method = d.method
  answers : ∀ r : Ref, d.value? r = L.made r.name
  fresh : ∀ k v, L.made k = some v → k.step < (d.answers k.builder).length
  bound : ∀ b, (d.answers b).length ≤ (job.scripts b).length
  shows : ∀ τ, L.Agrees τ → L.Shows job.base (job.pages τ d)
  agrees : ∀ τ, job.Types τ → L.Agrees τ

theorem Job.kept_start (job : Job) :
    Desk.Kept job ⟨job.base, fun _ => []⟩ ⟨job.base, fun _ => none⟩ where
  method := rfl
  answers _ := rfl
  fresh _ _ h := nomatch h
  bound _ := zero_le _
  shows _ _ := job.declared.shows
  agrees _ _ _ _ _ h := nomatch h

namespace Desk

theorem length_note (d : Desk) (b : BuilderId) (a : Option ValueId) (m : Method) (c : BuilderId) :
    ((d.note b a m).answers c).length = (d.answers c).length + if c = b then 1 else 0 := by
  unfold note
  by_cases hc : c = b
  · rw [hc, if_pos rfl]
    dsimp only
    rw [update_self, length_append]
    rfl
  · rw [if_neg hc]
    dsimp only
    rw [update_of_ne hc]
    rfl

theorem value?_note (d : Desk) (b : BuilderId) (a : Option ValueId) (m : Method) (r : Ref) :
    (d.note b a m).value? r =
      if r.builder = b ∧ r.step = (d.answers b).length then a else d.value? r := by
  unfold note value?
  dsimp only
  by_cases hb : r.builder = b
  · grind
  · rw [Function.update_of_ne hb, if_neg fun h => hb h.1]

end Desk

theorem Job.pages_note (hi : (job.scripts b)[(d.answers b).length]? = some i)
    (τ : Name → Ty) (a : Option ValueId) (m : Method) :
    job.pages τ (d.note b a m) = Function.update (job.pages τ d) b
      ((job.pages τ d b).addAll (i.pieces job.base τ b (d.answers b).length)) := by
  grind [Job.pages, Desk.length_note, Job.page_succ]

/-- Types that are right for values made later are right for those made before. -/
theorem Ledger.Agrees.mono {base : Method} {pages pages' : BuilderId → Page} {L' : Ledger}
    (h : L'.Agrees τ) (hL : L.Shows base pages) (hL' : L'.Shows base pages')
    (hsub : ∀ c, (pages c).results ⊆ (pages' c).results) : L.Agrees τ := by
  grind [Ledger.Agrees, hL.typed, hL'.made]

/-- One turn adds its pieces to the page of its builder, whatever the other pages are. -/
theorem Desk.Kept.turn (h : d.Kept job L) (hturn : job.turn d b = some d') :
    ∃ L', d'.Kept job L' := by
  obtain ⟨i, j, r, m', hi, hj, hrun, rfl⟩ := Job.turn_eq_some hturn
  obtain ⟨hlt, hmem⟩ := List.getElem?_eq_some_iff.1 hi
  have hb : b < job.base.builders.size := by grind [job.builders]
  have hfresh : ∀ k, L.made ⟨b, (d.answers b).length, k⟩ = none := by
    intro k
    cases hk : L.made ⟨b, (d.answers b).length, k⟩ with
    | none => rfl
    | some v => exact absurd (h.fresh _ v hk) (lt_irrefl _)
  have hlocal : ∀ name, i.stores? = some name → job.base.graph.lookup name = none →
      job.base.localsDefined = true := by
    have hlocals := @job.locals
    grind
  have hL := h.shows _ L.agrees_typing
  rw [show d.value? = fun r => L.made r.name from funext h.answers] at hj
  rw [← h.method] at hrun
  obtain ⟨made, hperforms, hanswer, hothers⟩ := Instr.performed hL hb hfresh hj hlocal hrun
  have hshows : ∀ τ, L.Agrees τ →
      Ledger.Shows job.base (job.pages τ (d.note b r.toOption.join m')) ⟨m', made⟩ := by
    intro τ hτ
    rw [Job.pages_note hi, Instr.pieces_typing hL hj hτ]
    exact hperforms.shows (h.shows τ hτ) hb
  have hsub : ∀ τ c, (job.pages τ d c).results ⊆
      (job.pages τ (d.note b r.toOption.join m') c).results := by
    intro τ c
    refine job.page_mono τ c ?_
    rw [Desk.length_note]
    exact Nat.le_add_right ..
  refine ⟨⟨m', made⟩, rfl, fun k => ?_, fun k v hk => ?_, fun c => ?_, fun τ hτ => ?_,
    fun τ hτ => ?_⟩
  · grind [Desk.value?_note, Ref.name, h.answers]
  · have hfresh := @h.fresh
    grind [Desk.length_note]
  · have hbound := @h.bound
    grind [Desk.length_note]
  · exact hshows τ (hτ.mono hL (hshows _ L.agrees_typing) (hsub _))
  · have hfits := h.agrees τ hτ
    intro k v ty hk hty
    obtain ⟨c, ty', hc, hty'⟩ := (hshows τ hfits).typed hk
    cases hty.symm.trans hty'
    refine hτ c k ty (job.page_mono τ c ?_ hc)
    rw [Desk.length_note]
    by_cases hcb : c = b
    · rw [if_pos hcb, hcb]
      exact hlt
    · rw [if_neg hcb]
      exact h.bound c

/-- Every schedule that can be carried out leaves a ledger. -/
theorem Job.play_kept (h : job.play schedule = some d) : ∃ L, d.Kept job L := by
  have hrun : ∀ {s : List BuilderId} {d0 : Desk} {L0 : Ledger}, d0.Kept job L0 →
      s.foldlM job.turn d0 = some d → ∃ L, d.Kept job L := by
    intro s
    induction s with
    | nil =>
      intro d0 L0 h0 h
      cases h
      exact ⟨L0, h0⟩
    | cons b s ih =>
      intro d0 L0 h0 h
      rw [foldlM_cons] at h
      obtain ⟨d1, hturn, h⟩ := bind_eq_some_iff.1 h
      obtain ⟨L1, h1⟩ := h0.turn hturn
      exact ih h1 h
  exact hrun job.kept_start h

/-- A builder has taken as many steps as it had turns. -/
theorem Job.length_play (h : job.play schedule = some d)
    (b : BuilderId) : (d.answers b).length = schedule.count b := by
  have hrun : ∀ {s : List BuilderId} {d0 : Desk}, s.foldlM job.turn d0 = some d →
      (d.answers b).length = (d0.answers b).length + s.count b := by
    intro s
    induction s with
    | nil =>
      intro d0 h
      cases h
      rfl
    | cons c s ih => grind [bind_eq_some_iff, Job.turn_eq_some, Desk.length_note]
  rw [hrun h]
  exact zero_add _

/-- Two schedules of the same scripts lead to the same pages. -/
theorem Job.shows_alike {s1 s2 : List BuilderId} {d1 d2 : Desk} (hs1 : job.Interleaves s1)
    (hs2 : job.Interleaves s2) (h1 : job.play s1 = some d1) (h2 : job.play s2 = some d2) :
    ∃ pages made1 made2, Ledger.Shows job.base pages ⟨d1.method, made1⟩ ∧
      Ledger.Shows job.base pages ⟨d2.method, made2⟩ := by
  obtain ⟨⟨_, made1⟩, hd1⟩ := job.play_kept h1
  obtain ⟨⟨_, made2⟩, hd2⟩ := job.play_kept h2
  cases hd1.method
  cases hd2.method
  have hpages : ∀ {s d}, job.Interleaves s → job.play s = some d → ∀ τ,
      job.pages τ d = fun b => job.page τ b (job.scripts b).length := by
    intro s d hs h τ
    funext b
    unfold Job.pages
    rw [job.length_play h, hs]
  -- the types that the values of the second run have fit the pages, so those of the first have them
  let τ := Ledger.typing ⟨d2.method, made2⟩
  have hτ := Ledger.agrees_typing ⟨d2.method, made2⟩
  have hshows2 := hd2.shows τ hτ
  rw [hpages hs2 h2] at hshows2
  have hfits : job.Types τ := by
    intro b r ty hr
    obtain ⟨v, hv, hty⟩ := hshows2.made b r ty hr
    exact hτ r v ty hv hty
  have hshows1 := hd1.shows τ (hd1.agrees τ hfits)
  rw [hpages hs1 h1] at hshows1
  exact ⟨_, made1, made2, hshows1, hshows2⟩

/-! ## Outcomes -/

namespace Method

/-- Connecting succeeds. -/
def Connects (m : Method) : Prop := ∃ n, Build.connect.run.run m = .ok (.ok (), n)

instance (m : Method) : Decidable m.Connects :=
  match h : Build.connect.run.run m with
  | .ok (.ok _, n) => isTrue ⟨n, h⟩
  | .ok (.error _, _) => isFalse fun ⟨_, hn⟩ => nomatch h.symm.trans hn
  | .error _ => isFalse fun ⟨_, hn⟩ => nomatch h.symm.trans hn

/-- Finishing succeeds, and this is what is handed out. -/
def HandsOut (m : Method) (c : Compiled) : Prop := ∃ n, Build.finish.run.run m = .ok (.ok c, n)

/-- A method that can be connected is handed out. -/
theorem Connects.handsOut (h : m.Connects) : ∃ c, m.HandsOut c := by
  obtain ⟨n, hn⟩ := h
  refine ⟨handOut n, n, ?_⟩
  rw [finish_run, hn]
  rfl

end Method

/-- Builders that are filled in another order: either both methods can be connected or none can,
    and if they can then they give the same outcome for all arguments. -/
theorem Job.fill_order (job : Job) {s₁ s₂ : List BuilderId} {d₁ d₂ : Desk}
    (hs₁ : job.Interleaves s₁) (hs₂ : job.Interleaves s₂) (h₁ : job.play s₁ = some d₁)
    (h₂ : job.play s₂ = some d₂) :
    (d₁.method.Connects ↔ d₂.method.Connects) ∧
      (d₁.method.Connects → ∃ c₁ c₂, d₁.method.HandsOut c₁ ∧ d₂.method.HandsOut c₂ ∧
        ∀ args, SameOutcome (c₁.invoke args) (c₂.invoke args)) := by
  have hconnects : ∀ {s s' : List BuilderId} {d d' : Desk}, job.Interleaves s →
      job.Interleaves s' → job.play s = some d → job.play s' = some d' → d.method.Connects →
      d'.method.Connects ∧ ∃ c c', d.method.HandsOut c ∧ d'.method.HandsOut c' ∧
        ∀ args, SameOutcome (c.invoke args) (c'.invoke args) := by
    intro s s' d d' hs hs' h h' hconnects
    obtain ⟨pages, made, made', hshows, hshows'⟩ := job.shows_alike hs hs' h h'
    have hjoined := hshows.connect hshows' job.declared.blank.layout
    have hidle := hshows.plain.ready.sound.idle.method
    have hidle' := hshows'.plain.ready.sound.idle.method
    constructor
    · obtain ⟨n, hn⟩ := hconnects
      obtain ⟨⟨a, n'⟩, hn', hanswers, -⟩ := (Build.connect_matched hidle hidle' hjoined).of_ok hn
      cases hanswers with
      | ok _ => exact ⟨n', hn'⟩
    · obtain ⟨c, n, hn⟩ := hconnects.handsOut
      obtain ⟨⟨a, n'⟩, hn', hanswers⟩ := (Build.finish_matched hidle hidle' hjoined).of_ok hn
      cases hanswers with
      | ok hsame => exact ⟨c, _, ⟨n, hn⟩, ⟨n', hn'⟩, hsame⟩
  exact ⟨⟨fun h => (hconnects hs₁ hs₂ h₁ h₂ h).1, fun h => (hconnects hs₂ hs₁ h₂ h₁ h).1⟩,
    fun h => (hconnects hs₁ hs₂ h₁ h₂ h).2⟩

namespace Method.Declared

theorem new (name : String) (config : Config) : (Method.new name config).Declared :=
  ⟨name, config, [], fun _ h => absurd h not_mem_nil, rfl⟩

theorem call (h : m.Declared) {c : Call} (hc : c.declares = true) (hrun : c.apply m = .ok m') :
    m'.Declared := by
  obtain ⟨name, config, calls, hcalls, hafter⟩ := h
  refine ⟨name, config, calls ++ [c], fun k hk => ?_, ?_⟩
  · grind
  · rw [after_append hafter, after, hrun]
    rfl

theorem addBuilder (h : m.Declared) : (m.addBuilder none).Declared := by
  have horphan : orphan.run m = .ok (m.builders.size, m.addBuilder none) :=
    newBuilder_eq_ok.2 ⟨rfl, rfl⟩
  have hrun : Call.orphan.run.run.run m = .ok (.ok (), m.addBuilder none) :=
    bind_eq_ok.2 (.inl ⟨_, _, lift_eq_ok.2 ⟨_, horphan, rfl⟩, rfl⟩)
  refine h.call (c := .orphan) rfl ?_
  unfold Call.apply
  rw [hrun]
  rfl

end Method.Declared

/-- A body that leaves for the third builder if its argument is above zero, and else goes through
    the second, which adds two values that the body has computed. -/
def Job.crossing : Job where
  base := ((((Method.new "f" {}).defineParameter "p" .int32).defineLocal "x" .int32)
    |>.defineReturnType .int32).addBuilder none |>.addBuilder none
  scripts
    | 0 => [.load "p", .constInt .int32 5, .zero .int32, .ifCmp .gt 2 ⟨0, 0⟩ ⟨0, 2⟩, .append 1,
      .load "x", .returnValue ⟨0, 5⟩]
    | 1 => [.binary .add ⟨0, 0⟩ ⟨0, 1⟩, .store "x" ⟨1, 0⟩]
    | 2 => [.constInt .int32 7, .returnValue ⟨2, 0⟩]
    | _ => []
  declared := ((((Method.Declared.new "f" {}).call (c := .defineParameter "p" .int32) rfl rfl).call
    (c := .defineLocal "x" .int32) rfl rfl).call (c := .defineReturnType .int32) rfl
      rfl).addBuilder.addBuilder
  builders
    | 0, h | 1, h | 2, h => absurd h (by decide)
    | _ + 3, _ => rfl
  locals
    | 0 | 1 | 2 => by decide +kernel
    | _ + 3 => fun _ h => absurd h List.not_mem_nil

/-- A case of it: in one order the builders are filled one after another, in the other they take
    turns, and the third builder gets the first value. -/
theorem Job.fill_order_crossing : ∃ d₁ d₂,
    Job.crossing.play [0, 0, 0, 0, 0, 0, 0, 1, 1, 2, 2] = some d₁ ∧
    Job.crossing.play [2, 0, 0, 1, 0, 2, 1, 0, 0, 0, 0] = some d₂ ∧
    d₁.answers 2 = [some 5, none] ∧ d₂.answers 2 = [some 0, none] ∧
    (d₁.method.Connects ↔ d₂.method.Connects) ∧
    ∃ c₁ c₂, d₁.method.HandsOut c₁ ∧ d₂.method.HandsOut c₂ ∧
      ∀ args, SameOutcome (c₁.invoke args) (c₂.invoke args) := by
  have hfound : ∀ {o : Option Desk} {test : Desk → Bool}, o.any test = true →
      ∃ d, o = some d ∧ test d = true := by
    intro o test h
    cases o with
    | none => cases h
    | some d => exact ⟨d, rfl, h⟩
  obtain ⟨d₁, h₁, htest₁⟩ := hfound (show (Job.crossing.play
    [0, 0, 0, 0, 0, 0, 0, 1, 1, 2, 2]).any (fun d => decide (d.method.Connects ∧
      d.answers 2 = [some 5, none])) = true by decide +kernel)
  obtain ⟨d₂, h₂, htest₂⟩ := hfound (show (Job.crossing.play
    [2, 0, 0, 1, 0, 2, 1, 0, 0, 0, 0]).any (fun d => decide (d.answers 2 = [some 0, none])) = true
      by decide +kernel)
  obtain ⟨hconnects, hanswers₁⟩ := of_decide_eq_true htest₁
  have hs₁ : Job.crossing.Interleaves [0, 0, 0, 0, 0, 0, 0, 1, 1, 2, 2]
    | 0 | 1 | 2 => rfl
    | n + 3 => List.count_eq_zero.2 (by simp)
  have hs₂ : Job.crossing.Interleaves [2, 0, 0, 1, 0, 2, 1, 0, 0, 0, 0]
    | 0 | 1 | 2 => rfl
    | n + 3 => List.count_eq_zero.2 (by simp)
  obtain ⟨hiff, hsame⟩ := Job.crossing.fill_order hs₁ hs₂ h₁ h₂
  exact ⟨d₁, d₂, h₁, h₂, hanswers₁, of_decide_eq_true htest₂, hiff, hsame hconnects⟩

end MethodGraph
