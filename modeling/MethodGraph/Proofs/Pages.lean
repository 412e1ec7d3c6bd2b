import MethodGraph.Proofs.Calls
import MethodGraph.Proofs.Readings
/-!
  Texts without the names of blocks and values.

  A `Page` is what has been asked of one builder, piece by piece, with values named by who asked
  for them and when, and without names for blocks that were opened on the way.  A method with a
  record of its values (`Ledger`) shows a page for each builder if its texts are the pages with
  names filled in (`Ledger.Shows`); what else there is comes from the method all began with.

  Main statement: whatever is done for one builder adds to the page of that builder and to no
  other (`Performs.shows`).  So the pages do not depend on what was done for other builders in the
  meantime.
-/

namespace MethodGraph

open Method List Option Function

variable {d : Builder} {L L' : Ledger} {ts : List Token} {r : Name} {op : Operation} {p : Page}
  {name : String} {α : Type}

variable {base m m' : Method} {b c : BuilderId}

/-! ## Functions that are asked for -/

namespace Bindings

variable {κ α β : Type} [DecidableEq κ]

theorem keys_write (k : κ) (x : α) (ps : List (κ × α)) :
    (write k x ps).map (·.1) = if k ∈ ps.map (·.1) then ps.map (·.1) else ps.map (·.1) ++ [k] := by
  induction ps with
  | nil => rfl
  | cons p ps ih =>
    obtain ⟨j, y⟩ := p
    unfold write
    by_cases hj : j = k
    · simp [hj]
    · have hne : ¬ k = j := fun h => hj h.symm
      rw [if_neg hj, map_cons, ih]
      simp only [map_cons, mem_cons, hne, false_or]
      split <;> rfl

theorem keys_insert_nodup {b : Bindings κ α} (h : b.keys.Nodup) (k : κ) (x : α) :
    (b.insert k x).keys.Nodup := by
  unfold keys insert
  rw [keys_write]
  split
  · exact h
  · next hk => exact nodup_append.2 ⟨h, nodup_singleton k, fun a ha c hc hac => hk
      (mem_singleton.1 hc ▸ hac ▸ ha)⟩

/-- What is bound after filtering, where keys are bound once. -/
theorem get?_filterMap {b : Bindings κ α} (h : b.keys.Nodup) (f : α → Option β) (k : κ) :
    (b.filterMap f).get? k = (b.get? k).bind f := by
  obtain ⟨ps⟩ := b
  unfold filterMap get? at *
  unfold keys at h
  dsimp only at *
  have habsent : ∀ qs : List (κ × α), k ∉ qs.map (·.1) →
      lookup k (qs.filterMap fun p => (f p.2).map fun y => (p.1, y)) = none := by
    intro qs hqs
    induction qs with
    | nil => rfl
    | cons p qs ih =>
      rw [map_cons, mem_cons, not_or] at hqs
      rw [filterMap_cons]
      cases hf : f p.2 with
      | none => exact ih hqs.2
      | some y =>
        show (if p.1 = k then some y else _) = none
        rw [if_neg (Ne.symm hqs.1), ih hqs.2]
  induction ps with
  | nil => rfl
  | cons p ps ih =>
    obtain ⟨j, x⟩ := p
    rw [map_cons, nodup_cons] at h
    rw [filterMap_cons]
    by_cases hj : j = k
    · subst hj
      rw [lookup, if_pos rfl]
      cases hf : f x with
      | none =>
        simp only [hf, map_none, bind_some]
        exact habsent ps h.1
      | some y =>
        simp only [hf, map_some, bind_some, lookup, if_true]
    · rw [lookup, if_neg hj, ← ih h.2]
      cases hf : f x with
      | none => rfl
      | some y => exact (if_neg hj).trans rfl

end Bindings

namespace Method

/-- A function that is there or was asked for. -/
def knows (m : Method) (name : String) : Bool :=
  m.functions.contains name || m.requested.contains name

theorem request_of_knows (h : m.knows name = true) : m.request name = m := if_pos h

/-- What asking for a function that is not known comes to. -/
theorem request_of_unknown (h : m.knows name = false) :
    (m.request name).requested = m.requested ++ [name] ∧
      (m.request name).resolver = m.resolver ∧
      ((m.request name).functions.get? name = m.resolver.bind (· name)) ∧
      (∀ k, k ≠ name → (m.request name).functions.get? k = m.functions.get? k) ∧
      (m.functions.keys.Nodup → (m.request name).functions.keys.Nodup) := by
  have habsent : m.functions.get? name = none := by
    unfold knows Bindings.contains at h
    rw [Bool.or_eq_false_iff] at h
    exact isNone_iff_eq_none.1 (by rw [← not_isSome, h.1]; rfl)
  have hknows : ¬ (m.functions.contains name || m.requested.contains name) = true := by
    unfold knows at h
    rw [h]
    exact Bool.false_ne_true
  unfold request
  rw [if_neg hknows]
  dsimp only
  cases hr : m.resolver with
  | none => exact ⟨rfl, rfl, habsent, fun _ _ => rfl, id⟩
  | some resolver =>
    dsimp only
    cases hs : resolver name with
    | none => exact ⟨rfl, rfl, by rw [bind_some, hs]; exact habsent, fun _ _ => rfl, id⟩
    | some s =>
      refine ⟨rfl, rfl, ?_, fun k hk => ?_, fun hn => Bindings.keys_insert_nodup hn name s⟩
      · rw [bind_some, hs]
        exact (Bindings.get?_insert ..).trans (if_pos rfl)
      · exact (Bindings.get?_insert ..).trans (if_neg (Ne.symm hk))

theorem knows_request (m : Method) (name : String) : (m.request name).knows name = true := by
  cases h : m.knows name with
  | true => rw [request_of_knows h, h]
  | false =>
    unfold knows
    rw [(request_of_unknown h).1]
    simp

/-- The functions are those of another method, except that some names have been asked for. -/
structure Inquired (base m : Method) (P : String → Prop) : Prop where
  resolver : m.resolver = base.resolver
  keys : m.functions.keys.Nodup
  before : ∀ name, ¬ P name → m.functions.get? name = base.functions.get? name ∧
    m.knows name = base.knows name
  after : ∀ name, P name → m.functions.get? name = (base.request name).functions.get? name ∧
    m.knows name = true

namespace Inquired

variable {P Q : String → Prop}

theorem congr (h : Inquired base m P) (hPQ : ∀ name, P name ↔ Q name) : Inquired base m Q where
  resolver := h.resolver
  keys := h.keys
  before name hq := h.before name fun hp => hq ((hPQ name).1 hp)
  after name hq := h.after name ((hPQ name).2 hq)

theorem grows (h : Inquired base m P) (hm : m.Grows m') : Inquired base m' P := by
  unfold Grows at hm
  have hfunctions : m'.functions = m.functions := by rw [hm]
  have hresolver : m'.resolver = m.resolver := by rw [hm]
  have hrequested : m'.requested = m.requested := by rw [hm]
  have hknows : ∀ name, m'.knows name = m.knows name := fun name => by
    unfold knows
    rw [hfunctions, hrequested]
  refine ⟨hresolver.trans h.resolver, hfunctions ▸ h.keys, fun name hp => ?_, fun name hp => ?_⟩
  · rw [hfunctions, hknows]
    exact h.before name hp
  · rw [hfunctions, hknows]
    exact h.after name hp

theorem request (h : Inquired base m P) (name : String) :
    Inquired base (m.request name) fun k => P k ∨ k = name := by
  cases hk : m.knows name with
  | true =>
    rw [request_of_knows hk]
    refine ⟨h.resolver, h.keys, fun k hne => h.before k fun hp => hne (.inl hp), ?_⟩
    rintro k (hp | rfl)
    · exact h.after k hp
    · by_cases hp : P k
      · exact h.after k hp
      · obtain ⟨hget, hknows⟩ := h.before k hp
        rw [request_of_knows (hknows.symm.trans hk)]
        exact ⟨hget, hk⟩
  | false =>
    obtain ⟨hrequested, hresolver, hname, hother, hkeys⟩ := request_of_unknown hk
    have hsame : ∀ k, k ≠ name → (m.request name).knows k = m.knows k := by
      intro k hne
      unfold knows Bindings.contains
      rw [hother k hne, hrequested]
      simp [hne]
    refine ⟨hresolver.trans h.resolver, hkeys h.keys, fun k hne => ?_, ?_⟩
    · have hkn : k ≠ name := fun hkn => hne (.inr hkn)
      rw [hother k hkn, hsame k hkn]
      exact h.before k fun hp => hne (.inl hp)
    · intro k hp
      by_cases hkn : k = name
      · subst hkn
        have hfresh : ¬ P k := fun hp => by
          have hknown := (h.after k hp).2
          rw [hk] at hknown
          cases hknown
        have hbase := (h.before k hfresh).2
        refine ⟨?_, knows_request m k⟩
        rw [hname, h.resolver, (request_of_unknown (hbase.symm.trans hk)).2.2.1]
      · rw [hother k hkn, hsame k hkn]
        exact h.after k (hp.resolve_right hkn)

end Inquired

/-- The method differs from another in blocks, values and builders, and in the functions that were
    asked for. -/
def Fills (base m : Method) : Prop :=
  m = { base with
    graph := { base.graph with blocks := m.graph.blocks, values := m.graph.values }
    builders := m.builders
    functions := m.functions
    requested := m.requested
    asked := m.asked }

theorem Fills.grows (h : base.Fills m) (hm : m.Grows m') : base.Fills m' := by
  unfold Fills Grows at *
  rw [hm, h]

theorem Fills.request (h : base.Fills m) (name : String) : base.Fills (m.request name) := by
  have hself : m.Fills (m.request name) := by
    unfold Method.request
    split
    · rfl
    · dsimp only
      split
      · rfl
      · split <;> rfl
  unfold Fills at *
  rw [hself, h]

end Method

/-! ## Pages -/

/-- The name of a value: the builder it was made for, the step of that builder in which it was made,
    and which of the values of that step it is. -/
structure Name where
  builder : BuilderId
  step : Nat
  index : Nat
  deriving DecidableEq

/-- What is asked of a builder. -/
inductive Piece where
  /-- An operation, which may make a value. -/
  | push (opcode : Opcode) (operands : List Name) (result : Option (Name × Ty))
  /-- An operation that ends its block. -/
  | jump (opcode : Opcode) (operands : List Name) (targets : List BlockId)
  /-- A builder to be appended. -/
  | nest (c : BuilderId)
  /-- A function to be found. -/
  | ask (name : String)

/-- A token without the names of blocks that were opened on the way. -/
inductive Mark where
  | label
  | op (opcode : Opcode) (operands : List Name) (result : Option Name) (targets : List BlockId)
  | child (c : BuilderId)

/-- What has been asked of one builder so far. -/
structure Page where
  marks : List Mark := [.label]
  /-- The last block takes operations. -/
  isOpen : Bool := true
  /-- The values that were made, with their types. -/
  results : List (Name × Ty) := []
  /-- The functions that were asked for. -/
  asked : List String := []

namespace Page

/-- The mark of a block that is opened for an operation, if none is open. -/
def opening (p : Page) : List Mark := if p.isOpen then [] else [.label]

/-- Ask one more thing. -/
def add (p : Page) : Piece → Page
  | .push opcode operands result =>
    { p with
      marks := p.marks ++ (p.opening ++ [.op opcode operands (result.map (·.1)) []])
      isOpen := true
      results := p.results ++ result.toList }
  | .jump opcode operands targets =>
    { p with
      marks := p.marks ++ (p.opening ++ [.op opcode operands none targets])
      isOpen := false }
  | .nest c => { p with marks := p.marks ++ [.child c], isOpen := false }
  | .ask name => { p with asked := p.asked ++ [name] }

/-- Ask several things. -/
def addAll (p : Page) (ps : List Piece) : Page := ps.foldl add p

end Page

/-- A block that opens or closes a builder. -/
def Method.IsDoor (m : Method) (x : BlockId) : Prop :=
  ∃ c < m.builders.size, x = (m.doors c).1 ∨ x = (m.doors c).2

/-- Control is sent to blocks that open or close a builder. -/
def Mark.Aims (base : Method) : Mark → Prop
  | .op _ _ _ targets => ∀ x ∈ targets, base.IsDoor x
  | _ => True

/-- A method with a record of its values. -/
structure Ledger where
  method : Method
  made : Name → Option ValueId

theorem rel_imp {β : Type} {R S : α → β → Prop} {a : Option α} {c : Option β}
    (h : Option.Rel R a c) (hRS : ∀ x y, R x y → S x y) : Option.Rel S a c := by
  cases h with
  | some h => exact .some (hRS _ _ h)
  | none => exact .none

namespace Ledger

variable {L L' : Ledger} {pages : BuilderId → Page}

/-- A token is what a mark says, with names filled in. -/
inductive Reads (made : Name → Option ValueId) : Mark → Token → Prop where
  | label (x : BlockId) : Reads made .label (.label x)
  | op {opcode : Opcode} {operands : List Name} {result : Option Name} {targets : List BlockId}
    {op : Operation} (hopcode : op.opcode = opcode) (htargets : op.targets = targets)
    (hoperands : List.Forall₂ (fun r v => made r = some v) operands op.operands)
    (hresult : Option.Rel (fun r v => made r = some v) result op.result) :
    Reads made (.op opcode operands result targets) (.op op)
  | child (c : BuilderId) : Reads made (.child c) (.child c)

/-- The texts of the method are the pages, with names filled in; everything else is as in the method
    that all began with. -/
structure Shows (base : Method) (pages : BuilderId → Page) (L : Ledger) : Prop where
  plain : L.method.Plain
  fills : base.Fills L.method
  size : L.method.builders.size = base.builders.size
  doors : L.method.doors = base.doors
  inquired : base.Inquired L.method fun name => ∃ b, name ∈ (pages b).asked
  texts : ∀ b < base.builders.size,
    List.Forall₂ (Reads L.made) (pages b).marks (L.method.stream b)
  aims : ∀ b, ∀ k ∈ (pages b).marks, k.Aims base
  isOpen : ∀ b < base.builders.size,
    (pages b).isOpen = true ↔ ∃ x, (L.method.reading b).tail = .current x
  made : ∀ b r ty, (r, ty) ∈ (pages b).results →
    ∃ v, L.made r = some v ∧ L.method.graph.values.get? v = some ty
  named : ∀ r v, L.made r = some v → ∃ b ty, (r, ty) ∈ (pages b).results
  apart : ∀ r r' v, L.made r = some v → L.made r' = some v → r = r'

theorem Reads.mono {made made' : Name → Option ValueId} {k : Mark} {t : Token}
    (h : Reads made k t) (hmade : ∀ r v, made r = some v → made' r = some v) : Reads made' k t := by
  cases h with
  | label x => exact .label x
  | op hopcode htargets hoperands hresult =>
    exact .op hopcode htargets (hoperands.imp fun r v => hmade r v)
      (rel_imp hresult fun r v => hmade r v)
  | child c => exact .child c

end Ledger

/-! ## Performing a piece -/

/-- A ledger after one piece was asked of a builder. -/
inductive Performs (b : BuilderId) : Piece → Ledger → Ledger → Prop where
  | value {L : Ledger} {m' : Method} {opcode : Opcode} {operands : List Name} {vs : List ValueId}
    {r : Name} {ty : Ty} {v : ValueId} (hop : opcode.isTerminator = false)
    (hthrow : opcode.canThrow = false)
    (hvs : List.Forall₂ (fun r v => L.made r = some v) operands vs) (hr : L.made r = none)
    (hrun : (Emit.emitValue b opcode vs ty).run L.method = .ok (v, m')) :
    Performs b (.push opcode operands (some (r, ty))) L ⟨m', Function.update L.made r (some v)⟩
  | effect {L : Ledger} {m' : Method} {opcode : Opcode} {operands : List Name} {vs : List ValueId}
    (hop : opcode.isTerminator = false) (hthrow : opcode.canThrow = false)
    (hvs : List.Forall₂ (fun r v => L.made r = some v) operands vs)
    (hrun : (Emit.emit b { opcode, operands := vs }).run L.method = .ok ((), m')) :
    Performs b (.push opcode operands none) L ⟨m', L.made⟩
  | jump {L : Ledger} {m' : Method} {opcode : Opcode} {operands : List Name} {vs : List ValueId}
    {targets : List BlockId} (hop : opcode.isTerminator = true)
    (hvs : List.Forall₂ (fun r v => L.made r = some v) operands vs)
    (ht : ∀ t ∈ targets, Draft.IsTarget ⟨L.method, [], []⟩ t)
    (hrun : (Emit.transfer b opcode vs targets).run L.method = .ok ((), m')) :
    Performs b (.jump opcode operands targets) L ⟨m', L.made⟩
  | nest {L : Ledger} {m' : Method} {c : BuilderId}
    (hrun : (Emit.append b c).run L.method = .ok ((), m')) : Performs b (.nest c) L ⟨m', L.made⟩
  | ask (L : Ledger) (name : String) : Performs b (.ask name) L ⟨L.method.request name, L.made⟩

theorem Method.Adds.reading (h : m.Adds m' b ts) (c : BuilderId) : m'.reading c =
      if c = b then ts.foldl (Reading.read m.doors) (m.reading b) else m.reading c := by
  unfold Method.reading
  rw [h.doors, h.stream]
  split
  · rw [foldl_append]
  · rfl

variable {pages : BuilderId → Page}

/-- What a new page has in common with the old one, all pages have. -/
theorem update_page {f : Page → α} (h : f p = f (pages b)) (c : BuilderId)
    : f (Function.update pages b p c) = f (pages c) := by
  by_cases hc : c = b
  · rw [hc, update_self, h]
  · rw [update_of_ne hc]

variable (h : L.Shows base pages) (hd : L.method.builder? b = some d)

namespace Ledger.Shows

variable {L : Ledger} {pages : BuilderId → Page}

include h hd in
theorem builder_lt :
    b < base.builders.size := h.size ▸ Method.lt_of_builder? hd

include h hd in
theorem doors_eq : base.doors b = (d.entry, d.exit) := by
  rw [← h.doors, doors_of_builder? hd]

/-- Control is sent to blocks that open or close a builder. -/
theorem isDoor (h : L.Shows base pages) {x : BlockId} (hx : Draft.IsTarget ⟨L.method, [], []⟩ x) :
    base.IsDoor x := by
  rcases hx with hx | ⟨c, d, hd, rfl⟩ | rfl
  · exact absurd hx not_mem_nil
  · exact ⟨c, h.builder_lt hd, .inl (by rw [h.doors_eq hd])⟩
  · obtain ⟨d, hd, -, hexit⟩ := h.plain.ready.sound.forest.root
    obtain ⟨e, he, rfl⟩ := map_eq_some_iff.1 hd
    exact ⟨root, h.builder_lt he, .inr (by rw [h.doors_eq he]; exact hexit.symm)⟩

theorem aims_opening (p : Page) : ∀ k ∈ p.opening, k.Aims base := by
  intro k hk
  unfold Page.opening at hk
  split at hk
  · exact absurd hk not_mem_nil
  · rw [mem_singleton.1 hk]
    trivial

/-- A block that is opened for an operation, on the page and in the text. -/
theorem opening (h : L.Shows base pages) (hb : b < base.builders.size) :
    List.Forall₂ (Reads L.made) (pages b).opening (L.method.opening b) := by
  unfold Page.opening Method.opening
  cases htail : (L.method.reading b).tail with
  | current x =>
    rw [if_pos ((h.isOpen b hb).2 ⟨x, htail⟩)]
    exact .nil
  | owed x =>
    rw [if_neg fun ho => by
      obtain ⟨y, hy⟩ := (h.isOpen b hb).1 ho
      cases htail.symm.trans hy]
    exact .cons (.label _) .nil
  | closed =>
    rw [if_neg fun ho => by
      obtain ⟨y, hy⟩ := (h.isOpen b hb).1 ho
      cases htail.symm.trans hy]
    exact .cons (.label _) .nil

/-- More text for one builder, on its page as well. -/
theorem adds (h : L.Shows base pages) {ks : List Mark}
    (hadds : L.method.Adds m' b ts) (hks : List.Forall₂ (Reads L.made) ks ts)
    (haims : ∀ k ∈ ks, k.Aims base) (hmarks : p.marks = (pages b).marks ++ ks)
    (hresults : p.results = (pages b).results) (hasked : p.asked = (pages b).asked)
    (hopen : p.isOpen = true ↔
      ∃ x, (ts.foldl (Reading.read L.method.doors) (L.method.reading b)).tail = .current x) :
    Shows base (Function.update pages b p) ⟨m', L.made⟩ := by
  have hsame := update_page (f := Page.results) hresults
  refine ⟨hadds.plain, h.fills.grows hadds.grows, hadds.size.trans h.size,
    hadds.doors.trans h.doors, ?_, ?_, ?_, ?_, ?_, ?_, h.apart⟩
  · refine (h.inquired.grows hadds.grows).congr fun name => exists_congr fun c => ?_
    rw [update_page (f := Page.asked) hasked]
  · intro c hc
    rw [hadds.stream]
    by_cases hcb : c = b
    · subst hcb
      rw [if_pos rfl, update_self, hmarks]
      exact rel_append (h.texts c hc) hks
    · rw [if_neg hcb, update_of_ne hcb]
      exact h.texts c hc
  · intro c k hk
    by_cases hcb : c = b
    · rw [hcb, update_self, hmarks] at hk
      rcases mem_append.1 hk with hk | hk
      · exact h.aims b k hk
      · exact haims k hk
    · rw [update_of_ne hcb] at hk
      exact h.aims c k hk
  · intro c hc
    rw [hadds.reading]
    by_cases hcb : c = b
    · subst hcb
      rw [if_pos rfl, update_self]
      exact hopen
    · rw [if_neg hcb, update_of_ne hcb]
      exact h.isOpen c hc
  · intro c r ty hr
    rw [hsame] at hr
    rw [hadds.values]
    exact h.made c r ty hr
  · intro r v hr
    obtain ⟨c, ty, hc⟩ := h.named r v hr
    exact ⟨c, ty, (hsame c).symm ▸ hc⟩

/-- A value that is recorded has the type that some page says. -/
theorem typed (h : L.Shows base pages) {v : ValueId} (hr : L.made r = some v) :
    ∃ c ty, (r, ty) ∈ (pages c).results ∧ L.method.graph.values.get? v = some ty := by
  obtain ⟨c, ty, hc⟩ := h.named r v hr
  obtain ⟨w, hw, hty⟩ := h.made c r ty hc
  cases hr.symm.trans hw
  exact ⟨c, ty, hc, hty⟩

/-- A new value, which is recorded. -/
theorem newValue (h : L.Shows base pages) (hr : L.made r = none) {ty : Ty}
    (hmarks : p.marks = (pages b).marks) (hopen : p.isOpen = (pages b).isOpen)
    (hasked : p.asked = (pages b).asked) (hresults : p.results = (pages b).results ++ [(r, ty)]) :
    Shows base (Function.update pages b p)
      ⟨{ L.method with graph := (L.method.graph.newValue ty).2 },
        update L.made r (some L.method.graph.values.size)⟩ := by
  let m1 : Method := { L.method with graph := (L.method.graph.newValue ty).2 }
  let made := update L.made r (some L.method.graph.values.size)
  have hget : ∀ v, m1.graph.values.get? v =
      if v = L.method.graph.values.size then some ty else L.method.graph.values.get? v :=
    fun v => Arena.get?_alloc ..
  have hlt : ∀ v ty, L.method.graph.values.get? v = some ty → v < L.method.graph.values.size :=
    fun v ty hv => Arena.get?_isSome.1 (by rw [hv]; rfl)
  have hold : ∀ v ty, L.method.graph.values.get? v = some ty →
      m1.graph.values.get? v = some ty := by
    intro v ty' hv
    rw [hget, if_neg (hlt v ty' hv).ne, hv]
  have hquiet : L.method.Quiet m1 := ⟨rfl, rfl, rfl, rfl, rfl, hold, fun _ _ h => h⟩
  obtain ⟨hplain, hstream, hdoors, hreading⟩ := h.plain.quiet hquiet rfl
  have heq : ∀ k, made k = if k = r then some L.method.graph.values.size else L.made k :=
    fun k => update_apply ..
  have hmono : ∀ k v, L.made k = some v → made k = some v := by
    intro k v hk
    have hne : k ≠ r := by
      rintro rfl
      cases hr.symm.trans hk
    rw [heq, if_neg hne, hk]
  -- a name is the new one, with the new value, or an old one
  have hmade : ∀ k v, made k = some v →
      k = r ∧ v = L.method.graph.values.size ∨ k ≠ r ∧ L.made k = some v := by
    intro k v hk
    rw [heq] at hk
    split at hk
    · next hkr => exact .inl ⟨hkr, (some.inj hk).symm⟩
    · next hkr => exact .inr ⟨hkr, hk⟩
  have hlost : ∀ k, L.made k ≠ some L.method.graph.values.size := by
    intro k hk
    obtain ⟨-, ty', -, hty⟩ := h.typed hk
    exact Nat.lt_irrefl _ (hlt _ ty' hty)
  have hpages : ∀ c k ty', (k, ty') ∈ (update pages b p c).results ↔
      (k, ty') ∈ (pages c).results ∨ c = b ∧ k = r ∧ ty' = ty := by
    intro c k ty'
    by_cases hc : c = b
    · rw [hc, update_self, hresults]
      simp
    · rw [update_of_ne hc]
      simp [hc]
  refine ⟨hplain, h.fills.grows (show L.method.Grows m1 from rfl), h.size, hdoors.trans h.doors,
    ?_, ?_, ?_, ?_, ?_, ?_, ?_⟩
  · refine (h.inquired.grows (show L.method.Grows m1 from rfl)).congr fun name =>
      exists_congr fun c => ?_
    rw [update_page (f := Page.asked) hasked]
  · intro c hc
    rw [update_page (f := Page.marks) hmarks]
    show List.Forall₂ (Reads made) (pages c).marks (m1.stream c)
    rw [hstream]
    exact (h.texts c hc).imp fun k t hkt => hkt.mono hmono
  · intro c k hk
    rw [update_page (f := Page.marks) hmarks] at hk
    exact h.aims c k hk
  · intro c hc
    rw [update_page (f := Page.isOpen) hopen]
    show _ ↔ ∃ x, (m1.reading c).tail = _
    rw [hreading]
    exact h.isOpen c hc
  · intro c k ty' hk
    rcases (hpages c k ty').1 hk with hk | ⟨-, rfl, rfl⟩
    · obtain ⟨v, hv, hty⟩ := h.made c k ty' hk
      exact ⟨v, hmono k v hv, hold v ty' hty⟩
    · exact ⟨_, (heq _).trans (if_pos rfl), (hget _).trans (if_pos rfl)⟩
  · intro k v hk
    rcases hmade k v hk with ⟨rfl, -⟩ | ⟨-, hk⟩
    · exact ⟨b, ty, (hpages b k ty).2 (.inr ⟨rfl, rfl, rfl⟩)⟩
    · obtain ⟨c, ty', hc⟩ := h.named k v hk
      exact ⟨c, ty', (hpages c k ty').2 (.inl hc)⟩
  · intro k k' v hk hk'
    rcases hmade k v hk with ⟨hkr, hv⟩ | ⟨-, hold⟩
    · rcases hmade k' v hk' with ⟨hkr', -⟩ | ⟨-, hold'⟩
      · rw [hkr, hkr']
      · exact absurd (hv ▸ hold') (hlost k')
    · rcases hmade k' v hk' with ⟨-, hv⟩ | ⟨-, hold'⟩
      · exact absurd (hv ▸ hold) (hlost k)
      · exact h.apart k k' v hold hold'

/-- A function that was asked for. -/
theorem request (h : L.Shows base pages)
    (hmarks : p.marks = (pages b).marks) (hopen : p.isOpen = (pages b).isOpen)
    (hresults : p.results = (pages b).results) (hasked : p.asked = (pages b).asked ++ [name]) :
    Shows base (Function.update pages b p) ⟨L.method.request name, L.made⟩ := by
  have hquiet := L.method.quiet_request name
  obtain ⟨hplain, hstream, hdoors, hreading⟩ := h.plain.quiet hquiet (L.method.vmState_request name)
  have hfills := h.fills.request name
  have hvalues : (L.method.request name).graph.values = L.method.graph.values := by
    unfold Method.request
    split
    · rfl
    · dsimp only
      split
      · rfl
      · split <;> rfl
  have hsame := update_page (f := Page.results) hresults
  refine ⟨hplain, hfills, ?_, hdoors.trans h.doors, ?_, ?_, ?_, ?_, ?_, ?_, h.apart⟩
  · exact (congrArg Arena.size hquiet.builders).trans h.size
  · refine (h.inquired.request name).congr fun k => ?_
    constructor
    · rintro (⟨c, hc⟩ | rfl)
      · refine ⟨c, ?_⟩
        by_cases hcb : c = b
        · rw [hcb, update_self, hasked]
          exact mem_append_left _ (hcb ▸ hc)
        · rw [update_of_ne hcb]
          exact hc
      · refine ⟨b, ?_⟩
        rw [update_self, hasked]
        exact mem_append_right _ mem_cons_self
    · rintro ⟨c, hc⟩
      by_cases hcb : c = b
      · rw [hcb, update_self, hasked] at hc
        rcases mem_append.1 hc with hc | hc
        · exact .inl ⟨b, hc⟩
        · exact .inr (mem_singleton.1 hc)
      · rw [update_of_ne hcb] at hc
        exact .inl ⟨c, hc⟩
  · intro c hc
    rw [update_page (f := Page.marks) hmarks, hstream]
    exact h.texts c hc
  · intro c k hk
    rw [update_page (f := Page.marks) hmarks] at hk
    exact h.aims c k hk
  · intro c hc
    rw [update_page (f := Page.isOpen) hopen, hreading]
    exact h.isOpen c hc
  · intro c r ty hr
    rw [hsame] at hr
    rw [hvalues]
    exact h.made c r ty hr
  · intro r v hr
    obtain ⟨c, ty, hc⟩ := h.named r v hr
    exact ⟨c, ty, (hsame c).symm ▸ hc⟩

end Ledger.Shows

/-- Behind an operation that does not end its block there is an open block. -/
theorem Method.opening_push (m : Method) (b : BuilderId) (doors : Doors)
    (hop : op.isTerminator = false) :
    ∃ x, ((m.opening b ++ [Token.op op]).foldl (Reading.read doors) (m.reading b)).tail =
      .current x := by
  have hafter : ∀ r : Reading, r.after doors (.op op) = r.tail := fun r =>
    if_neg (by rw [hop]; exact Bool.false_ne_true)
  unfold opening
  cases htail : (m.reading b).tail with
  | current x => exact ⟨x, (hafter _).trans htail⟩
  | owed x => exact ⟨m.graph.blocks.size, hafter _⟩
  | closed => exact ⟨m.graph.blocks.size, hafter _⟩

/-- Behind an operation that ends its block there is no open block. -/
theorem Method.opening_jump (m : Method) (b : BuilderId) (doors : Doors)
    (hop : op.isTerminator = true) (x : BlockId) :
    ((m.opening b ++ [Token.op op]).foldl (Reading.read doors) (m.reading b)).tail ≠
      .current x := by
  have hafter : ∀ r : Reading, r.after doors (.op op) ≠ .current x := by
    intro r
    have hclose : r.after doors (.op op) = r.tail.close (!op.isUnconditional) := if_pos hop
    rw [hclose]
    cases r.tail with
    | current y => cases op.isUnconditional <;> exact nofun
    | owed y => exact nofun
    | closed => exact nofun
  unfold opening
  cases (m.reading b).tail <;> exact hafter _

/-- A piece that is asked of a builder is one more piece on its page. -/
theorem Performs.shows {p : Piece} (h : Performs b p L L') (hL : L.Shows base pages)
    (hb : b < base.builders.size) : L'.Shows base (Function.update pages b ((pages b).add p)) := by
  have haims : ∀ (q : Page) {opcode : Opcode} {operands : List Name} {result : Option Name}
      {targets : List BlockId}, (∀ x ∈ targets, base.IsDoor x) →
      ∀ k ∈ q.opening ++ [Mark.op opcode operands result targets], k.Aims base := by
    intro q opcode operands result targets ht k hk
    rcases mem_append.1 hk with hk | hk
    · exact Ledger.Shows.aims_opening q k hk
    · rw [mem_singleton.1 hk]
      exact ht
  cases h with
  | @value _ m' opcode operands vs r ty v hop hthrow hvs hr hrun =>
    obtain ⟨_, _, h1, hrun⟩ := Emit.bind_eq_ok.1 hrun
    cases h1
    obtain ⟨_, m1, hemit, hrun⟩ := Emit.bind_eq_ok.1 hrun
    obtain ⟨rfl, rfl⟩ := Emit.pure_eq_ok.1 hrun
    let q : Page := { pages b with results := (pages b).results ++ [(r, ty)] }
    have hnew := hL.newValue hr (p := q) rfl rfl rfl rfl
    let op : Operation := { opcode, operands := vs, result := some L.method.graph.values.size }
    have hop' : op.isTerminator = false := hop
    have hadds := Emit.emit_adds hnew.plain hop' hthrow rfl hemit
    have hq : update pages b q b = q := update_self ..
    have hopening := hnew.opening hb
    rw [hq] at hopening
    have hoperands : List.Forall₂ (fun k w =>
        update L.made r (some L.method.graph.values.size) k = some w) operands vs := by
      refine hvs.imp fun k w hk => ?_
      rw [update_of_ne (by rintro rfl; cases hr.symm.trans hk), hk]
    have hshows := hnew.adds (p := (pages b).add (.push opcode operands (some (r, ty)))) hadds
      (rel_append hopening (.cons
        (.op rfl rfl hoperands (.some (update_self ..))) .nil))
      (haims q fun _ hx => absurd hx not_mem_nil)
      (by rw [hq]; rfl) (by rw [hq]; rfl) (by rw [hq]; rfl)
      (iff_of_true rfl (opening_push _ b _ hop'))
    rw [update_idem] at hshows
    exact hshows
  | @effect _ m' opcode operands vs hop hthrow hvs hrun =>
    let op : Operation := { opcode, operands := vs }
    have hop' : op.isTerminator = false := hop
    refine hL.adds (Emit.emit_adds hL.plain hop' hthrow rfl hrun)
      (rel_append (hL.opening hb) (.cons (.op rfl rfl hvs .none) .nil))
      (haims (pages b) fun _ hx => absurd hx not_mem_nil) rfl ?_ rfl
      (iff_of_true rfl (L.method.opening_push b _ hop'))
    exact append_nil _
  | @jump _ m' opcode operands vs targets hop hvs ht hrun =>
    let op : Operation := { opcode, operands := vs, targets }
    have hop' : op.isTerminator = true := hop
    refine hL.adds (Emit.transfer_adds hL.plain hop ht hrun)
      (rel_append (hL.opening hb) (.cons (.op rfl rfl hvs .none) .nil))
      (haims (pages b) fun x hx => hL.isDoor (ht x hx)) rfl rfl rfl
      (iff_of_false Bool.false_ne_true ?_)
    rintro ⟨x, hx⟩
    exact L.method.opening_jump b _ hop' x hx
  | @nest _ m' c hrun =>
    refine hL.adds (Emit.append_adds hL.plain hrun) (.cons (.child c) .nil) ?_ rfl rfl rfl
      (iff_of_false Bool.false_ne_true ?_)
    · intro k hk
      rw [mem_singleton.1 hk]
      trivial
    · rintro ⟨x, hx⟩
      cases hx
  | ask _ name => exact hL.request rfl rfl rfl rfl

/-- A ledger after several pieces were asked of a builder. -/
inductive PerformsAll (b : BuilderId) : List Piece → Ledger → Ledger → Prop where
  | nil (L : Ledger) : PerformsAll b [] L L
  | cons {p : Piece} {ps : List Piece} {L L1 L' : Ledger} (h : Performs b p L L1)
    (hrest : PerformsAll b ps L1 L') : PerformsAll b (p :: ps) L L'

theorem PerformsAll.shows {ps : List Piece} (h : PerformsAll b ps L L') (hL : L.Shows base pages)
    (hb : b < base.builders.size) :
    L'.Shows base (Function.update pages b ((pages b).addAll ps)) := by
  induction h generalizing pages with
  | nil L =>
    rw [show (pages b).addAll [] = pages b from rfl, update_eq_self]
    exact hL
  | @cons p ps L L1 L' h _ ih =>
    have hshows := ih (h.shows hL hb)
    rw [update_idem, update_self] at hshows
    exact hshows

end MethodGraph
