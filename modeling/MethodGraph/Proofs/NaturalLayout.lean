import MethodGraph.Proofs.TypeExtents
/-!
  The layout of structures whose fields are appended one by one.

  A field takes the size and alignment that its type has at that moment, so they are read off the
  history of requests (`TypeTable.additions`): they are those of the type in the table that the
  request came to.

  Two invariants carry the result.  The alignment of every type of a table divides eight, also of
  one with fields at given offsets (`Aligned`), so of two alignments the less divides the greater.
  And as long as a structure is open its size is the end of its last field, from where the next
  field is rounded up; closing rounds up once more (`Natural`).
-/

namespace MethodGraph

open List Checked TypeTable

variable {t t₁ t' : TypeTable} {r : TypeRequest} {rs : List TypeRequest} {id : TypeId} {l : Layout}
  {e : TypeEntry} {shape : TypeShape} {m n : Nat} {as : List Addition}

/-- No multiple lies between a number and what it is rounded up to. -/
theorem Checked.roundUp_le {a : Nat} (hdvd : a ∣ n) (hle : m ≤ n) : roundUp m a ≤ n := by
  obtain ⟨k, rfl⟩ := hdvd
  unfold roundUp
  split
  · exact hle
  · next hmod =>
    have hdiv := Nat.div_add_mod m a
    have hlt : m / a < k := by
      refine Nat.lt_of_not_le fun hk => hmod ?_
      have := Nat.mul_le_mul_left a hk
      omega
    have := Nat.mul_le_mul_left a (Nat.succ_le_of_lt hlt)
    rw [Nat.mul_succ] at this
    omega

theorem TypeShape.align_ofLayout (kind : AggregateKind) (l : Layout) :
    (TypeShape.ofLayout kind l).align = l.alignment := by
  cases kind <;> rfl

/-! ## Additions -/

/-- A field that was added, with the size and alignment that its type had then. -/
structure Addition where
  field : Field
  size : Nat
  align : Nat
  place : Placement
  deriving DecidableEq, Repr

/-- The end of the field. -/
def Addition.stop (a : Addition) : Nat := a.field.offset + a.size

namespace TypeTable

/-- The fields of a type; none if it is no aggregate. -/
def fieldsOf (t : TypeTable) (id : TypeId) : List Field :=
  (((t.types.get? id).bind (·.shape.layout?)).map (·.fields)).getD []

end TypeTable

/-- What a request adds to the fields of a type, for the tables before and after it. -/
def TypeRequest.additions (id : TypeId) (t t' : TypeTable) : TypeRequest → List Addition
  | field place _ _ _ => ((t'.fieldsOf id).drop (t.fieldsOf id).length).filterMap fun f =>
      (t.types.get? f.ty).map fun e => ⟨f, e.shape.size, e.shape.align, place⟩
  | _ => []

namespace TypeTable

/-- What a history of requests adds to the fields of a type. -/
def additions (id : TypeId) (t : TypeTable) : List TypeRequest → List Addition
  | [] => []
  | r :: rs => match r.apply t with
    | .ok t₁ => r.additions id t t₁ ++ t₁.additions id rs
    | .error _ => []

theorem fieldsOf_eq (he : t.types.get? id = some e) (hl : e.shape.layout? = some l) :
    t.fieldsOf id = l.fields := by
  simp [fieldsOf, he, hl]

theorem additions_eq_nil (h : t'.fieldsOf id = t.fieldsOf id) : r.additions id t t' = [] := by
  cases r <;> simp [TypeRequest.additions, h]

/-! ## Alignments -/

/-- Every type is aligned to one, two, four or eight bytes. -/
def Aligned (t : TypeTable) : Prop := ∀ id e, t.types.get? id = some e → e.shape.align ∣ 8

theorem aligned_initial : initial.Aligned := by
  intro id e he
  have hall : ∀ i : Fin 14, ∀ e, initial.types.get? i = some e → e.shape.align ∣ 8 := by decide
  exact hall ⟨id, lt_size he⟩ e he

theorem Aligned.register (h : t.Aligned) (name : String) (hshape : shape.align ∣ 8) :
    (t.register name shape).2.Aligned := by
  intro id e he
  rw [get?_register] at he
  split at he
  · cases he
    exact hshape
  · exact h id e he

theorem Aligned.setLayout (h : t.Aligned) (kind : AggregateKind) (id : TypeId)
    (hl : l.alignment ∣ 8) : (t.setLayout kind id l).Aligned := by
  intro j e he
  rw [get?_setLayout] at he
  split at he
  · obtain ⟨d, -, rfl⟩ := Option.map_eq_some_iff.1 he
    rw [TypeShape.align_ofLayout]
    exact hl
  · exact h j e he

theorem Step.aligned (h : t.Step r t') (ht : t.Aligned) : t'.Aligned := by
  cases h with
  | idle => exact ht
  | @define kind name => exact ht.register name (by cases kind <;> decide)
  | point => exact ht.register _ (show (8 : Nat) ∣ 8 by decide)
  | @place place aggregate f id l e hname hid hopen hty =>
    have hl := ht id _ hid
    rw [TypeShape.align_ofLayout] at hl
    refine ht.setLayout _ id ?_
    have hmax : (l.placed f e.shape).alignment = max l.alignment e.shape.align := by
      show max (max l.align e.shape.align) 1 = max (max l.align 1) e.shape.align
      omega
    rw [hmax]
    rcases max_choice l.alignment e.shape.align with h | h
    · rwa [h]
    · rw [h]
      exact ht _ _ hty
  | @close kind name id l hname hid =>
    have hl := ht id _ hid
    rw [TypeShape.align_ofLayout] at hl
    exact ht.setLayout _ _ hl

/-- Of two alignments the less divides the greater. -/
theorem dvd_of_le_of_dvd_eight (hm : m ∣ 8) (hn : n ∣ 8) (hle : m ≤ n) : m ∣ n := by
  obtain ⟨j, -, rfl⟩ := (Nat.dvd_prime_pow Nat.prime_two (m := 3)).1 hm
  obtain ⟨k, -, rfl⟩ := (Nat.dvd_prime_pow Nat.prime_two (m := 3)).1 hn
  exact pow_dvd_pow 2 ((Nat.pow_le_pow_iff_right (by decide)).1 hle)

/-! ## Layouts -/

/-- The fields that were added end at `n` or before. -/
def Covered (as : List Addition) (n : Nat) : Prop := ∀ a ∈ as, a.stop ≤ n

/-- Fields appended one by one: each is at the first place behind those before it that suits its
    alignment, and the size is the end of all, once it is closed rounded up to the alignment. -/
structure Natural (l : Layout) (as : List Addition) : Prop where
  ordered : as.Pairwise fun a b => a.stop ≤ b.field.offset
  offset {before after : List Addition} {a : Addition} : as = before ++ a :: after →
    IsLeast {n | a.align ∣ n ∧ Covered before n} a.field.offset
  align {a : Addition} : a ∈ as → a.align ≤ l.align
  size : IsLeast {n | (l.closed = true → l.alignment ∣ n) ∧ Covered as n} l.size

theorem natural_empty : Natural {} [] where
  ordered := .nil
  offset h := by simp at h
  align h := by cases h
  size := ⟨⟨by simp, by simp [Covered]⟩, fun n _ => Nat.zero_le n⟩

/-- One more field. -/
theorem Natural.placed {f : Field} (h : Natural l as) (hopen : l.closed = false)
    (halign : shape.align ∣ 8) (hoffset : roundUp l.size (max shape.align 1) = f.offset)
    (place : Placement) :
    Natural (l.placed f shape) (as ++ [⟨f, shape.size, shape.align, place⟩]) := by
  have hpos : 0 < shape.align := Nat.pos_of_dvd_of_pos halign (by decide)
  rw [Nat.max_eq_left hpos] at hoffset
  have hbehind : l.size ≤ f.offset := hoffset ▸ le_roundUp ..
  have hcovered : Covered as f.offset := fun a ha => (h.size.1.2 a ha).trans hbehind
  refine ⟨pairwise_append.2 ⟨h.ordered, pairwise_singleton .., fun a ha b hb => ?_⟩,
    fun {before after a} hsplit => ?_, fun ha => ?_, ⟨fun hclosed => ?_, fun a ha => ?_⟩, ?_⟩
  · rw [mem_singleton.1 hb]
    exact hcovered a ha
  · rcases eq_nil_or_concat' after with rfl | ⟨after, b, rfl⟩
    · obtain ⟨rfl, ha⟩ := append_inj' hsplit rfl
      obtain rfl := (cons.inj ha).1
      refine ⟨⟨hoffset ▸ dvd_roundUp _ hpos, hcovered⟩, fun n hn => ?_⟩
      -- the size of an open layout is the least end
      have hsize : l.size ≤ n := h.size.2 ⟨fun hclosed => by simp [hopen] at hclosed, hn.2⟩
      exact hoffset ▸ roundUp_le hn.1 hsize
    · rw [← cons_append, ← append_assoc] at hsplit
      exact h.offset (append_inj' hsplit rfl).1
  · show _ ≤ max l.align shape.align
    rcases mem_append.1 ha with ha | ha
    · exact (h.align ha).trans (Nat.le_max_left ..)
    · rw [mem_singleton.1 ha]
      exact Nat.le_max_right ..
  · exact absurd (hopen.symm.trans hclosed) (by decide)
  · show _ ≤ max l.size (f.offset + shape.size)
    rcases mem_append.1 ha with ha | ha
    · exact (h.size.1.2 a ha).trans (Nat.le_max_left ..)
    · rw [mem_singleton.1 ha]
      exact Nat.le_max_right ..
  · intro n hn
    have hstop : f.offset + shape.size ≤ n := hn.2 ⟨f, shape.size, shape.align, place⟩ (by simp)
    show max l.size (f.offset + shape.size) ≤ n
    omega

/-- Closing rounds the size up. -/
theorem Natural.sealed (h : Natural l as) (hopen : l.closed = false) : Natural l.sealed as where
  ordered := h.ordered
  offset := h.offset
  align := h.align
  size := by
    have hpos : 0 < l.alignment := Nat.le_max_right ..
    refine ⟨⟨fun _ => dvd_roundUp _ hpos, fun a ha => (h.size.1.2 a ha).trans (le_roundUp ..)⟩,
      fun n hn => roundUp_le (hn.1 rfl) (h.size.2 ⟨fun hclosed => ?_, hn.2⟩)⟩
    simp [hopen] at hclosed

/-! ## Histories -/

/-- The fields of a type are those that were added to it, and the layout is natural if it is that of
    a structure to which they were appended. -/
structure Laid (t : TypeTable) (id : TypeId) (as : List Addition) : Prop where
  fields : t.fieldsOf id = as.map (·.field)
  align {a : Addition} : a ∈ as → a.align ∣ 8
  natural {name : String} {l : Layout} : t.types.get? id = some ⟨name, .struct l⟩ →
    (∀ a ∈ as, a.place = .next) → Natural l as

theorem laid_initial (id : TypeId) : initial.Laid id [] := by
  have hall : ∀ i : Fin 14, ∀ e, initial.types.get? i = some e → e.shape.layout? = none := by decide
  have hnone : ∀ e, initial.types.get? id = some e → e.shape.layout? = none :=
    fun e he => hall ⟨id, lt_size he⟩ e he
  refine ⟨?_, by simp, fun hid => ?_⟩
  · unfold fieldsOf
    cases hid : initial.types.get? id with
    | none => rfl
    | some e => simp [hnone e hid]
  · cases hnone _ hid

/-- What leaves a type as it is leaves its fields as they are. -/
theorem Laid.of_get?_eq (h : t.Laid id as) (hsame : t'.types.get? id = t.types.get? id) :
    t'.Laid id (as ++ r.additions id t t') := by
  have hfields : t'.fieldsOf id = t.fieldsOf id := by rw [fieldsOf, hsame, fieldsOf]
  rw [additions_eq_nil hfields, append_nil]
  exact ⟨hfields.trans h.fields, h.align, fun hid => h.natural (hsame ▸ hid)⟩

theorem Laid.register (h : t.Laid id as) (name : String)
    (hshape : ∀ l, shape.layout? = some l → l = {}) : (t.register name shape).2.Laid id
      (as ++ r.additions id t (t.register name shape).2) := by
  by_cases hid : id = t.types.size
  · subst hid
    have hold : t.fieldsOf t.types.size = [] := by simp [fieldsOf, Arena.get?_eq_none.2]
    have hget := get?_register (t := t) name shape t.types.size
    rw [if_pos rfl] at hget
    have hnew : (t.register name shape).2.fieldsOf t.types.size = [] := by
      cases hl : shape.layout? with
      | none => simp [fieldsOf, hget, hl]
      | some l => simp [fieldsOf, hget, hl, hshape l hl]
    obtain rfl : as = [] := map_eq_nil_iff.1 (h.fields.symm.trans hold)
    rw [additions_eq_nil (hnew.trans hold.symm)]
    refine ⟨hnew, h.align, fun hid _ => ?_⟩
    cases hget.symm.trans hid
    rw [hshape _ rfl]
    exact natural_empty
  · exact h.of_get?_eq ((get?_register ..).trans (if_neg hid))

theorem Step.laid (h : t.Step r t') (ht : t.Aligned) (hl : t.Laid id as) :
    t'.Laid id (as ++ r.additions id t t') := by
  cases h with
  | idle => exact hl.of_get?_eq rfl
  | @define kind name =>
    exact hl.register name (by cases kind <;> simp [TypeShape.ofLayout, TypeShape.layout?])
  | point => exact hl.register _ (by simp [TypeShape.layout?])
  | @place place aggregate f j l e hname hid hopen hty hoffset =>
    by_cases hj : j = id
    · subst hj
      have hget : (t.setLayout place.kind j (l.placed f e.shape)).types.get? j =
          some ⟨aggregate, .ofLayout place.kind (l.placed f e.shape)⟩ := by
        rw [get?_setLayout, if_pos rfl, hid]
        rfl
      have hfields := fieldsOf_eq hid (TypeShape.layout?_ofLayout ..)
      have hfields' := fieldsOf_eq hget (TypeShape.layout?_ofLayout ..)
      have hadds : TypeRequest.additions j t (t.setLayout place.kind j (l.placed f e.shape))
          (.field place aggregate f.name f.ty) = [⟨f, e.shape.size, e.shape.align, place⟩] := by
        unfold TypeRequest.additions
        rw [hfields, hfields']
        simp [Layout.placed, hty]
      rw [hadds]
      refine ⟨?_, fun ha => ?_, fun hstruct hnext => ?_⟩
      · rw [hfields', map_append, ← hl.fields, hfields]
        rfl
      · rcases mem_append.1 ha with ha | ha
        · exact hl.align ha
        · rw [mem_singleton.1 ha]
          exact ht _ _ hty
      · obtain rfl : place = .next := hnext ⟨f, e.shape.size, e.shape.align, place⟩ (by simp)
        cases hget.symm.trans hstruct
        exact (hl.natural hid fun a ha => hnext a (by simp [ha])).placed hopen (ht _ _ hty)
          (size_eq_ok.1 hoffset).2 .next
    · exact hl.of_get?_eq ((get?_setLayout ..).trans (if_neg hj))
  | @close kind name j l hname hid hopen =>
    by_cases hj : j = id
    · subst hj
      have hget : (t.setLayout kind j l.sealed).types.get? j =
          some ⟨name, .ofLayout kind l.sealed⟩ := by
        rw [get?_setLayout, if_pos rfl, hid]
        rfl
      have hfields : (t.setLayout kind j l.sealed).fieldsOf j = t.fieldsOf j :=
        (fieldsOf_eq hget (TypeShape.layout?_ofLayout ..)).trans
          (fieldsOf_eq hid (TypeShape.layout?_ofLayout ..)).symm
      rw [additions_eq_nil hfields, append_nil]
      refine ⟨hfields.trans hl.fields, hl.align, fun hstruct hnext => ?_⟩
      cases kind with
      | struct =>
        cases hget.symm.trans hstruct
        exact (hl.natural hid hnext).sealed hopen
      | union => cases hget.symm.trans hstruct
    · exact hl.of_get?_eq ((get?_setLayout ..).trans (if_neg hj))

theorem serve_laid (h : t.serve rs = .ok t') (ht : t.Aligned) (hl : t.Laid id as) :
    t'.Aligned ∧ t'.Laid id (as ++ t.additions id rs) := by
  induction rs generalizing t as with
  | nil =>
    cases h
    rw [additions, append_nil]
    exact ⟨ht, hl⟩
  | cons r rs ih =>
    obtain ⟨t₁, h₁, h⟩ := serve_cons.1 h
    have hstep := TypeRequest.apply_step h₁
    rw [additions, h₁, ← append_assoc]
    exact ih h (hstep.aligned ht) (hstep.laid ht hl)

/-- A structure with fields, all of them appended, has the natural layout for the sizes and
    alignments that the types of the fields had when they were added.  The fields follow each
    other, each at the first place that suits it, within the size of the structure; its alignment
    is a power of two that all fields are aligned to.  Closed, it has the least size that is a
    multiple of its alignment, so that the fields are aligned in rows of such structures too. -/
theorem natural_layout {id : TypeId} {name : String} {l : Layout} (h : initial.serve rs = .ok t)
    (hid : t.get id = .ok ⟨name, .struct l⟩) (hne : l.fields ≠ [])
    (hnext : ∀ a ∈ initial.additions id rs, a.place = .next) :
    l.fields = (initial.additions id rs).map (·.field) ∧
    (initial.additions id rs).Pairwise (fun a b => a.stop ≤ b.field.offset) ∧
    (∀ before a after, initial.additions id rs = before ++ a :: after →
      IsLeast {n | a.align ∣ n ∧ ∀ b ∈ before, b.stop ≤ n} a.field.offset) ∧
    (∀ a ∈ initial.additions id rs, a.stop ≤ l.size) ∧
    (∃ k ≤ 3, l.align = 2 ^ k) ∧ (∀ a ∈ initial.additions id rs, a.align ∣ l.align) ∧
    (l.closed = true →
      IsLeast {n | l.align ∣ n ∧ ∀ a ∈ initial.additions id rs, a.stop ≤ n} l.size ∧
      ∀ a ∈ initial.additions id rs, ∀ k, a.align ∣ k * l.size + a.field.offset) := by
  have hid := Arena.fetch_eq_ok.1 hid
  obtain ⟨haligned, hlaid⟩ := serve_laid h aligned_initial (laid_initial id)
  rw [nil_append] at hlaid
  generalize initial.additions id rs = as at hnext hlaid
  have hfields : l.fields = as.map (·.field) := (fieldsOf_eq hid rfl).symm.trans hlaid.fields
  have hnat := hlaid.natural hid hnext
  have halign : l.alignment = l.align := by
    obtain ⟨a, ha⟩ := exists_mem_of_ne_nil as fun has => hne (by rw [hfields, has]; rfl)
    have hpos : 0 < a.align := Nat.pos_of_dvd_of_pos (hlaid.align ha) (by decide)
    exact Nat.max_eq_left (hpos.trans_le (hnat.align ha))
  have height : l.align ∣ 8 := halign ▸ haligned _ _ hid
  have hdvd : ∀ a ∈ as, a.align ∣ l.align :=
    fun a ha => dvd_of_le_of_dvd_eight (hlaid.align ha) height (hnat.align ha)
  refine ⟨hfields, hnat.ordered, fun _ _ _ => hnat.offset, hnat.size.1.2,
    (Nat.dvd_prime_pow Nat.prime_two (m := 3)).1 height, hdvd, fun hclosed => ?_⟩
  have hsize : IsLeast {n | l.align ∣ n ∧ Covered as n} l.size := by
    have hsize := hnat.size
    simp only [hclosed, halign, true_imp_iff] at hsize
    exact hsize
  refine ⟨hsize, fun a ha k => ?_⟩
  obtain ⟨before, after, hsplit⟩ := append_of_mem ha
  exact Nat.dvd_add (Dvd.dvd.mul_left ((hdvd a ha).trans hsize.1.1) k) (hnat.offset hsplit).1.1

/-- A structure that is filled while another one is, which becomes a part of it. -/
def nodes : List TypeRequest := [
  .define .struct "Pair", .define .struct "Node", .field .next "Node" "tag" 1,
  .field .next "Pair" "low" 2, .field .next "Pair" "high" 3, .close .struct "Pair", .pointerTo 15,
  .field .next "Node" "pair" 14, .field .next "Node" "next" 16, .field .next "Node" "mark" 1,
  .close .struct "Node"]

/-- A case of it: two gaps within the structure and one at its end. -/
theorem natural_layout_nodes : ∃ t l, initial.serve nodes = .ok t ∧
    t.get 15 = .ok ⟨"Node", .struct l⟩ ∧ l.fields.map (·.offset) = [0, 4, 16, 24] ∧
    l.closed = true ∧ l.size = 32 ∧
    (initial.additions 15 nodes).Pairwise (fun a b => a.stop ≤ b.field.offset) ∧
    IsLeast {n | 8 ∣ n ∧ ∀ a ∈ initial.additions 15 nodes, a.stop ≤ n} 32 := by
  have hpasses : passes (initial.serve nodes) (fun t => decide (t.types.get? 15 =
      some ⟨"Node", .struct ⟨[⟨"tag", 1, 0⟩, ⟨"pair", 14, 4⟩, ⟨"next", 16, 16⟩, ⟨"mark", 1, 24⟩],
        32, 8, true⟩⟩)) = true := by cbv
  have hplaces : (initial.additions 15 nodes).map (·.place) = [.next, .next, .next, .next] := by cbv
  obtain ⟨t, ht, hid⟩ := of_passes_decide hpasses
  have hget := Arena.fetch_eq_ok.2 hid
  have hnext : ∀ a ∈ initial.additions 15 nodes, a.place = .next := by
    intro a ha
    have hmem := mem_map_of_mem (f := Addition.place) ha
    rw [hplaces] at hmem
    simpa using hmem
  obtain ⟨-, hordered, -, -, -, -, hclosed⟩ := natural_layout ht hget (by simp) hnext
  exact ⟨t, _, ht, hget, rfl, rfl, rfl, hordered, (hclosed rfl).1⟩

end TypeTable
end MethodGraph
