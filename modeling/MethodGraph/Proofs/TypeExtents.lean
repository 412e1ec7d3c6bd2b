import MethodGraph.Proofs.TypeNames
/-!
  Whether the fields of an aggregate have room for their types.

  A field takes the size that its type has when it is added, and closing an aggregate makes its
  layout final.  The type of a field may be an aggregate that is still open, though, and grow
  beyond the room of the field afterwards, be it before or after the aggregate around it is closed.

  The crux is which types can change at all: an aggregate that is open and that its name stands for
  (`TypeTable.growing`).  All other types are as they are for ever (`TypeTable.Step.settled`).

  Main statement: a closed layout is final, and a field of it keeps room for its type under all
  further requests exactly if it has room now and its type cannot grow
  (`TypeTable.closed_fields_fit_iff`).
-/

namespace MethodGraph

open Arena Nat Option TypeTable Checked

variable {kind : AggregateKind} {f : Field} {l : Layout} {n : Nat} {name : String} {d e : TypeEntry}
  {byte id : TypeId} {shape : TypeShape}

variable {t t1 t' : TypeTable} {r : TypeRequest} {rs : List TypeRequest}

namespace TypeTable

/-- A field of a layout has room for its type as the type is now. -/
def Fits (t : TypeTable) (l : Layout) (f : Field) : Prop :=
  ∃ n, t.sizeOf f.ty = .ok n ∧ f.offset + n ≤ l.size

/-- The type is an open aggregate that its name stands for, so that requests can change it. -/
def growing (t : TypeTable) (id : TypeId) : Bool :=
  (t.types.get? id).any fun e =>
    decide (t.lookup e.name = some id) && e.shape.layout?.any (!·.closed)

end TypeTable

/-- The request asks for a field whose type can still change. -/
def TypeRequest.embedsGrowing (t : TypeTable) : TypeRequest → Bool
  | field _ _ _ ty => t.growing ty
  | _ => false

theorem TypeShape.layout?_ofLayout (kind : AggregateKind) (l : Layout) :
    (TypeShape.ofLayout kind l).layout? = some l := by
  cases kind <;> rfl

theorem TypeShape.size_ofLayout (kind : AggregateKind) (l : Layout) :
    (TypeShape.ofLayout kind l).size = l.size := by
  cases kind <;> rfl

theorem TypeShape.exists_ofLayout (h : shape.layout? = some l) :
    ∃ kind, shape = .ofLayout kind l := by
  cases shape with
  | struct _ =>
    cases h
    exact ⟨.struct, rfl⟩
  | union _ =>
    cases h
    exact ⟨.union, rfl⟩
  | _ => cases h

variable (h : t.Step r t') (he : t.types.get? id = some e) (hid : t.growing id = false)

namespace TypeTable

/-! ## Types that cannot change -/

theorem growing_eq_true : t.growing id = true ↔ ∃ e l, t.types.get? id = some e ∧
    t.lookup e.name = some id ∧ e.shape.layout? = some l ∧ l.closed = false := by
  simp [growing, any_eq_true]

theorem sizeOf_eq_ok : t.sizeOf id = .ok n ↔ ∃ e, t.types.get? id = some e ∧ e.shape.size = n := by
  unfold sizeOf
  cases hget : t.get id with
  | error f =>
    constructor
    · intro h
      cases h
    · rintro ⟨e, he, -⟩
      cases hget.symm.trans (fetch_eq_ok.2 he)
  | ok e =>
    show Except.ok e.shape.size = .ok n ↔ _
    rw [fetch_eq_ok.1 hget]
    simp

theorem fits_iff (he : t.types.get? f.ty = some e) :
    t.Fits l f ↔ f.offset + e.shape.size ≤ l.size := by
  constructor
  · grind [sizeOf_eq_ok, Fits]
  · exact fun hle => ⟨_, sizeOf_eq_ok.2 ⟨e, he, rfl⟩, hle⟩

theorem growing_of_open
    (hname : t.lookup name = some id) (hid : t.types.get? id = some ⟨name, .ofLayout kind l⟩)
    (hopen : l.closed = false) : t.growing id = true :=
  growing_eq_true.2 ⟨_, l, hid, hname, TypeShape.layout?_ofLayout kind l, hopen⟩

include h he hid in
/-- A step changes no type but one that can grow. -/
theorem Step.get?_eq : t'.types.get? id = some e := by
  have hset : ∀ kind j l, t.growing j = true → (t.setLayout kind j l).types.get? id = some e := by
    grind [get?_setLayout]
  cases h with
  | idle => exact he
  | define => exact get?_register_of_some he ..
  | point => exact get?_register_of_some he ..
  | place hname hid hopen => exact hset _ _ _ (growing_of_open hname hid hopen)
  | close hname hid hopen => exact hset _ _ _ (growing_of_open hname hid hopen)

include h he hid in
/-- A type that cannot grow is as it is for ever: if it is closed it stays so, and if its name
    stands for another type then for a later one, and never again for this. -/
theorem Step.settled : t'.types.get? id = some e ∧ t'.growing id = false := by
  have he' := h.get?_eq he hid
  refine ⟨he', Bool.eq_false_iff.2 fun hgrow => ?_⟩
  obtain ⟨d, l, hd, hname, hl, hopen⟩ := growing_eq_true.1 hgrow
  cases he'.symm.trans hd
  obtain ⟨j, hj⟩ := isSome_iff_exists.1 (lookup_isSome.2 ⟨id, e, he, rfl⟩)
  by_cases heq : j = id
  · rw [growing_eq_true.2 ⟨e, l, he, heq ▸ hj, hl, hopen⟩] at hid
    cases hid
  · obtain ⟨d, hd, hn, hmax⟩ := lookup_eq_some.1 hj
    have hlt : id < j := by
      rcases lt_trichotomy id j with hlt | hlt | hlt
      · exact hlt
      · exact absurd hlt.symm heq
      · exact absurd rfl (hmax id e hlt he)
    obtain ⟨j', hj', hle⟩ := h.lookup_le hj
    cases hj'.symm.trans hname
    exact lt_irrefl _ (lt_of_lt_of_le hlt hle)

theorem serve_settled (h : t.serve rs = .ok t')
    (he : t.types.get? id = some e) (hid : t.growing id = false) :
    t'.types.get? id = some e ∧ t'.growing id = false := by
  induction rs generalizing t with
  | nil =>
    cases h
    exact ⟨he, hid⟩
  | cons r rs ih =>
    obtain ⟨t1, h1, h⟩ := serve_cons.1 h
    obtain ⟨he1, hid1⟩ := (TypeRequest.apply_step h1).settled he hid
    exact ih h he1 hid1

theorem growing_of_closed
    (he : t.types.get? id = some e) (hl : e.shape.layout? = some l) (hclosed : l.closed = true) :
    t.growing id = false := by grind [growing_eq_true]

/-! ## Sizes -/

/-- Every type has a size that fits. -/
def Bounded (t : TypeTable) : Prop :=
  ∀ id e, t.types.get? id = some e → e.shape.size < Checked.sizeBound

theorem Bounded.register (h : t.Bounded) (name : String)
    (hshape : shape.size < Checked.sizeBound) : (t.register name shape).2.Bounded := by
  grind [get?_register, Bounded]

theorem Bounded.setLayout (h : t.Bounded) (kind : AggregateKind) (id : TypeId)
    (hl : l.size < Checked.sizeBound) : (t.setLayout kind id l).Bounded := by
  grind [get?_setLayout, map_eq_some_iff, TypeShape.size_ofLayout, Bounded]

theorem Step.bounded (h : t.Step r t') (ht : t.Bounded) : t'.Bounded := by
  cases h with
  | idle => exact ht
  | @define kind name => exact ht.register name (by cases kind <;> decide)
  | point => exact ht.register _ (show Ty.address.size < sizeBound by decide)
  | @place place aggregate f id l e hname hid hopen hty hoffset hsize =>
    have hl := ht id _ hid
    rw [TypeShape.size_ofLayout] at hl
    exact ht.setLayout _ id (Nat.max_lt.2 ⟨hl, hsize⟩)
  | close hname hid hopen hsize => exact ht.setLayout _ _ hsize

theorem serve_bounded (h : t.serve rs = .ok t') (ht : t.Bounded) : t'.Bounded := by
  induction rs generalizing t with
  | nil =>
    cases h
    exact ht
  | cons r rs ih =>
    obtain ⟨t1, h1, h⟩ := serve_cons.1 h
    exact ih h ((TypeRequest.apply_step h1).bounded ht)

theorem bounded_initial : initial.Bounded := by
  intro id e he
  have hall : ∀ i : Fin 14, ∀ e, initial.types.get? i = some e →
      e.shape.size < sizeBound := by decide
  exact hall ⟨id, lt_size he⟩ e he

theorem Step.size_le (h : t.Step r t') : t.types.size ≤ t'.types.size := by
  cases h with
  | idle => exact le_refl _
  | define => exact le_of_lt (by rw [size_register]; exact lt_succ_self _)
  | point => exact le_of_lt (by rw [size_register]; exact lt_succ_self _)
  | place => exact le_of_eq (size_modify ..).symm
  | close => exact le_of_eq (size_modify ..).symm

theorem serve_size_le (h : t.serve rs = .ok t') : t.types.size ≤ t'.types.size := by
  induction rs generalizing t with
  | nil =>
    cases h
    exact le_refl _
  | cons r rs ih =>
    obtain ⟨t1, h1, h⟩ := serve_cons.1 h
    exact le_trans (TypeRequest.apply_step h1).size_le (ih h)

/-! ## Fields of types that cannot change -/

theorem Fits.mono {l' : Layout} (h : t.Fits l f) (hle : l.size ≤ l'.size) : t.Fits l' f := by
  obtain ⟨n, hn, hfit⟩ := h
  exact ⟨n, hn, le_trans hfit hle⟩

theorem Step.fits (h : t.Step r t')
    (hf : t.growing f.ty = false ∧ t.Fits l f) : t'.growing f.ty = false ∧ t'.Fits l f := by
  obtain ⟨hgrow, n, hn, hfit⟩ := hf
  obtain ⟨e, he, rfl⟩ := sizeOf_eq_ok.1 hn
  obtain ⟨he', hgrow'⟩ := h.settled he hgrow
  exact ⟨hgrow', (fits_iff he').2 hfit⟩

theorem serve_fits (h : t.serve rs = .ok t')
    (hgrow : t.growing f.ty = false) (hf : t.Fits l f) : t'.Fits l f := by
  obtain ⟨n, hn, hfit⟩ := hf
  obtain ⟨e, he, rfl⟩ := sizeOf_eq_ok.1 hn
  exact (fits_iff (serve_settled h he hgrow).1).2 hfit

/-- All fields, of open aggregates too, are of types that cannot change, and have room for them. -/
def Sound (t : TypeTable) : Prop := ∀ id e l, t.types.get? id = some e → e.shape.layout? = some l →
  ∀ f ∈ l.fields, t.growing f.ty = false ∧ t.Fits l f

theorem sound_initial : initial.Sound := by
  intro id e l he hl
  have hall : ∀ i : Fin 14, ∀ e, initial.types.get? i = some e → e.shape.layout? = none := by decide
  rw [hall ⟨id, lt_size he⟩ e he] at hl
  cases hl

/-- A new type without fields, and steps that leave the others as they are. -/
theorem Sound.register (hs : t.Sound) (h : t.Step r (t.register name shape).2)
    (hshape : ∀ l, shape.layout? = some l → l.fields = []) : (t.register name shape).2.Sound := by
  intro id e l he hl f hf
  rw [get?_register] at he
  split at he
  · cases he
    rw [hshape l hl] at hf
    cases hf
  · exact h.fits (hs id e l he hl f hf)

theorem Sound.setLayout (hs : t.Sound) (h : t.Step r (t.setLayout kind id l))
    (hl : ∀ f ∈ l.fields, t.growing f.ty = false ∧ t.Fits l f) : (t.setLayout kind id l).Sound := by
  intro j e l' he hl' f hf
  rw [get?_setLayout] at he
  split at he
  · obtain ⟨d, -, rfl⟩ := map_eq_some_iff.1 he
    rw [TypeShape.layout?_ofLayout] at hl'
    cases hl'
    exact h.fits (hl f hf)
  · exact h.fits (hs j e l' he hl' f hf)

theorem Step.sound (h : t.Step r t') (hs : t.Sound) (hr : r.embedsGrowing t = false) :
    t'.Sound := by
  have hstep := h
  cases h with
  | idle => exact hs
  | @define kind name =>
    refine hs.register hstep fun l hl => ?_
    rw [TypeShape.layout?_ofLayout] at hl
    cases hl
    rfl
  | point => exact hs.register hstep fun l hl => (nomatch hl)
  | @place place aggregate f id l e hname hid hopen hty hoffset hsize =>
    refine hs.setLayout hstep fun f' hf' => ?_
    rcases List.mem_append.1 hf' with hold | hnew
    · grind [TypeShape.layout?_ofLayout, Fits, Layout.placed, Sound]
    · cases List.mem_singleton.1 hnew
      exact ⟨hr, (fits_iff hty).2 (le_max_right ..)⟩
  | @close kind name id l hname hid hopen hsize =>
    refine hs.setLayout hstep fun f' hf' => ?_
    obtain ⟨hgrow, hfit⟩ := hs id _ l hid (TypeShape.layout?_ofLayout ..) f' hf'
    exact ⟨hgrow, hfit.mono (le_roundUp ..)⟩

theorem serve_sound (h : t.serve rs = .ok t') (hs : t.Sound)
    (hrs : t.meets TypeRequest.embedsGrowing rs = false) : t'.Sound := by
  induction rs generalizing t with
  | nil =>
    cases h
    exact hs
  | cons r rs ih =>
    obtain ⟨t1, h1, h⟩ := serve_cons.1 h
    obtain ⟨hr, hrs⟩ := (meets_cons h1).1 hrs
    exact ih h ((TypeRequest.apply_step h1).sound hs hr) hrs

/-! ## Types that grow -/

end TypeTable

/-- Where a field of an aggregate can always go. -/
def AggregateKind.front : AggregateKind → Placement
  | .struct => .fixed 0
  | .union => .start

namespace TypeRequest

theorem apply_define (kind : AggregateKind) (hfree : t.lookup name = none) :
    (define kind name).apply t = .ok (t.register name (.ofLayout kind {})).2 := by
  rw [apply, defineAggregate, hfree]
  rfl

theorem apply_field (place : Placement) {aggregate : String} (name : String) {ty : TypeId}
    {offset : Nat} (hname : t.lookup aggregate = some id)
    (hid : t.types.get? id = some ⟨aggregate, .ofLayout place.kind l⟩) (hopen : l.closed = false)
    (hty : t.types.get? ty = some e) (hoffset : place.offset l e.shape.align = .ok offset)
    (hsize : offset + e.shape.size < Checked.sizeBound) : (field place aggregate name ty).apply t =
      .ok (t.setLayout place.kind id (l.placed ⟨name, ty, offset⟩ e.shape)) := by
  have hlayout : t.openLayout place.kind aggregate = .ok (some (id, l)) := by
    have hfound : (t.types.get? id).bind (·.shape.layoutOf? place.kind) = some l := by
      rw [hid]
      exact TypeShape.layoutOf?_eq_some.2 rfl
    simp only [openLayout, hname, hfound, hopen]
    rfl
  have hplaced : l.addField ⟨name, ty, offset⟩ e.shape.size e.shape.align =
      .ok (l.placed ⟨name, ty, offset⟩ e.shape) := Layout.addField_eq_ok.2 ⟨hsize, rfl⟩
  have hget : t.get ty = .ok e := fetch_eq_ok.2 hty
  rw [apply, Placement.add_eq, addField]
  simp only [bind, Except.bind, hget, hlayout, hoffset, hplaced]
  rfl

end TypeRequest

namespace TypeTable

/-- A type of any size can be made, with all others as they are. -/
theorem exists_sized (hbyte : t.types.get? byte = some d)
    (hd : d.shape.size = 1) (hn : n + 1 < Checked.sizeBound) :
    ∃ rs t' big e, t.serve rs = .ok t' ∧ t.Binds t' ∧
      (∀ id e, t.types.get? id = some e → t'.types.get? id = some e) ∧
      t'.types.get? big = some e ∧ e.shape.size = n + 1 := by
  obtain ⟨fresh, hfree⟩ := t.exists_free_name
  have hkept : ∀ id e, t.types.get? id = some e →
      (t.register fresh (.struct {})).2.types.get? id = some e :=
    fun _ _ he => get?_register_of_some he ..
  have hnew : (t.register fresh (.struct {})).2.types.get? t.types.size =
      some ⟨fresh, .struct {}⟩ := by
    rw [get?_register, if_pos rfl]
  have hname : (t.register fresh (.struct {})).2.lookup fresh = some t.types.size := by
    rw [lookup_register, if_pos rfl]
  have hdefine := TypeRequest.apply_define .struct hfree
  have hfield := TypeRequest.apply_field (.fixed n) "" hname hnew rfl (hkept byte d hbyte) rfl
    (by rw [hd]; exact hn)
  refine ⟨[.define .struct fresh, .field (.fixed n) fresh "" byte], _, t.types.size, ⟨fresh, .struct (({} : Layout).placed ⟨"", byte, n⟩ d.shape)⟩,
    serve_cons.2 ⟨_, hdefine, serve_cons.2 ⟨_, hfield, rfl⟩⟩, fun m id hm => ?_,
    fun id e he => ?_, ?_, ?_⟩
  · exact binds_setLayout _ _ _ m id ((binds_register ..).2 hfree m id hm)
  · rw [get?_setLayout, if_neg (ne_of_gt (lt_size he))]
    exact hkept id e he
  · rw [get?_setLayout, if_pos rfl, hnew]
    rfl
  · show max 0 (n + d.shape.size) = n + 1
    rw [hd, zero_max]

/-- A type that can grow can grow beyond any room but the largest. -/
theorem exists_outgrown {room : Nat}
    (hgrow : t.growing id = true) (hbyte : t.types.get? byte = some d) (hd : d.shape.size = 1)
    (hroom : room + 1 < Checked.sizeBound) :
    ∃ rs t' n, t.serve rs = .ok t' ∧ t'.sizeOf id = .ok n ∧ room < n := by
  obtain ⟨⟨name, shape⟩, l, he, hname, hl, hopen⟩ := growing_eq_true.1 hgrow
  obtain ⟨kind, rfl⟩ := TypeShape.exists_ofLayout hl
  obtain ⟨rs, t1, big, e, hserve, hbinds, hkept, hbig, hsize⟩ := exists_sized hbyte hd hroom
  have hkind : kind.front.kind = kind := by cases kind <;> rfl
  have hoffset : kind.front.offset l e.shape.align = .ok 0 := by cases kind <;> rfl
  have hid : t1.types.get? id = some ⟨name, .ofLayout kind.front.kind l⟩ := by
    rw [hkind]
    exact hkept id _ he
  have hfield := TypeRequest.apply_field kind.front "" (hbinds name id hname) hid hopen hbig hoffset
    (by rw [hsize, zero_add]; exact hroom)
  refine ⟨rs ++ [.field kind.front name "" big], _, (l.placed ⟨"", big, 0⟩ e.shape).size,
    serve_append.2 ⟨t1, hserve, serve_cons.2 ⟨_, hfield, rfl⟩⟩,
    sizeOf_eq_ok.2 ⟨⟨name, .ofLayout kind.front.kind (l.placed ⟨"", big, 0⟩ e.shape)⟩, ?_,
      TypeShape.size_ofLayout ..⟩, ?_⟩
  · rw [get?_setLayout, if_pos rfl, hid]
    rfl
  · show room < max l.size (0 + e.shape.size)
    rw [hsize]
    omega

/-! ## Closed layouts -/

/-- The layout of a closed aggregate is final.  A field of it has room for its type, and keeps it
    whatever is asked for afterwards, exactly if it has room now and its type cannot grow (or the
    field takes up all the room there can be).  This is so for all fields if fields are only given
    types that cannot grow. -/
theorem closed_fields_fit_iff {id : TypeId} {e : TypeEntry} {l : Layout}
    (h : initial.serve rs = .ok t) (he : t.get id = .ok e) (hl : e.shape.layout? = some l)
    (hclosed : l.closed = true) :
    (∀ rs' t', t.serve rs' = .ok t' → t'.get id = .ok e) ∧
    (∀ f ∈ l.fields, (∀ rs' t', t.serve rs' = .ok t' → t'.Fits l f) ↔
      t.Fits l f ∧ (t.growing f.ty = true → Checked.sizeBound ≤ l.size - f.offset + 1)) ∧
    (initial.meets TypeRequest.embedsGrowing rs = false →
      ∀ f ∈ l.fields, ∀ rs' t', t.serve rs' = .ok t' → t'.Fits l f) := by
  have hid := Arena.fetch_eq_ok.1 he
  refine ⟨fun rs' t' h' => ?_, fun f hf => ⟨fun hfits => ?_, fun hf rs' t' h' => ?_⟩,
    fun hrs f hf rs' t' h' => ?_⟩
  · exact Arena.fetch_eq_ok.2 (serve_settled h' hid (growing_of_closed hid hl hclosed)).1
  · have hnow := hfits [] t rfl
    refine ⟨hnow, fun hgrow => Nat.not_lt.1 fun hroom => ?_⟩
    -- otherwise the type is made one byte larger than the room
    have hbyte : initial.types.get? 1 = some ⟨"Int8", .primitive .int8⟩ := rfl
    obtain ⟨rs', t', n, h', hn, hlt⟩ := exists_outgrown hgrow
      (serve_settled h hbyte (by decide)).1 rfl hroom
    obtain ⟨n', hn', hfit⟩ := hfits rs' t' h'
    cases hn.symm.trans hn'
    omega
  · obtain ⟨hnow, hroom⟩ := hf
    cases hgrow : t.growing f.ty with
    | false => exact serve_fits h' hgrow hnow
    | true =>
      obtain ⟨n, hn, hfit⟩ := hnow
      obtain ⟨d, hd, rfl⟩ := sizeOf_eq_ok.1 hn
      have hsize := (lt_size hd).trans_le (serve_size_le h')
      obtain ⟨d', hd'⟩ := Option.isSome_iff_exists.1 (Arena.get?_isSome.2 hsize)
      have hbound := serve_bounded h' (serve_bounded h bounded_initial) f.ty d' hd'
      have hlarge := hroom hgrow
      exact (fits_iff hd').2 (by omega)
  · obtain ⟨hgrow, hnow⟩ := serve_sound h sound_initial hrs id e l hid hl f hf
    exact serve_fits h' hgrow hnow

/-- A case of it: a closed structure within another one, and a pointer to the outer one in it. -/
theorem closed_fields_fit_nested : ∃ t e l, initial.serve
      [.define .struct "Point", .field .next "Point" "x" 4, .field .next "Point" "y" 4,
        .close .struct "Point", .define .struct "Line", .pointerTo 15,
        .field .next "Line" "from" 14, .field .next "Line" "to" 14, .field .next "Line" "tail" 16,
        .close .struct "Line"] = .ok t ∧
    t.get 15 = .ok e ∧ e.shape.layout? = some l ∧ l.closed = true ∧ l.size = 40 ∧
    ∀ f ∈ l.fields, ∀ rs' t', t.serve rs' = .ok t' → t'.Fits l f := by
  have hpasses : passes (initial.serve [.define .struct "Point", .field .next "Point" "x" 4,
      .field .next "Point" "y" 4, .close .struct "Point", .define .struct "Line", .pointerTo 15,
      .field .next "Line" "from" 14, .field .next "Line" "to" 14, .field .next "Line" "tail" 16,
      .close .struct "Line"])
      (fun t => ((t.types.get? 15).bind (·.shape.layout?)).any fun l =>
        l.closed && decide (l.size = 40)) = true := by cbv
  obtain ⟨t, ht, htest⟩ := of_passes hpasses
  rw [Option.any_eq_true] at htest
  obtain ⟨l, hl, htest⟩ := htest
  obtain ⟨e, he, hl⟩ := Option.bind_eq_some_iff.1 hl
  rw [Bool.and_eq_true, decide_eq_true_eq] at htest
  have hget : t.get 15 = .ok e := Arena.fetch_eq_ok.2 he
  exact ⟨t, e, l, ht, hget, hl, htest.1, htest.2,
    (closed_fields_fit_iff ht hget hl htest.1).2.2 (by cbv)⟩

/-- A structure is made part of another one before it has a field.  When both are closed, the outer
    one has no room for the inner one. -/
theorem closed_field_outgrown : ∃ t e l f n, initial.serve
      [.define .struct "Inner", .define .struct "Outer", .field .next "Outer" "inner" 14,
        .field .next "Inner" "x" 4, .close .struct "Inner", .close .struct "Outer"] = .ok t ∧
    t.get 15 = .ok e ∧ e.shape.layout? = some l ∧ l.closed = true ∧ f ∈ l.fields ∧
    t.sizeOf f.ty = .ok n ∧ l.size < f.offset + n := by
  have hpasses : passes (initial.serve [.define .struct "Inner", .define .struct "Outer",
      .field .next "Outer" "inner" 14, .field .next "Inner" "x" 4, .close .struct "Inner",
      .close .struct "Outer"])
      (fun t => ((t.types.get? 15).bind (·.shape.layout?)).any fun l =>
        decide (l = ⟨[⟨"inner", 14, 0⟩], 0, 1, true⟩) &&
          decide ((t.types.get? 14).map (·.shape.size) = some 8)) = true := by cbv
  obtain ⟨t, ht, htest⟩ := of_passes hpasses
  rw [Option.any_eq_true] at htest
  obtain ⟨l, hl, htest⟩ := htest
  obtain ⟨e, he, hl⟩ := Option.bind_eq_some_iff.1 hl
  rw [Bool.and_eq_true, decide_eq_true_eq, decide_eq_true_eq] at htest
  obtain ⟨rfl, hsize⟩ := htest
  obtain ⟨d, hd, hsize⟩ := Option.map_eq_some_iff.1 hsize
  exact ⟨t, e, _, ⟨"inner", 14, 0⟩, 8, ht, Arena.fetch_eq_ok.2 he, hl, rfl,
    List.mem_singleton_self _, sizeOf_eq_ok.2 ⟨d, hd, hsize⟩, by decide⟩

end TypeTable
end MethodGraph
