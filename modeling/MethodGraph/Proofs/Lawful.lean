import MethodGraph.Proofs.Lines
/-!
  Computations that build.

  Every computation on a method that ends well takes steps of building (`Lawful`).  For what is put
  together from lawful parts this is a matter of form; the work is in the few primitives that open,
  end and extend sequences.  Code that goes straight on is lawful under every license
  (`Lawful.of_within`).
-/

namespace MethodGraph

open Method List Arena Graph Block Step

variable {d : Builder} {operands : List ValueId} {m : Method} {source : Option BlockId}
  {r : Option BytecodeRecord} {c : Prop} {γ : Type}

variable {target x : BlockId} {b : BuilderId} {targets ts : List BlockId} {opcode : Opcode}
  {u : Unit}
namespace Emit

variable {α β : Type} {l : License} {m m' : Method} {loose risky : List BlockId}

/-- All that a computation does is to build, and it leaves nothing open. -/
def Lawful (l : License) (x : Emit α) : Prop :=
  ∀ (m : Method) (a : α) (m' : Method) (loose risky : List BlockId), x.run m = .ok (a, m') →
    Builds l ⟨m, loose, risky⟩ ⟨m', loose, risky⟩

/-! ## Parts put together -/

theorem lawful_pure (a : α) : Lawful l (pure a : Emit α) := by
  intro m a' m' loose risky h
  obtain ⟨-, rfl⟩ := pure_eq_ok.1 h
  exact .refl

theorem lawful_throw (e : Fault) : Lawful l (throw e : Emit α) :=
  fun _ _ _ _ _ h => absurd h throw_ne_ok

theorem lawful_bind {x : Emit α} {f : α → Emit β} (hx : Lawful l x) (hf : ∀ a, Lawful l (f a)) :
    Lawful l (x >>= f) := by
  intro m b m' loose risky h
  obtain ⟨a, m1, h1, h2⟩ := bind_eq_ok.1 h
  exact (hx _ _ _ loose risky h1).trans (hf a _ _ _ loose risky h2)

theorem lawful_ite [Decidable c] {x y : Emit α} (hx : Lawful l x) (hy : Lawful l y) :
    Lawful l (if c then x else y) := by
  split
  · exact hx
  · exact hy

theorem lawful_guard [Decidable c] {e : Fault} {k : PUnit → Emit α}
    (hk : Lawful l (k ⟨⟩)) : Lawful l (if c then throw e >>= k else k ⟨⟩) := by
  intro m a m' loose risky h
  exact hk _ _ _ loose risky (guard_eq_ok.1 h).2

theorem lawful_get : Lawful l (get : Emit Method) := by
  intro m a m' loose risky h
  obtain ⟨-, rfl⟩ := get_eq_ok.1 h
  exact .refl

theorem lawful_lift (x : Except Fault α) : Lawful l (liftM x : Emit α) := by
  intro m a m' loose risky h
  obtain ⟨-, rfl⟩ := lift_eq_ok.1 h
  exact .refl

theorem lawful_modify (hl : l.strays = true) {f : Method → Method}
    (hf : ∀ m, Method.Quiet m (f m)) (hs : l.records = true ∨ ∀ m, (f m).vmState = m.vmState) :
    Lawful l (modify f : Emit PUnit) := by
  intro m a m' loose risky h
  obtain rfl := modify_eq_ok.1 h
  exact (quiet (hf m) (hs.imp_right (· m)) (.inl hl)).builds

theorem lawful_forM {f : γ → Emit PUnit} (hf : ∀ c, Lawful l (f c)) :
    ∀ cs : List γ, Lawful l (cs.forM f)
  | [] => lawful_pure _
  | c :: cs => by
    exact lawful_bind (hf c) fun _ => lawful_forM hf cs

/-! ## Reading -/

theorem lawful_typeOf (v : ValueId) : Lawful l (typeOf v) :=
  lawful_bind lawful_get fun _ => lawful_lift _

theorem lawful_builder (b : BuilderId) : Lawful l (builder b) :=
  lawful_bind lawful_get fun _ => lawful_lift _

theorem lawful_isPlaced (b : BuilderId) : Lawful l (isPlaced b) :=
  lawful_bind (lawful_builder b) fun _ => lawful_pure _

/-! ## New values, builders and marks -/

theorem lawful_newValue (ty : Ty) : Lawful l (newValue ty) := by
  intro m v m' loose risky h
  cases h
  refine builds (.quiet ?_ (.inr rfl) (.inr rfl))
  exact ⟨rfl, rfl, rfl, rfl, rfl, fun _ _ h => get?_alloc_of_some h, fun _ _ h => h⟩

theorem newBlock_eq_ok :
    newBlock.run m = .ok (x, m') ↔ m.graph.blocks.size = x ∧ m' = m.addBlock := by
  show Except.ok (m.graph.blocks.size, m.addBlock) = .ok (x, m') ↔ _
  simp [eq_comm]

theorem newBuilder_eq_ok :
    (newBuilder r).run m = .ok (b, m') ↔ m.builders.size = b ∧ m' = m.addBuilder r := by
  have hsize : m.addBlock.graph.blocks.size = m.graph.blocks.size + 1 := size_addBlock
  show Except.ok (m.builders.size, { m.addBlock.addBlock with builders := (m.builders.alloc
    { Builder.new m.graph.blocks.size m.addBlock.graph.blocks.size with bytecode := r }).2 }) =
      .ok (b, m') ↔ _
  rw [hsize]
  show Except.ok (m.builders.size, m.addBuilder r) = .ok (b, m') ↔ _
  simp [eq_comm]

theorem lawful_newBuilder
    (hr : ∀ r', r = some r' → r'.initial = none ∧ r'.state = none) : Lawful l (newBuilder r) := by
  intro m b m' loose risky h
  obtain ⟨rfl, rfl⟩ := newBuilder_eq_ok.1 h
  exact (Step.newBuilder r hr).builds

theorem lawful_orphan : Lawful l orphan := lawful_newBuilder nofun

theorem lawful_prepare (b : Option BuilderId) : Lawful l (prepare b) := by
  cases b with
  | none => exact lawful_orphan
  | some b => exact lawful_pure b

theorem lawful_flag (x : BlockId) {f : Block → Block} (hf : ∀ blk, Block.SameCode blk (f blk)) :
    Lawful l (onGraph (·.updateBlock x f)) := by
  intro m u m' loose risky h
  obtain ⟨-, rfl⟩ := onBlock_eq_ok.1 h
  exact (flag x f hf).builds

theorem lawful_tag (b : BuilderId) {f : Builder → Builder} (hf : ∀ d, Builder.SamePlan d (f d))
    (hr : ∀ d, (f d).bytecode = d.bytecode) : Lawful l (updateBuilder b f) := by
  intro m u m' loose risky h
  obtain ⟨-, rfl⟩ := updateBuilder_eq_ok.1 h
  exact (tag b f fun d _ => ⟨hf d, .inl (hr d)⟩).builds

theorem lawful_markHandler (b : BuilderId) : Lawful l (markHandler b) := by
  refine lawful_bind (lawful_tag b ?_ ?_) fun _ =>
    lawful_bind (lawful_builder b) fun d => lawful_flag d.entry ?_
  · exact fun _ => ⟨rfl, rfl, rfl, rfl, rfl, rfl, rfl, rfl, rfl⟩
  · exact fun _ => rfl
  · exact fun _ => ⟨rfl, rfl, rfl, rfl⟩

theorem lawful_markCold (b : BuilderId) : Lawful l (markCold b) := by
  refine lawful_bind (lawful_builder b) fun d => lawful_flag d.entry ?_
  exact fun _ => ⟨rfl, rfl, rfl, rfl⟩

end Emit

/-! ## Sequences -/

namespace Method

/-- Add an edge from a block, if one is given. -/
def linkFrom (m : Method) : Option BlockId → BlockId → Method
  | some source, target => m.withEdge source target
  | none, _ => m

theorem builder?_linkFrom (m : Method) (source : Option BlockId) (target : BlockId)
    (b : BuilderId) : (m.linkFrom source target).builder? b = m.builder? b := by
  cases source <;> rfl

theorem size_linkFrom (m : Method) (source : Option BlockId) (target : BlockId) :
    (m.linkFrom source target).graph.blocks.size = m.graph.blocks.size := by
  cases source with
  | none => rfl
  | some x => exact size_withEdge ..

/-- The method in which a builder without an open block has got a new one. -/
def opened (m : Method) (b : BuilderId) (d : Builder) : Method :=
  (m.addBlock.linkFrom d.tail.block? m.graph.blocks.size).withBuilder b
    (·.extend (.block m.graph.blocks.size) (.current m.graph.blocks.size))

/-- The method in which a builder has been put at the end of the sequence of another. -/
def holding (m : Method) (b c : BuilderId) (d e : Builder) : Method :=
  ((m.withBuilder c ({ · with placed := true })).linkFrom d.tail.block? e.entry).withBuilder b
    (·.extend (.builder c) (.owed e.exit))

theorem hasEdge_linkFrom (hs : ∀ x, source = some x → x < m.graph.blocks.size) :
    ∀ x, source = some x → (m.linkFrom source target).HasEdge x target := by
  rintro x rfl
  exact hasEdge_withEdge (hs x rfl)

end Method

namespace Emit

variable {α β : Type} {l : License} {m m' : Method} {loose risky : List BlockId}

theorem extend_eq_ok {entry : Entry} {tail : Tail}
    (h : (extend b entry tail target).run m = .ok (u, m')) :
    ∃ d, m.builder? b = some d ∧ d.connected = false ∧
      (∀ x, d.tail.block? = some x → x < m.graph.blocks.size ∧ target < m.graph.blocks.size) ∧
      m' = (m.linkFrom d.tail.block? target).withBuilder b (·.extend entry tail) := by
  unfold extend at h
  obtain ⟨d, m1, h1, h⟩ := bind_eq_ok.1 h
  obtain ⟨hd, rfl⟩ := builder_eq_ok.1 h1
  obtain ⟨hc, h⟩ := guard_eq_ok.1 h
  obtain ⟨_, m2, h2, h⟩ := bind_eq_ok.1 h
  obtain ⟨-, rfl⟩ := updateBuilder_eq_ok.1 h2
  refine ⟨d, hd, by simpa using hc, ?_⟩
  cases ht : d.tail.block? with
  | none =>
    rw [ht] at h
    obtain ⟨-, rfl⟩ := pure_eq_ok.1 h
    exact ⟨fun x hx => (nomatch hx), rfl⟩
  | some x =>
    rw [ht] at h
    obtain ⟨hx, hy, rfl⟩ := addEdge_eq_ok.1 h
    refine ⟨?_, rfl⟩
    rintro _ ⟨⟩
    exact ⟨hx, hy⟩

theorem append_eq_ok {c : BuilderId} (h : (append b c).run m = .ok (u, m')) :
    ∃ d e, m.builder? b = some d ∧ m.builder? c = some e ∧ c ≠ b ∧ c ≠ Method.root ∧
      e.placed = false ∧
      (∀ x, d.tail.block? = some x → x < m.graph.blocks.size ∧ e.entry < m.graph.blocks.size) ∧
      (e.isHandler = true ∧
        m' = (m.holding b c d e).withBlock e.entry (fun blk => { blk with isHandler := true }) ∨
      e.isHandler = false ∧ m' = m.holding b c d e) := by
  unfold append at h
  obtain ⟨hne, h⟩ := guard_eq_ok.1 h
  obtain ⟨hroot, h⟩ := guard_eq_ok.1 h
  obtain ⟨e, _, h1, h⟩ := bind_eq_ok.1 h
  obtain ⟨he, rfl⟩ := builder_eq_ok.1 h1
  obtain ⟨hfree, h⟩ := guard_eq_ok.1 h
  obtain ⟨_, m2, h2, h⟩ := bind_eq_ok.1 h
  obtain ⟨-, rfl⟩ := updateBuilder_eq_ok.1 h2
  obtain ⟨_, m3, h3, h⟩ := bind_eq_ok.1 h
  obtain ⟨d, hd, -, hs, rfl⟩ := extend_eq_ok h3
  rw [builder?_withBuilder, if_neg hne] at hd
  refine ⟨d, e, hd, he, hne, hroot, by simpa using hfree, hs, ?_⟩
  split at h
  · next hh => exact .inl ⟨hh, (onBlock_eq_ok.1 h).2⟩
  · next hh => exact .inr ⟨by simpa using hh, (pure_eq_ok.1 h).2.symm⟩

/-- A builder has an open block, or it gets one. -/
theorem openBlock_eq_ok (h : (openBlock b).run m = .ok (x, m')) :
    ∃ d, m.builder? b = some d ∧ (d.tail = .current x ∧ m' = m ∨
      (∀ y, d.tail ≠ .current y) ∧ x = m.graph.blocks.size ∧ m' = m.opened b d ∧
        (appendBlock b x).run m.addBlock = .ok ((), m')) := by
  grind [bind_eq_ok, builder_eq_ok, pure_eq_ok, newBlock_eq_ok, extend_eq_ok, Method.builder?,
    Method.opened, appendBlock, Method.addBlock, openBlock]

/-- The edge out of a sequence, before the sequence is extended. -/
theorem builds_linkFrom
    (hs : ∀ x, source = some x → x < m.graph.blocks.size ∧ target < m.graph.blocks.size)
    (ht : Draft.IsTarget ⟨m, loose, risky⟩ target) :
    Builds l ⟨m, loose, risky⟩ ⟨m.linkFrom source target, loose, risky⟩ := by
  cases source with
  | none => exact .refl
  | some x => exact (edge x target (hs x rfl).1 (hs x rfl).2 ht).builds

theorem appendBlock_builds (hx : x ∈ loose) (h : (appendBlock b x).run m = .ok (u, m')) :
    Builds l ⟨m, loose, risky⟩ ⟨m', loose.erase x, risky⟩ := by
  obtain ⟨d, hd, -, hs, rfl⟩ := extend_eq_ok h
  refine (builds_linkFrom hs (.inl hx)).tail (place (d := d) x ?_ hx ?_)
  · cases d.tail.block? <;> exact hd
  · exact hasEdge_linkFrom fun y hy => (hs y hy).1

theorem append_builds {c : BuilderId} (h : (append b c).run m = .ok (u, m')) :
    Builds l ⟨m, loose, risky⟩ ⟨m', loose, risky⟩ := by
  obtain ⟨d, e, hd, he, hne, hroot, hfree, hs, hm'⟩ := append_eq_ok h
  have hbuilt : Builds l ⟨m, loose, risky⟩ ⟨m.holding b c d e, loose, risky⟩ := by
    refine (builds_linkFrom (m := m) hs (.inr (.inl ⟨c, e, he, rfl⟩))).tail ?_
    unfold holding
    -- marking the child and adding the edge change different parts of the method
    have hcomm : (m.withBuilder c ({ · with placed := true })).linkFrom d.tail.block? e.entry =
        (m.linkFrom d.tail.block? e.entry).withBuilder c ({ · with placed := true }) := by
      cases d.tail.block? <;> rfl
    rw [hcomm]
    refine nest (d := d) ?_ ?_ hne hroot hfree ?_
    · rw [builder?_linkFrom, hd]
    · rw [builder?_linkFrom, he]
    · exact hasEdge_linkFrom fun y hy => (hs y hy).1
  rcases hm' with ⟨-, rfl⟩ | ⟨-, rfl⟩
  · exact hbuilt.tail (.flag e.entry _ fun _ => ⟨rfl, rfl, rfl, rfl⟩)
  · exact hbuilt

theorem lawful_append (b c : BuilderId) : Lawful l (append b c) :=
  fun _ _ _ _ _ h => append_builds h

theorem builder?_opened (hd : m.builder? b = some d) : (m.opened b d).builder? b =
      some (d.extend (.block m.graph.blocks.size) (.current m.graph.blocks.size)) := by
  unfold opened
  rw [builder?_withBuilder, if_pos rfl, builder?_linkFrom]
  exact congrArg _ hd

/-- Opening a block builds, and the answer is the block that takes operations then. -/
theorem openBlock_builds (l : License) (loose risky : List BlockId)
    (h : (openBlock b).run m = .ok (x, m')) : Builds l ⟨m, loose, risky⟩ ⟨m', loose, risky⟩ ∧
      ∃ d, m'.builder? b = some d ∧ d.tail = .current x := by
  obtain ⟨d, hd, ⟨ht, rfl⟩ | ⟨-, rfl, rfl, h⟩⟩ := openBlock_eq_ok h
  · exact ⟨.refl, d, hd, ht⟩
  · have hplace : Builds l ⟨m.addBlock, m.graph.blocks.size :: loose, risky⟩
        ⟨m.opened b d, (m.graph.blocks.size :: loose).erase m.graph.blocks.size, risky⟩ :=
      appendBlock_builds mem_cons_self h
    rw [erase_cons_head] at hplace
    exact ⟨hplace.head .newBlock, _, builder?_opened hd, rfl⟩

/-! ## Operations -/

/-- An operation that goes straight on. -/
theorem emit_builds {op : Operation} (hop : op.IsStraight)
    (hsuits : l.strays = true ∨ ∀ g, m.graph.Keeps g → op.Suits g)
    (h : (emit b op).run m = .ok (u, m')) : Builds l ⟨m, loose, risky⟩ ⟨m', loose, risky⟩ := by
  obtain ⟨x, m1, h1, h⟩ := bind_eq_ok.1 h
  obtain ⟨hopen, d, hd, hx⟩ := openBlock_builds l loose risky h1
  obtain ⟨-, rfl⟩ := push_eq_ok.1 h
  have hstep : Step l ⟨m1, loose, risky⟩ ⟨m1.withBlock x (·.push op), loose, _⟩ :=
    .push op hd hx hop.stays hop.targets
      (hsuits.imp_right (· _ ⟨hopen.below.values, hopen.below.symbols⟩))
  rw [hop.safe] at hstep
  exact hopen.tail hstep

end Emit

theorem Graph.get?_define {g : Graph} {name : String} {ty : Ty} {kind : SymbolKind} {s : SymbolId}
    {y : Symbol} (h : g.symbols.get? s = some y) :
    (g.define name ty kind).2.symbols.get? s = some y := by
  unfold define
  split
  · exact h
  · exact Emit.get?_alloc_of_some h

theorem Graph.define_keeps (g : Graph) (name : String) (ty : Ty) (kind : SymbolKind) :
    (g.define name ty kind).2.blocks = g.blocks ∧ (g.define name ty kind).2.values = g.values ∧
      (g.define name ty kind).2.layout = g.layout := by
  unfold define
  split <;> exact ⟨rfl, rfl, rfl⟩

theorem Method.quiet_define (m : Method) (name : String) (ty : Ty) (kind : SymbolKind) :
    m.Quiet { m with graph := (m.graph.define name ty kind).2 } := by
  obtain ⟨hb, hv, hl⟩ := m.graph.define_keeps name ty kind
  refine ⟨rfl, hb, hl, rfl, rfl, fun v t h => ?_, fun _ _ h => get?_define h⟩
  rw [hv]
  exact h

namespace Emit

/-- Building that leaves nothing open. -/
def Grows (l : License) (loose risky : List BlockId) (m m' : Method) : Prop :=
  Builds l ⟨m, loose, risky⟩ ⟨m', loose, risky⟩

instance (loose risky : List BlockId) : Accrues (Grows l loose risky) :=
  ⟨fun _ => .refl, .trans⟩

instance (loose risky : List BlockId) (b : BuilderId) : Admits b (Grows l loose risky) where
  value m ty := lawful_newValue ty m _ _ loose risky rfl
  symbol m name ty kind := (Step.quiet (m.quiet_define name ty kind) (.inr rfl) (.inr rfl)).builds
  emit hop hsuits h := emit_builds hop (.inr hsuits) h

theorem Lawful.of_within {x : Emit α} (h : ∀ loose risky, Within (Grows l loose risky) x) :
    Lawful l x := fun m a m' loose risky hx => h loose risky m a m' hx

end Emit

/-- A target stays a target. -/
theorem Draft.IsTarget.mono {l : License} {m' : Method} {loose loose' risky risky' : List BlockId}
    (h : Draft.IsTarget ⟨m, loose, risky⟩ x)
    (hb : Draft.Below l ⟨m, loose, risky⟩ ⟨m', loose', risky'⟩) (hl : x ∈ loose → x ∈ loose') :
    Draft.IsTarget ⟨m', loose', risky'⟩ x := by
  rcases h with h | ⟨b, d, hd, rfl⟩ | h
  · exact .inl (hl h)
  · obtain ⟨e, he, hde⟩ := hb.builders b d hd
    exact .inr (.inl ⟨b, e, he, hde.entry⟩)
  · exact .inr (.inr h)

namespace Method

variable {m : Method}

theorem modify_comm (a : Arena γ) (i j : Nat) {f g : γ → γ}
    (h : ∀ x, f (g x) = g (f x)) : (a.modify i f).modify j g = (a.modify j g).modify i f := by
  have hget : ∀ k, ((a.modify i f).modify j g).get? k = ((a.modify j g).modify i f).get? k := by
    grind [Arena.get?, Arena.modify]
  exact congrArg Arena.mk (Array.ext_getElem? hget)

/-- An operation and an edge can be added in either order. -/
theorem withEdge_push (x y z : BlockId) (op : Operation) :
    (m.withBlock x (·.push op)).withEdge y z = (m.withEdge y z).withBlock x (·.push op) := by
  grind [modifyBlock, modify_comm, addSucc, addPred, withEdge, withBlock, Block.push]

theorem withEdges_push (x y : BlockId) (op : Operation) (ts : List BlockId) :
    (m.withBlock x (·.push op)).withEdges y ts = (m.withEdges y ts).withBlock x (·.push op) := by
  induction ts generalizing m with
  | nil => rfl
  | cons t ts ih => rw [withEdges, withEdge_push, ih, withEdges]

theorem HasEdge.withEdges {y : BlockId} (h : m.HasEdge x y) (z : BlockId) (ts : List BlockId) :
    (m.withEdges z ts).HasEdge x y := by
  induction ts generalizing m with
  | nil => exact h
  | cons t ts ih => exact ih (h.withEdge z t)

theorem hasEdge_withEdges {t : BlockId} (hx : x < m.graph.blocks.size)
    (ht : t ∈ ts) : (m.withEdges x ts).HasEdge x t := by
  induction ts generalizing m with
  | nil => exact absurd ht not_mem_nil
  | cons u ts ih =>
    rcases mem_cons.1 ht with rfl | ht
    · exact (hasEdge_withEdge hx).withEdges x ts
    · exact ih (by simpa using hx) ht

@[simp] theorem builder?_withEdges (x : BlockId) (ts : List BlockId) (b : BuilderId) :
    (m.withEdges x ts).builder? b = m.builder? b := by
  induction ts generalizing m with
  | nil => rfl
  | cons t ts ih => exact ih

end Method

namespace Emit

variable {α β : Type} {l : License} {m m' : Method} {loose risky : List BlockId}

theorem addEdges_eq_ok
    (hx : x < m.graph.blocks.size) (h : (ts.forM (addEdge x)).run m = .ok (u, m')) :
    (∀ t ∈ ts, t < m.graph.blocks.size) ∧ m' = m.withEdges x ts := by
  induction ts generalizing m with
  | nil =>
    obtain ⟨-, rfl⟩ := pure_eq_ok.1 h
    exact ⟨fun _ ht => absurd ht not_mem_nil, rfl⟩
  | cons t ts ih =>
    obtain ⟨_, m1, h1, h⟩ := bind_eq_ok.1 h
    obtain ⟨-, ht, rfl⟩ := addEdge_eq_ok.1 h1
    obtain ⟨hts, rfl⟩ := ih (by simpa using hx) h
    refine ⟨fun s hs => ?_, rfl⟩
    rcases mem_cons.1 hs with rfl | hs
    · exact ht
    · simpa using hts s hs

theorem builds_withEdges (hx : x < m.graph.blocks.size) (hts : ∀ t ∈ ts, t < m.graph.blocks.size)
    (ht : ∀ t ∈ ts, Draft.IsTarget ⟨m, loose, risky⟩ t) :
    Builds l ⟨m, loose, risky⟩ ⟨m.withEdges x ts, loose, risky⟩ := by
  induction ts generalizing m with
  | nil => exact .refl
  | cons t ts ih =>
    have hstep : Step l ⟨m, loose, risky⟩ ⟨m.withEdge x t, loose, risky⟩ :=
      .edge x t hx (hts t mem_cons_self) (ht t mem_cons_self)
    refine (ih (by simpa using hx) ?_ ?_).head hstep
    · intro s hs
      simpa using hts s (mem_cons_of_mem _ hs)
    · intro s hs
      exact (ht s (mem_cons_of_mem _ hs)).mono hstep.below id

/-- A transfer is an operation with edges, and closes the block that it goes into. -/
theorem transfer_eq_ok (h : (transfer b opcode operands targets).run m = .ok (u, m')) :
    ∃ x m1, (openBlock b).run m = .ok (x, m1) ∧ x < m1.graph.blocks.size ∧
      (∀ t ∈ targets, t < m1.graph.blocks.size) ∧
      m' = ((m1.withBlock x (·.push { opcode, operands, targets })).withEdges x targets).withBuilder
        b fun d => { d with tail := d.tail.close (!opcode.isUnconditional) } := by
  obtain ⟨x, m1, h1, h⟩ := bind_eq_ok.1 h
  obtain ⟨_, m2, h2, h⟩ := bind_eq_ok.1 h
  obtain ⟨hlt, rfl⟩ := push_eq_ok.1 h2
  obtain ⟨_, m3, h3, h⟩ := bind_eq_ok.1 h
  obtain ⟨hts, rfl⟩ := addEdges_eq_ok (by simpa using hlt) h3
  exact ⟨x, m1, h1, hlt, fun t ht => by simpa using hts t ht, (updateBuilder_eq_ok.1 h).2⟩

/-- A transfer in an open block builds if all its targets may be targets. -/
theorem builds_transfer (operands : List ValueId) (hop : opcode.isTerminator = true)
    (hd : m.builder? b = some d) (hx : d.tail = .current x) (hlt : x < m.graph.blocks.size)
    (hts : ∀ t ∈ targets, t < m.graph.blocks.size)
    (ht : ∀ t ∈ targets, Draft.IsTarget ⟨m, loose, risky⟩ t) :
    Builds l ⟨m, loose, risky⟩ ⟨((m.withBlock x (·.push { opcode, operands, targets })).withEdges x
      targets).withBuilder b fun d => { d with tail := d.tail.close (!opcode.isUnconditional) },
        loose, risky⟩ := by
  refine (builds_withEdges hlt hts ht).tail ?_
  rw [withEdges_push]
  refine close (d := d) { opcode, operands, targets } (by simpa using hd) hx hop
    (fun t h => hasEdge_withEdges hlt h) (.inr ?_)
  -- a transfer computes nothing
  cases opcode <;> trivial

theorem transfer_builds (hop : opcode.isTerminator = true)
    (ht : ∀ t ∈ targets, Draft.IsTarget ⟨m, loose, risky⟩ t)
    (h : (transfer b opcode operands targets).run m = .ok (u, m')) :
    Builds l ⟨m, loose, risky⟩ ⟨m', loose, risky⟩ := by
  obtain ⟨x, m1, h1, hlt, hts, rfl⟩ := transfer_eq_ok h
  obtain ⟨hopen, d, hd, hx⟩ := openBlock_builds l loose risky h1
  exact hopen.trans
    (builds_transfer operands hop hd hx hlt hts fun t h => (ht t h).mono hopen.below id)

/-- A transfer without targets. -/
theorem lawful_leave (b : BuilderId) (operands : List ValueId)
    (hop : opcode.isTerminator = true) : Lawful l (transfer b opcode operands []) :=
  fun _ _ _ _ _ h => transfer_builds hop (fun _ ht => absurd ht not_mem_nil) h

end Emit
end MethodGraph
