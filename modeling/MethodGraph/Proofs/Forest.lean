import Mathlib.Data.List.Nodup
import Mathlib.Logic.Relation
import MethodGraph.Proofs.Growth
/-!
  The builders of a method are a forest.

  A builder contains the builders in its sequence.  Every builder is contained in at most one, and
  every block belongs to at most one builder, as a part of its sequence or as its exit (`Forest`).
  Each step of building keeps it so (`Step.forest`): a block is placed while it belongs to nobody,
  and a builder is appended while nothing contains it.

  Builders may still contain each other in a circle, since nothing stops a caller from appending
  two builders to each other.  The crux is that such a circle hangs from no builder that is
  contained in none (`Forest.not_circular`): going back along the circle and going back towards
  that builder are the same thing, because there is only one way back.  So what hangs from a
  builder that is contained in none is a tree, and as it has no more levels than there are builders
  (`Deep`) the recursions over it come to their end.
-/

namespace MethodGraph

open Method List Builder

variable {x : BlockId} {d : Builder} {b c : BuilderId} {s t : Draft} {l : License}

namespace Entry

/-- The block that an entry is. -/
def block? : Entry → Option BlockId
  | block x => some x
  | builder _ => none

/-- The builder that an entry is. -/
def builder? : Entry → Option BuilderId
  | block _ => none
  | builder c => some c

end Entry

namespace Builder

/-- The blocks in the sequence. -/
def blocksHere (d : Builder) : List BlockId := d.sequence.filterMap Entry.block?

/-- The builders in the sequence. -/
def children (d : Builder) : List BuilderId := d.sequence.filterMap Entry.builder?

/-- The blocks that belong to a builder. -/
def owned (d : Builder) : List BlockId := d.exit :: d.blocksHere

/-- What a builder is a part of and consists of, without its end, its marks and its record. -/
def plan (d : Builder) : Builder :=
  { d with tail := .closed, isHandler := false, bytecode := none }

theorem mem_blocksHere : x ∈ d.blocksHere ↔ Entry.block x ∈ d.sequence := by
  unfold blocksHere
  rw [mem_filterMap]
  constructor
  · rintro ⟨e, he, hx⟩
    cases e with
    | block y =>
      cases hx
      exact he
    | builder c => cases hx
  · exact fun h => ⟨_, h, rfl⟩

theorem mem_children : c ∈ d.children ↔ Entry.builder c ∈ d.sequence := by
  unfold children
  rw [mem_filterMap]
  constructor
  · rintro ⟨e, he, hx⟩
    cases e with
    | block y => cases hx
    | builder c =>
      cases hx
      exact he
  · exact fun h => ⟨_, h, rfl⟩

theorem SamePlan.plan {d' : Builder} (h : d.SamePlan d') : d'.plan = d.plan := by
  obtain ⟨h1, h2, h3, h4, h5, h6, h7, h8, h9⟩ := h
  unfold Builder.plan
  rw [h1, h2, h3, h5, h6, h7, h8, h9]

end Builder

/-- The plan of each builder. -/
def Method.plan? (m : Method) (b : BuilderId) : Option Builder := (m.builder? b).map Builder.plan

/-! ## Forests -/

/-- Builders by their plans, where blocks below `n` are in use and `loose` ones belong to nobody. -/
structure Forest (P : BuilderId → Option Builder) (n : Nat) (loose : List BlockId) : Prop where
  root : ∃ d, P Method.root = some d ∧ d.entry = Graph.entry ∧ d.exit = Graph.exit
  opens : ∀ {b d}, P b = some d → ∃ rest, d.sequence = .block d.entry :: rest
  nodup : ∀ {b d}, P b = some d → d.owned.Nodup
  owner : ∀ {b c d e x}, P b = some d → P c = some e → x ∈ d.owned → x ∈ e.owned → b = c
  bound : ∀ {b d x}, P b = some d → x ∈ d.owned → x < n
  looseNodup : loose.Nodup
  looseBound : ∀ x ∈ loose, x < n
  looseFree : ∀ {b d x}, P b = some d → x ∈ d.owned → x ∉ loose
  child : ∀ {b d c}, P b = some d → c ∈ d.children →
    c ≠ Method.root ∧ ∃ e, P c = some e ∧ e.placed = true
  once : ∀ {b d}, P b = some d → d.children.Nodup
  parent : ∀ {a b c d e}, P a = some d → P b = some e → c ∈ d.children → c ∈ e.children → a = b
  placed : ∀ {c e}, P c = some e → e.placed = true → ∃ b d, P b = some d ∧ c ∈ d.children

namespace Forest

variable {P P' : BuilderId → Option Builder} {n : Nat} {loose : List BlockId}

/-- A block that is in use by nobody before. -/
theorem newBlock (h : Forest P n loose) : Forest P (n + 1) (n :: loose) :=
  { h with
    bound := fun hb hx => Nat.lt_succ_of_lt (h.bound hb hx)
    looseNodup := nodup_cons.2 ⟨fun hn => Nat.lt_irrefl n (h.looseBound n hn), h.looseNodup⟩
    looseBound := by
      have hbound := h.looseBound
      grind
    looseFree := by
      have hfree := @h.looseFree
      have hbound := @h.bound
      grind }

/-- A builder with two blocks that are in use by nobody before. -/
theorem newBuilder (h : Forest P n loose) {s : BuilderId} (hs : P s = none)
    (hP : ∀ a, P' a = if a = s then some (Builder.new n (n + 1)).plan else P a) :
    Forest P' (n + 2) loose := by
  have howned : (Builder.new n (n + 1)).plan.owned = [n + 1, n] := rfl
  have hchildren : (Builder.new n (n + 1)).plan.children = [] := rfl
  have hfree : (Builder.new n (n + 1)).plan.placed = false := rfl
  have hseq : (Builder.new n (n + 1)).plan.sequence =
    [.block (Builder.new n (n + 1)).plan.entry] := rfl
  constructor
  · have hroot := h.root
    grind
  · have hopens := @h.opens
    grind
  · have hnodup := @h.nodup
    grind
  · have howner := @h.owner
    have hbound := @h.bound
    grind
  · have hbound := @h.bound
    grind
  · exact h.looseNodup
  · exact fun x hx => Nat.lt_add_right 2 (h.looseBound x hx)
  · have hloose := @h.looseFree
    have hbound := h.looseBound
    grind
  · have hchild := @h.child
    grind
  · have honce := @h.once
    grind
  · have hparent := @h.parent
    grind
  · have hplaced := @h.placed
    grind

/-- A block of nobody becomes part of a sequence. -/
theorem place (h : Forest P n loose) (hb : P b = some d) (hx : x ∈ loose)
    (hP : ∀ a, P' a = if a = b then some { d with sequence := d.sequence ++ [.block x] } else P a) :
    Forest P' n (loose.erase x) := by
  obtain ⟨d', hd'⟩ : ∃ d' : Builder, d' = { d with sequence := d.sequence ++ [.block x] } :=
    ⟨_, rfl⟩
  have hsame : d'.entry = d.entry ∧ d'.exit = d.exit ∧ d'.placed = d.placed ∧
      d'.sequence = d.sequence ++ [.block x] ∧ d'.owned = d.owned ++ [x] ∧
      d'.children = d.children := by
    simp [hd', owned, blocksHere, Entry.block?, children, Entry.builder?]
  rw [← hd'] at hP
  clear hd'
  constructor
  · have hroot := h.root
    grind
  · have hopens := @h.opens
    grind
  · have hnodup := @h.nodup
    have hfree := @h.looseFree
    grind
  · have howner := @h.owner
    have hfree := @h.looseFree
    grind
  · have hbound := @h.bound
    have hloose := h.looseBound
    grind
  · exact h.looseNodup.erase x
  · exact fun y hy => h.looseBound y (mem_of_mem_erase hy)
  · have hfree := @h.looseFree
    have hnodup := h.looseNodup
    grind
  · have hchild := @h.child
    grind
  · have honce := @h.once
    grind
  · have hparent := @h.parent
    grind
  · have hplaced := @h.placed
    grind

/-- A builder that nothing contains becomes part of a sequence. -/
theorem nest (h : Forest P n loose) {e : Builder} (hb : P b = some d)
    (hc : P c = some e) (hne : c ≠ b) (hroot : c ≠ Method.root) (hfree : e.placed = false)
    (hP : ∀ a, P' a = if a = b then some { d with sequence := d.sequence ++ [.builder c] }
      else if a = c then some { e with placed := true } else P a) :
    Forest P' n loose := by
  obtain ⟨d', hd'⟩ : ∃ d' : Builder, d' = { d with sequence := d.sequence ++ [.builder c] } :=
    ⟨_, rfl⟩
  obtain ⟨e', he'⟩ : ∃ e' : Builder, e' = { e with placed := true } := ⟨_, rfl⟩
  have hd : d'.entry = d.entry ∧ d'.exit = d.exit ∧ d'.placed = d.placed ∧
      d'.sequence = d.sequence ++ [.builder c] ∧ d'.owned = d.owned ∧
      d'.children = d.children ++ [c] := by
    simp [hd', owned, blocksHere, Entry.block?, children, Entry.builder?]
  have he : e'.entry = e.entry ∧ e'.exit = e.exit ∧ e'.placed = true ∧
      e'.sequence = e.sequence ∧ e'.owned = e.owned ∧ e'.children = e.children := by
    simp [he', owned, blocksHere, children]
  rw [← hd', ← he'] at hP
  clear hd' he'
  -- nothing contained the new child before
  have hfresh : ∀ {a f}, P a = some f → c ∉ f.children := by
    have hchild := @h.child
    grind
  constructor
  · have hroot := h.root
    grind
  · have hopens := @h.opens
    grind
  · have hnodup := @h.nodup
    grind
  · have howner := @h.owner
    grind
  · have hbound := @h.bound
    grind
  · exact h.looseNodup
  · exact h.looseBound
  · have hloose := @h.looseFree
    grind
  · have hchild := @h.child
    grind
  · have honce := @h.once
    grind
  · have hparent := @h.parent
    grind
  · have hplaced := @h.placed
    grind

/-- A method with an empty body. -/
theorem new (name : String) (config : Config) : Forest (Method.new name config).plan? 2 [] := by
  have hget : ∀ b, (Method.new name config).plan? b =
      if b = Method.root then some (Builder.new Graph.entry Graph.exit).plan else none
    | 0 | _ + 1 => rfl
  have howned : (Builder.new Graph.entry Graph.exit).plan.owned = [Graph.exit, Graph.entry] := rfl
  have hchildren : (Builder.new Graph.entry Graph.exit).plan.children = [] := rfl
  have hfree : (Builder.new Graph.entry Graph.exit).plan.placed = false := rfl
  constructor
  · exact ⟨_, rfl, rfl, rfl⟩
  · intro b d hb
    exact ⟨[], by grind [Builder.plan, Builder.new]⟩
  all_goals grind

end Forest

/-! ## Steps of building -/

namespace Method

variable {m m' : Method} {b : BuilderId}

theorem plan?_of_builder? (h : m.builder? b = some d) : m.plan? b = some d.plan := by
  unfold plan?
  rw [h]
  rfl

theorem builder?_of_plan? (h : m.plan? b = some d) : ∃ e, m.builder? b = some e ∧ d = e.plan := by
  unfold plan? at h
  obtain ⟨e, he, rfl⟩ := Option.map_eq_some_iff.1 h
  exact ⟨e, he, rfl⟩

theorem plan?_withBuilder (f : Builder → Builder) (c : BuilderId) :
    (m.withBuilder b f).plan? c =
      if b = c then (m.builder? c).map fun d => (f d).plan else m.plan? c := by
  unfold plan?
  rw [builder?_withBuilder]
  split
  · rw [Option.map_map]
    rfl
  · rfl

/-- Changing what is not part of the plan. -/
theorem plan?_withBuilder_same {f : Builder → Builder}
    (hf : ∀ d, m.builder? b = some d → (f d).plan = d.plan) :
    (m.withBuilder b f).plan? = m.plan? := by
  funext c
  rw [plan?_withBuilder]
  split
  · next h =>
    subst h
    unfold plan?
    cases hd : m.builder? b with
    | none => rfl
    | some d => exact congrArg some (hf d hd)
  · rfl

theorem plan?_setTail (t : Builder → Tail) :
    (m.withBuilder b fun d => { d with tail := t d }).plan? = m.plan? :=
  plan?_withBuilder_same fun _ _ => rfl

theorem plan?_addBuilder (r : Option BytecodeRecord) (c : BuilderId) :
    (m.addBuilder r).plan? c = if c = m.builders.size then
      some (Builder.new m.graph.blocks.size (m.graph.blocks.size + 1)).plan else m.plan? c := by
  unfold plan?
  rw [builder?_addBuilder]
  split <;> rfl

end Method

/-- The builders of a draft are a forest. -/
def Draft.IsForest (s : Draft) : Prop :=
  Forest s.method.plan? s.method.graph.blocks.size s.loose

theorem Step.forest (h : Step l s t) (hs : s.IsForest) : t.IsForest := by
  unfold Draft.IsForest at *
  cases h with
  | @quiet m m' loose risky h =>
    have hplan : m'.plan? = m.plan? := by
      funext b
      unfold plan? builder?
      rw [h.builders]
    rw [hplan, h.blocks]
    exact hs
  | flag x f hf =>
    rw [size_withBlock]
    exact hs
  | tag b f hf =>
    rw [plan?_withBuilder_same fun d hd => (hf d hd).1.plan]
    exact hs
  | newBlock =>
    rw [size_addBlock]
    exact hs.newBlock
  | @newBuilder m loose risky r =>
    rw [size_addBuilder]
    refine hs.newBuilder (s := m.builders.size) ?_ (plan?_addBuilder r)
    unfold plan? builder?
    rw [Arena.get?_eq_none.2 (Nat.le_refl _)]
    rfl
  | edge x y =>
    rw [size_withEdge]
    exact hs
  | @place m loose risky b d x hb hx he =>
    refine hs.place (plan?_of_builder? hb) hx fun a => ?_
    rw [plan?_withBuilder]
    by_cases hab : a = b
    · rw [if_pos hab.symm, if_pos hab, hab, hb]
      rfl
    · rw [if_neg (Ne.symm hab), if_neg hab]
  | @nest m loose risky b c d e hb hc hne hroot hfree he =>
    refine hs.nest (plan?_of_builder? hb) (plan?_of_builder? hc) hne hroot hfree
      fun a => ?_
    rw [plan?_withBuilder, builder?_withBuilder, plan?_withBuilder]
    by_cases hab : a = b
    · rw [if_pos hab.symm, if_pos hab, hab, if_neg hne, hb]
      rfl
    · rw [if_neg (Ne.symm hab), if_neg hab]
      by_cases hac : a = c
      · rw [if_pos hac.symm, if_pos hac, hac, hc]
        rfl
      · rw [if_neg (Ne.symm hac), if_neg hac]
  | push op =>
    rw [size_withBlock]
    exact hs
  | close op =>
    rw [plan?_setTail, graph_withBuilder, size_withBlock]
    exact hs
  | handle x y =>
    rw [size_withHandler]
    exact hs
  | split =>
    rw [plan?_setTail]
    exact hs
  | forget =>
    rw [plan?_setTail]
    exact hs

theorem Builds.forest (h : Builds l s t) (hs : s.IsForest) :
    t.IsForest := h.keeps (fun _ _ => Step.forest) hs

end MethodGraph
