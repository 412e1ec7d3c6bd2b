import MethodGraph.Proofs.Aside
import MethodGraph.Proofs.Requests
/-!
  Methods whose operations suit their graphs.

  What calls emit suits the graph, and what they do aside takes nothing away from it.  Connecting
  adds transfers, which compute nothing, and fixes the layout.  What connecting does to a method is
  known once it is known what its steps do (`Connects`).

  Main statement: in every method that requests lead to, every operation suits the graph
  (`Method.suited_of_serve`).
-/

namespace MethodGraph

open Method Graph

variable {α : Type} {m m' : Method} {g : Graph}

/-- Every operation suits the graph. -/
def Method.Suited (m : Method) : Prop :=
  ∀ x blk, m.block? x = some blk → ∀ op ∈ blk.operations, op.Suits m.graph

/-! ## Calls -/

namespace Method

/-- The blocks of a new method are empty. -/
theorem eq_of_block?_new {name : String} {config : Config} {x : BlockId} {blk : Block}
    (hx : (Method.new name config).block? x = some blk) : blk = {} := by
  unfold block? Graph.block? at hx
  rcases x with _ | _ | x
  · exact (Option.some.inj hx).symm
  · exact (Option.some.inj hx).symm
  · cases hx

theorem suited_new (name : String) (config : Config) : (Method.new name config).Suited := by
  intro x blk hx op hop
  rw [eq_of_block?_new hx] at hop
  cases hop

theorem Emitted.suited (h : m.Emitted m') (hm : m.Suited) : m'.Suited := by
  intro x blk hx op hop
  rcases h.operations x blk hx op hop with hs | ⟨old, hold, hop⟩
  · exact hs
  · exact (hm x old hold op hop).mono h.keeps

end Method

/-- The blocks are the same, and no value or symbol is taken away. -/
def Graph.SameCode (g g' : Graph) : Prop := g'.blocks = g.blocks ∧ g.Keeps g'

theorem Graph.SameCode.of_eq {g' : Graph} (h : g' = g) : g.SameCode g' := by
  rw [h]
  exact ⟨rfl, .refl g⟩

theorem Method.Suited.of_sameCode (hm : m.Suited) (h : m.graph.SameCode m'.graph) : m'.Suited := by
  intro x blk hx op hop
  unfold block? Graph.block? at hx
  rw [h.1] at hx
  exact (hm x blk hx op hop).mono h.2

/-- What a call does aside leaves the code alone. -/
theorem Call.sameCode_aside (c : Call) (m : Method) : m.graph.SameCode (c.aside m).graph := by
  have hdefine : ∀ name ty kind, m.graph.SameCode (m.graph.define name ty kind).2 := by
    intro name ty kind
    have hquiet := m.quiet_define name ty kind
    exact ⟨hquiet.blocks, hquiet.values, hquiet.symbols⟩
  have hnoted : ∀ b target, (m.noted b target).graph = m.graph := by
    intro b target
    unfold noted
    split <;> rfl
  have henqueued : ∀ (n : Method) b, (n.enqueued b).graph = n.graph := by
    intro n b
    unfold enqueued
    split <;> rfl
  cases c
  case defineParameter name ty => exact hdefine name ty _
  case defineLocal name ty => exact hdefine name ty _
  case function b name args =>
    refine .of_eq ?_
    show (m.request name).graph = m.graph
    rw [request_rest]
  case nextBytecode =>
    refine .of_eq ?_
    show m.dequeued.graph = m.graph
    unfold dequeued
    split <;> rfl
  case appendBytecode b => exact .of_eq (henqueued m b)
  case addSuccessor b target | addFallThrough b target | bytecodeGoto b target
      | bytecodeIfCmp b _ target _ _ | bytecodeIfCmpZero b _ target _ =>
    exact .of_eq ((henqueued (m.noted b target) target).trans (hnoted b target))
  all_goals exact ⟨rfl, fun _ _ h => h, fun _ _ h => h⟩

theorem Call.suited {c : Call} (hm : m.Suited) (h : c.apply m = .ok m') : m'.Suited := by
  obtain ⟨r, h⟩ := apply_eq_ok.1 h
  exact (emitted h).suited (hm.of_sameCode (c.sameCode_aside m))

/-! ## Connecting -/

namespace Emit

instance connects_emitted : Connects Method.Emitted where
  place b := emits_updateBuilder b _
  count b _ := emits_updateBuilder b _
  join := within_connectBuilder (fun b _ _ => emits_updateBuilder b _) emits_addEdge
  leave b _ := by
    refine within_bind (within_builder b) fun d => ?_
    have hgoto : Emits (onGraph (·.push d.exit { opcode := .goto, targets := [Graph.exit] })) := by
      intro m _ m' h
      obtain ⟨-, rfl⟩ := push_eq_ok.1 h
      refine .withBlock fun blk op hop => ?_
      rcases List.mem_append.1 hop with hop | hop
      · exact .inr hop
      · rw [List.mem_singleton.1 hop]
        exact .inl trivial
    exact within_ite (within_bind hgoto fun _ => emits_addEdge _ _) (within_pure _)
  goto := by
    intro _ _ _ h
    have hbuilds : Grows .emitting [] [] _ _ :=
      transfer_builds rfl (fun _ ht => .inr (.inr (List.mem_singleton.1 ht))) h
    exact hbuilds.emitted rfl

end Emit

/-- Fixing the layout changes no operation. -/
theorem Method.Emitted.thread {xs : List BlockId} (h : m.graph.thread xs = .ok g) :
    m.Emitted { m with graph := g } := by
  induction xs generalizing m with
  | nil =>
    cases h
    exact .refl m
  | cons x xs ih =>
    rw [thread] at h
    obtain ⟨g1, h1, h⟩ := ok_of_bind h
    obtain ⟨-, rfl⟩ := Emit.updateBlock_eq_ok.1 h1
    have hnext : m.Emitted (m.withBlock x ({ · with next := xs.head? })) :=
      .withBlock fun _ _ hop => .inr hop
    exact hnext.trans (ih (m := m.withBlock x ({ · with next := xs.head? })) h)

theorem Method.Emitted.setLayout {layout : List BlockId} (h : m.graph.setLayout layout = .ok g) :
    m.Emitted { m with graph := g } := by
  unfold Graph.setLayout at h
  obtain ⟨g1, h1, h⟩ := ok_of_bind h
  cases h
  have hthread := Emitted.thread h1
  exact ⟨rfl, ⟨hthread.keeps.values, hthread.keeps.symbols⟩, hthread.operations⟩

theorem Request.suited {r : Request} (hm : m.Suited) (h : r.apply m = .ok m') : m'.Suited := by
  cases r with
  | call c => exact Call.suited hm h
  | connect =>
    obtain ⟨a, h⟩ := Request.apply_eq_ok.1 h
    rcases Build.connect_cases h with ⟨-, -, rfl⟩ | ⟨-, layout, m1, g, w, hrun, hset, rfl, -⟩
    · exact hm
    · have hemits : m.Emitted m1 := Emit.within_connectBuilders _ _ _ hrun
      exact (hemits.trans (.setLayout hset)).suited hm

/-- In every method that requests lead to, every operation suits the graph. -/
theorem Method.suited_of_serve {rs : List Request} (hm : m.Suited) (h : m.serve rs = .ok m') :
    m'.Suited := by
  induction rs generalizing m with
  | nil =>
    cases h
    exact hm
  | cons r rs ih =>
    obtain ⟨m1, h1, hserve⟩ := serve_cons.1 h
    exact ih (Request.suited hm h1) hserve

end MethodGraph
