import MethodGraph.Proofs.Climbing
import MethodGraph.Proofs.Safety
import MethodGraph.Proofs.Verified
/-!
  Control moves along edges.

  Falling along a layout, control that has come to a block along edges goes on along an edge
  (`Graph.Follows`), and transfers have edges to their targets.  So the blocks that a run enters are
  a path of the graph, as long as no transaction takes it elsewhere (`Exec.runLogged_path`), and
  where all edges lead upwards no block is entered twice.

  Main statements: in a method that climbs when it is connected all edges lead upwards and control
  moves along them (`Method.Climbs.connect`), and a run of such a graph enters no block twice
  (`Evaluator.runLogged_nodup`).
-/

namespace MethodGraph

open List Graph

variable {m m' : Method} {g : Graph} {rank : BlockId → WithTop Nat} {n : Nat} {b : BlockId}

/-! ## Connected methods -/

namespace Graph

/-- From a block that control can get to, it can only go on along edges. -/
def Channels (g : Graph) : Prop :=
  ∀ x blk, g.block? x = some blk → g.Reaches x →
    (∀ op ∈ blk.operations, ∀ y ∈ op.targets, y ∈ blk.succs) ∧
    (blk.fallsThrough = true → ∀ y, blk.next = some y → y ∈ blk.succs)

/-- A layout along which control falls makes it fall along edges only. -/
theorem channels_setLayout {xs : List BlockId} (hnodup : xs.Nodup)
    (hbound : ∀ x ∈ xs, x < g.blocks.size)
    (hloose : ∀ x blk, g.block? x = some blk → blk.next = none)
    (htargets : ∀ {x blk}, g.block? x = some blk →
      ∀ op ∈ blk.operations, ∀ y ∈ op.targets, y ∈ blk.succs)
    (hchain : xs.IsChain g.Follows) :
    ∃ g', g.setLayout xs = .ok g' ∧ g.SameFlow g' ∧ g'.Channels := by
  obtain ⟨g', hset, -, -, hout, hin⟩ := g.setLayout_run hnodup hbound
  have hsame : g.SameFlow g' := .of_threaded hout hin
  refine ⟨g', hset, hsame, fun x blk hx hreach => ?_⟩
  obtain ⟨next, hold⟩ := hsame x blk hx
  have htargets := htargets hold
  refine ⟨htargets, fun hthrough y hy => ?_⟩
  by_cases hmem : x ∈ xs
  · obtain ⟨before, rest, hsplit⟩ := append_of_mem hmem
    rw [hin before x rest hsplit, hold] at hx
    have hnext : rest.head? = blk.next := congrArg Block.next (Option.some.inj hx)
    obtain ⟨rest, rfl⟩ := head?_eq_some_iff.1 (hnext.trans hy)
    rw [hsplit] at hchain
    have hfollows : g.Follows x y :=
      (isChain_cons_cons.1 (isChain_append.1 hchain).2.1).1
    have hsucc := hfollows _ hold hthrough (hsame.reaches hreach)
    exact hsucc
  · rw [hout x hmem] at hx
    rw [hloose x blk hx] at hy
    cases hy

end Graph

/-- When a method that climbs is connected, all edges lead upwards and control moves along them. -/
theorem Method.Climbs.connect {level : BuilderId → WithTop Nat} (hm : m.Climbs level rank)
    {name : String} {config : Config} {calls : List Call}
    (h : (Method.new name config).after calls = .ok m) (hcalls : ∀ c ∈ calls, c.forgets = false)
    {r : Except BuildError Unit} (hconnect : Build.connect.run.run m = .ok (r, m')) :
    m'.graph.Channels ∧ ∃ rank', m'.graph.Climbs rank' := by
  have hs : Draft.Sound ⟨m, [], []⟩ := Method.Reachable.sound ⟨name, config, calls, h⟩
  obtain ⟨m1, m2, flats, m3, hprep, hrun, hflats, hbridged, hchain⟩ :=
    (Method.wired_after h hcalls).connectBuilders hs
  obtain ⟨hnodup, hbound⟩ := hprep.layout hs hflats
  rw [← hbridged.joined.size] at hbound
  obtain ⟨rank', hclimbs⟩ : ∃ rank', m3.Climbs level rank' :=
    Emit.within_connectBuilders (R := Method.Ascends level) m _ m3 hrun rank hm
  obtain ⟨g, hset, hsame, hchannels⟩ := channels_setLayout hnodup hbound
    (fun x blk hx => (hclimbs.blocks x blk hx).loose) hbridged.proper.targets hchain
  obtain ⟨r', w, hrun', -⟩ := Build.connect_run hs.idle.method hrun hset
  cases hrun'.symm.trans hconnect
  refine ⟨hchannels, rank', fun x y hy => ?_, fun x blk hx => ?_⟩
  · obtain ⟨blk, hx, hy⟩ := mem_succsOf.1 hy
    obtain ⟨next, hold⟩ := hsame x blk hx
    exact ((hclimbs.blocks x _ hold).edges y hy).2
  · obtain ⟨next, hold⟩ := hsame x blk hx
    exact (hclimbs.blocks x _ hold).plain

/-! ## Runs -/

namespace Exec

variable {hosts : Bindings String HostFn}

variable (hg : g.Channels)
  (hplain : ∀ x blk, g.block? x = some blk → ∀ op ∈ blk.operations, op.opcode ≠ .transactionBegin)
  (hb : g.Reaches b)

include hg hplain hb in
/-- A block leads to its successors, if no transaction is open or begins in it. -/
theorem visit_along :
    Stays ⟨fun _ => False, n, false⟩ (visit g hosts b)
      (fun r => ∀ c, r = .inl c → c ∈ g.succsOf b) := by
  refine visit_goes fun _ blk hblk => ?_
  obtain ⟨htargets, hnext⟩ := hg b blk hblk hb
  have hsucc : ∀ c ∈ blk.succs, c ∈ g.succsOf b := fun c hc =>
    mem_succsOf.2 ⟨blk, hblk, mem_append_left _ hc⟩
  refine ⟨fun _ h => h.elim, fun op hop c hc => hsucc c (htargets op hop c hc),
    fun op hop hbegin => absurd hbegin (hplain b blk hblk op hop), fun c hc => ?_,
    fun h => (nomatch h), fun hthrough => ?_⟩
  · exact mem_succsOf.2 ⟨blk, hblk, mem_append_right _ hc⟩
  · exact ⟨fun h => (nomatch h), fun c hc => hsucc c (hnext hthrough c hc)⟩

variable (hosts) in
include hg hplain hb in
/-- The blocks that a run enters are a path of the graph. -/
theorem runLogged_path {σ : Machine} (hσ : σ.Guarded ⟨fun _ => False, n, false⟩) (limit fuel : Nat)
    :
    (∀ y ∈ (runLogged g hosts limit fuel b σ).1.head?, b = y) ∧
      (runLogged g hosts limit fuel b σ).1.IsChain (fun x y => y ∈ g.succsOf x) := by
  induction fuel generalizing b σ with
  | zero => exact ⟨fun _ hy => (nomatch hy), .nil⟩
  | succ fuel ih =>
    have hhead : ∀ {ys : List BlockId}, ∀ y ∈ (b :: ys).head?, b = y := fun _ => Option.some.inj
    unfold runLogged
    cases hvisit : (visit g hosts b).run.run σ with
    | error f => exact ⟨hhead, .singleton b⟩
    | ok p =>
      obtain ⟨r, σ1⟩ := p
      obtain ⟨hσ1, hr⟩ := visit_along hg hplain hb σ r σ1 hσ hvisit
      cases r with
      | error e => exact ⟨hhead, .singleton b⟩
      | ok r =>
        cases r with
        | inr v => exact ⟨hhead, .singleton b⟩
        | inl c =>
          have hc := hr c rfl
          obtain ⟨hfirst, hpath⟩ := ih (.step hb hc) hσ1
          refine ⟨hhead, hpath.cons fun y hy => ?_⟩
          exact hfirst y hy ▸ hc

end Exec

/-- Where all edges lead upwards, a run enters no block twice. -/
theorem Evaluator.runLogged_nodup {ev : Evaluator} (hg : ev.graph.Channels)
    (hclimbs : ev.graph.Climbs rank) (args : List Scalar) : (ev.runLogged args).1.Nodup := by
  unfold runLogged
  dsimp only
  split
  · exact .nil
  split
  · exact .nil
  cases ev.graph.initialLocals args with
  | error f => exact .nil
  | ok locals =>
    have hσ : (ev.start locals).Guarded ⟨fun _ => False, ev.graph.values.size, false⟩ :=
      ⟨fun _ h => absurd h not_mem_nil, Array.size_replicate⟩
    obtain ⟨-, hpath⟩ := Exec.runLogged_path ev.hosts hg
      hclimbs.plain .entry hσ ev.limit ev.limit
    have hup : List.Pairwise (Precedes rank) _ := (hpath.imp hclimbs.edges).pairwise
    exact hup.imp fun hxy heq => (heq ▸ hxy).irrefl

end MethodGraph
