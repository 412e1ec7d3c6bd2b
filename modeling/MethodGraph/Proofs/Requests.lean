import MethodGraph.Method.Compiled
import MethodGraph.Proofs.Layout
/-!
  What a caller can ask of a method at any time.

  Besides the calls that build it a caller may connect a method, early or more than once, and go on
  building whatever the answer is.  The first time it is connected decides: from then on the method
  counts as connected, and connecting it again does nothing (`Method.serve_cases`).

  Main statement: a graph that is handed out has passed verification if the method was not connected
  before, and otherwise it is the graph as the caller has left it, which nothing looks at again
  (`Build.finish_verifies_iff`).
-/

namespace MethodGraph

open List Except

variable {c : Compiled} {s t : Draft} {l : License} {rs : List Request} {r : Request}

variable {α β : Type} {m m' : Method} {b : BuilderId}

/-! ## Connecting -/

open Emit in
/-- What the steps of connecting do. -/
class Connects (R : Method → Method → Prop) [Accrues R] : Prop where
  place : ∀ b, Within R (updateBuilder b fun d => { d with placed := true })
  count : ∀ b n, Within R (updateBuilder b fun d => { d with count := some n })
  join : ∀ b, Within R (connectBuilder b)
  leave : ∀ b, b ≠ Method.root → Within R (do
    let d ← builder b
    if d.derived = some true then
      onGraph (·.push d.exit { opcode := .goto, targets := [Graph.exit] })
      addEdge d.exit Graph.exit)
  goto : Within R (gotoBlock Method.root Graph.exit)

namespace Emit

section

variable {R : Method → Method → Prop} [Accrues R] [Connects R]

theorem within_countBlocks : ∀ (fuel : Nat) (b : BuilderId), Within R (countBlocks fuel b)
  | 0, _ => within_pure _
  | fuel + 1, b => by
    refine within_bind (within_builder b) fun d => ?_
    cases hcount : d.count with
    | some n =>
      obtain ⟨⟩ := d
      cases hcount
      exact within_pure n
    | none =>
      obtain ⟨⟩ := d
      cases hcount
      refine within_bind (within_mapM (fun e => ?_) _) fun counts => ?_
      · cases e with
        | block x => exact within_pure _
        | builder c => exact within_countBlocks fuel c
      · exact within_bind (Connects.count b _) fun _ => within_pure _

theorem within_connectTree : ∀ (fuel : Nat) (b : BuilderId), Within R (connectTree fuel b)
  | 0, _ => within_pure _
  | fuel + 1, b => by
    refine within_bind (within_builder b) fun d => within_bind (within_forM (fun e => ?_) _)
      fun _ => Connects.join b
    cases e with
    | block x => exact within_pure _
    | builder c => exact within_connectTree fuel c

theorem within_connectDetached (fuel : Nat) {b : BuilderId} (hb : b ≠ Method.root) :
    Within R (connectDetached fuel b) :=
  within_bind (within_connectTree fuel b) fun _ => Connects.leave b hb

/-- Connecting all builders does what its steps do. -/
theorem within_connectBuilders : Within R connectBuilders := by
  have hrest : ∀ (m : Method), Within R (do
      m.detached.forM fun b => updateBuilder b fun d => { d with placed := true }
      let roots := Method.root :: m.detached
      let count := total (← roots.mapM (countBlocks m.builders.size))
      connectTree m.builders.size Method.root
      m.detached.forM (connectDetached m.builders.size)
      let layout := (← roots.mapM fun b => return (← builder b).blocks).flatten ++ [Graph.exit]
      if layout.length ≠ count + 1 then throw .blockCountMismatch
      return layout : Emit (List BlockId)) := by
    grind [within_bind, Connects.place, within_mapM, within_countBlocks, within_connectTree,
      within_forM_of_mem, within_connectDetached, within_builder, within_pure, within_throw,
      Within, Method.detached]
  exact within_bind within_get fun m => within_bind (within_builder _) fun _ =>
    within_ite (within_bind Connects.goto fun _ => hrest m) (hrest m)

end

/-- Connecting a builder notes what was found and adds an edge at most. -/
theorem within_connectBuilder {R : Method → Method → Prop} [Accrues R]
    (hnote : ∀ b blocks back, Within R (updateBuilder b fun d =>
      { d with blocks, derived := some back, connected := true }))
    (hedge : ∀ x y, Within R (addEdge x y)) (b : BuilderId) : Within R (connectBuilder b) := by
  refine within_bind (within_builder b) fun d => within_bind (within_mapM (fun e => ?_) _) fun xs =>
    within_bind within_get fun m => ?_
  · cases e with
    | block x => exact within_pure _
    | builder c => exact within_bind (within_builder c) fun _ => within_pure _
  · cases xs.flatten.getLast? with
    | some last => exact within_ite (within_bind (hedge _ _) fun _ => hnote b _ _) (hnote b _ _)
    | none => exact hnote b _ _

end Emit

/-! ## What connecting leaves alone -/

/-- The settings are the same, and what is part of a sequence stays so. -/
structure Method.Stands (m m' : Method) : Prop where
  config : m'.config = m.config
  placed : ∀ b d, m.builder? b = some d → d.placed = true →
    ∃ e, m'.builder? b = some e ∧ e.placed = true

namespace Method.Stands

theorem refl (m : Method) : m.Stands m := ⟨rfl, fun _ d hd hp => ⟨d, hd, hp⟩⟩

theorem trans {m1 : Method} (h : m.Stands m1) (h' : m1.Stands m') : m.Stands m' where
  config := h'.config.trans h.config
  placed b d hd hp := by
    obtain ⟨e, he, hpe⟩ := h.placed b d hd hp
    exact h'.placed b e he hpe

theorem withBuilder (b : BuilderId) {f : Builder → Builder}
    (hf : ∀ d, d.placed = true → (f d).placed = true) : m.Stands (m.withBuilder b f) where
  config := rfl
  placed c d hd hp := by grind [builder?_withBuilder]

theorem of_builds (h : Builds l s t) : s.method.Stands t.method where
  config := h.below.config
  placed b d hd hp := by
    obtain ⟨e, he, hde⟩ := h.below.builders b d hd
    exact ⟨e, he, hde.placed hp⟩

end Method.Stands

instance : Accrues Method.Stands := ⟨Method.Stands.refl, Method.Stands.trans⟩

open Emit in
instance : Connects Method.Stands := by
  have hupdate : ∀ (b : BuilderId) {f : Builder → Builder},
      (∀ d, d.placed = true → (f d).placed = true) → Within Method.Stands (updateBuilder b f) := by
    intro b f hf m u m' h
    obtain ⟨-, rfl⟩ := updateBuilder_eq_ok.1 h
    exact .withBuilder b hf
  have hgraph : ∀ f, Within Method.Stands (onGraph f) := by
    intro f m u m' h
    obtain ⟨g, -, rfl⟩ := onGraph_eq_ok.1 h
    exact ⟨rfl, fun _ d hd hp => ⟨d, hd, hp⟩⟩
  refine ⟨fun b => hupdate b fun _ _ => rfl, fun b _ => hupdate b fun _ h => h,
    within_connectBuilder (fun b _ _ => hupdate b fun _ h => h) fun _ _ => hgraph _, fun b _ => ?_,
    fun m u m' h => ?_⟩
  · exact within_bind (within_builder b) fun d =>
      within_ite (within_bind (hgraph _) fun _ => hgraph _) (within_pure _)
  · have hbuilds : Builds .full ⟨m, [], []⟩ ⟨m', [], []⟩ :=
      transfer_builds rfl (fun t ht => .inr (.inr (mem_singleton.1 ht))) h
    exact .of_builds hbuilds

namespace Build

variable {r : Except BuildError Unit}

/-- A method that is connected stays as it is; in any other the builders are connected and their
    layout is fixed. -/
theorem connect_cases (h : connect.run.run m = .ok (r, m')) :
    m.connected = true ∧ r = .ok () ∧ m' = m ∨
    m.connected = false ∧ ∃ layout m1 g w, Emit.connectBuilders.run m = .ok (layout, m1) ∧
      m1.graph.setLayout layout = .ok g ∧
      m' = { m1 with graph := g, connected := true, written := w } ∧
      (m1.config.verify = true →
        ((∃ flaw, r = .error (.malformed flaw)) ↔ g.verify ≠ .ok ())) := by
  have hrun := h
  rcases bind_eq_ok.1 h with ⟨_, _, h1, h⟩ | ⟨e, m1, h1, -⟩
  · obtain ⟨h1, rfl⟩ := get_eq_ok.1 h1
    cases h1
    cases hc : m.connected with
    | true => grind [pure_eq_ok]
    | false =>
      rw [hc] at h
      rcases bind_eq_ok.1 h with ⟨layout, m1, h1, h⟩ | ⟨e, m1, h1, -⟩
      · obtain ⟨_, hbuilders, h1⟩ := lift_eq_ok.1 h1
        cases h1
        rcases bind_eq_ok.1 h with ⟨_, m2, h2, -⟩ | ⟨e, m2, h2, -⟩
        · grind [lift_eq_ok, Emit.onGraph_eq_ok, connect_run]
        · obtain ⟨_, -, h2⟩ := lift_eq_ok.1 h2
          cases h2
      · obtain ⟨_, -, h1⟩ := lift_eq_ok.1 h1
        cases h1
  · obtain ⟨h1, -⟩ := get_eq_ok.1 h1
    cases h1

/-- What connecting does, and when it tells of a malformed graph. -/
theorem connect_eq_ok (h : connect.run.run m = .ok (r, m')) :
    m.connected = true ∧ r = .ok () ∧ m' = m ∨
    m.connected = false ∧ m'.connected = true ∧ m.Stands m' ∧
      (m.config.verify = true →
        ((∃ flaw, r = .error (.malformed flaw)) ↔ m'.graph.verify ≠ .ok ())) := by
  rcases connect_cases h with hm | ⟨hc, layout, m1, g, w, hbuilders, -, rfl, hanswer⟩
  · exact .inl hm
  · have hstands := Emit.within_connectBuilders (R := Method.Stands) _ _ _ hbuilders
    refine .inr ⟨hc, rfl, ⟨hstands.config, hstands.placed⟩, fun hv => hanswer ?_⟩
    rw [hstands.config]
    exact hv

end Build

/-! ## Requests -/

/-- What a caller can ask of a method. -/
inductive Request where
  | call (c : Call)
  | connect

namespace Request

/-- What is done for a request. -/
def run : Request → Build Unit
  | call c => c.run
  | connect => Build.connect

/-- The method after a request, whatever the answer is. -/
def apply (r : Request) (m : Method) : Except Fault Method := do
  let (_, m) ← r.run.run.run m
  return m

theorem apply_eq_ok : r.apply m = .ok m' ↔ ∃ a, r.run.run.run m = .ok (a, m') := by
  unfold apply
  cases r.run.run.run m with
  | error e => simp [bind, Except.bind]
  | ok p =>
    obtain ⟨a, n⟩ := p
    show ok n = .ok m' ↔ _
    simp

end Request

namespace Method

/-- The method after several requests. -/
def serve (m : Method) : List Request → Except Fault Method
  | [] => .ok m
  | r :: rs => do (← r.apply m).serve rs

theorem serve_cons :
    m.serve (r :: rs) = .ok m' ↔ ∃ m1, r.apply m = .ok m1 ∧ m1.serve rs = .ok m' := by
  rw [serve]
  cases r.apply m with
  | error e => simp [bind, Except.bind]
  | ok m1 => simp [bind, Except.bind]

/-- Steps of building do not connect a method. -/
theorem connected_of_step (h : Step l s t) : t.method.connected = s.method.connected := by
  cases h with
  | quiet h => exact h.connected
  | _ => rfl

theorem connected_of_call {c : Call} (h : (Request.call c).apply m = .ok m') :
    m'.connected = m.connected := by
  obtain ⟨a, h⟩ := Request.apply_eq_ok.1 h
  have hbuilds := c.lawful (l := .full) rfl rfl (fun _ => rfl) (fun _ => rfl) _ _ _ [] [] h
  exact hbuilds.keeps (fun s t hst hs => (connected_of_step hst).trans hs) rfl

theorem stands_of_apply (h : r.apply m = .ok m') : m.Stands m' := by
  obtain ⟨a, h⟩ := Request.apply_eq_ok.1 h
  cases r with
  | call c =>
    exact .of_builds (c.lawful (l := .full) rfl rfl (fun _ => rfl) (fun _ => rfl) _ _ _ [] [] h)
  | connect =>
    rcases Build.connect_eq_ok h with ⟨-, -, rfl⟩ | ⟨-, -, hstands, -⟩
    · exact .refl _
    · exact hstands

theorem stands_of_serve (h : m.serve rs = .ok m') : m.Stands m' := by
  induction rs generalizing m with
  | nil =>
    cases h
    exact .refl _
  | cons r rs ih =>
    obtain ⟨m1, h1, hserve⟩ := serve_cons.1 h
    exact (stands_of_apply h1).trans (ih hserve)

/-- A method counts as connected once that was asked for, whatever the answer was. -/
theorem connected_of_serve (h : m.serve rs = .ok m') :
    m'.connected = true ↔ m.connected = true ∨ .connect ∈ rs := by
  induction rs generalizing m with
  | nil =>
    cases h
    simp
  | cons r rs ih =>
    obtain ⟨m1, h1, hserve⟩ := serve_cons.1 h
    rw [ih hserve]
    cases r with
    | call c => simp [connected_of_call h1]
    | connect =>
      obtain ⟨a, h1⟩ := Request.apply_eq_ok.1 h1
      have hconnected : m1.connected = true := by
        rcases Build.connect_eq_ok h1 with ⟨hc, -, rfl⟩ | ⟨-, hc, -⟩ <;> exact hc
      simp [hconnected]

/-- Requests made of a connected method are calls, for all they do. -/
theorem serve_connected (hm : m.connected = true)
    (h : m.serve rs = .ok m') : ∃ calls, (∀ c ∈ calls, .call c ∈ rs) ∧ m.after calls = .ok m' := by
  induction rs generalizing m with
  | nil =>
    cases h
    exact ⟨[], fun _ hc => (nomatch hc), rfl⟩
  | cons r rs ih =>
    obtain ⟨m1, h1, hserve⟩ := serve_cons.1 h
    cases r with
    | call c =>
      obtain ⟨calls, hcalls, hafter⟩ := ih ((connected_of_call h1).trans hm) hserve
      refine ⟨c :: calls, fun c' hc' => ?_, ?_⟩
      · grind
      · have hcall : c.apply m = .ok m1 := Call.apply_eq_ok.2 (Request.apply_eq_ok.1 h1)
        rw [after, hcall]
        exact hafter
    | connect =>
      obtain ⟨a, h1⟩ := Request.apply_eq_ok.1 h1
      rcases Build.connect_eq_ok h1 with ⟨-, -, rfl⟩ | ⟨hnot, -⟩
      · grind
      · rw [hm] at hnot
        cases hnot

/-- A history of requests is one of calls, up to the first time the method is connected. -/
theorem serve_cases (hm : m.connected = false) (h : m.serve rs = .ok m') :
    (∃ calls, rs = calls.map .call ∧ m.after calls = .ok m' ∧ m'.connected = false) ∨
    ∃ calls rest m0 a m1, rs = calls.map .call ++ .connect :: rest ∧ m.after calls = .ok m0 ∧
      m0.connected = false ∧ Build.connect.run.run m0 = .ok (a, m1) ∧ m1.serve rest = .ok m' := by
  induction rs generalizing m with
  | nil =>
    cases h
    exact .inl ⟨[], rfl, rfl, hm⟩
  | cons r rs ih =>
    obtain ⟨m1, h1, hserve⟩ := serve_cons.1 h
    cases r with
    | connect =>
      obtain ⟨a, h1⟩ := Request.apply_eq_ok.1 h1
      exact .inr ⟨[], rs, m, a, m1, rfl, rfl, hm, h1, hserve⟩
    | call c =>
      have hcall : c.apply m = .ok m1 := Call.apply_eq_ok.2 (Request.apply_eq_ok.1 h1)
      have hfirst : ∀ {calls n}, m1.after calls = .ok n → m.after (c :: calls) = .ok n := by
        intro calls n hafter
        rw [after, hcall]
        exact hafter
      rcases ih ((connected_of_call h1).trans hm) hserve with
        ⟨calls, rfl, hafter, hend⟩ | ⟨calls, rest, m0, a, m2, rfl, hafter, hm0, hconnect, hrest⟩
      · exact .inl ⟨c :: calls, rfl, hfirst hafter, hend⟩
      · exact .inr ⟨c :: calls, rest, m0, a, m2, rfl, hfirst hafter, hm0, hconnect, hrest⟩

/-- Histories of the same beginning go on from the same method. -/
theorem serve_calls {calls : List Call} {rest : List Request} {m0 : Method}
    (h : m.after calls = .ok m0) : m.serve (calls.map .call ++ rest) = m0.serve rest := by
  induction calls generalizing m with
  | nil =>
    cases h
    rfl
  | cons c calls ih =>
    rw [after] at h
    obtain ⟨m1, hc, h⟩ := ok_of_bind h
    have hcall : (Request.call c).apply m = .ok m1 := hc
    rw [map_cons, cons_append, serve, hcall]
    exact ih h

end Method

/-! ## What is handed out -/

namespace Build

theorem finish_eq_ok (h : finish.run.run m = .ok (.ok c, m')) :
    connect.run.run m = .ok (.ok (), m') ∧ c.graph = m'.graph := by
  grind [bind_eq_ok, get_eq_ok, pure_eq_ok, finish]

theorem compile_eq_ok {body : Build Bool} (h : (compile body).run.run m = .ok (.ok c, m')) :
    ∃ m1, body.run.run m = .ok (.ok true, m1) ∧ finish.run.run m1 = .ok (.ok c, m') := by
  grind [bind_eq_ok, throw_eq_ok, compile]

/-- A graph that is handed out has passed verification exactly if the method was not connected
    before or the graph passes as the caller has left it.  If nothing was asked for since the method
    was connected, it passes exactly if no malformed graph was reported then. -/
theorem finish_verifies_iff {name : String} {config : Config} {rs : List Request}
    (hverify : config.verify = true) (hrs : (Method.new name config).serve rs = .ok m) :
    (∀ c m', finish.run.run m = .ok (.ok c, m') →
      (c.graph.verify = .ok () ↔ .connect ∉ rs ∨ m.graph.verify = .ok ())) ∧
    (∀ body m₀ c m', body.run.run m₀ = .ok (.ok true, m) →
      (compile body).run.run m₀ = .ok (.ok c, m') →
      (c.graph.verify = .ok () ↔ .connect ∉ rs ∨ m.graph.verify = .ok ())) ∧
    ∀ calls rest m₀ a m₁, rs = calls.map .call ++ .connect :: rest → (∀ r ∈ rest, r = .connect) →
      (Method.new name config).after calls = .ok m₀ → connect.run.run m₀ = .ok (a, m₁) →
      (m.graph.verify = .ok () ↔ ∀ flaw, a ≠ .error (.malformed flaw)) := by
  have hfinish : ∀ c m', finish.run.run m = .ok (.ok c, m') →
      (c.graph.verify = .ok () ↔ .connect ∉ rs ∨ m.graph.verify = .ok ()) := by
    intro c m' h
    have hasked := Method.connected_of_serve hrs
    obtain ⟨hconnect, hgraph⟩ := finish_eq_ok h
    rw [hgraph]
    rcases connect_eq_ok hconnect with ⟨hyes, -, rfl⟩ | ⟨hnot, -, -, hanswer⟩
    · -- nothing is done to a method that is connected
      have hmem : Request.connect ∈ rs := (hasked.1 hyes).resolve_left Bool.false_ne_true
      exact ⟨.inr, fun h => h.resolve_left (not_not_intro hmem)⟩
    · have hnone : Request.connect ∉ rs := fun hmem => by
        rw [hasked.2 (.inr hmem)] at hnot
        cases hnot
      refine ⟨fun _ => .inl hnone, fun _ => ?_⟩
      by_contra hbad
      rw [(Method.stands_of_serve hrs).config] at hanswer
      obtain ⟨flaw, hflaw⟩ := (hanswer hverify).2 hbad
      cases hflaw
  refine ⟨hfinish, fun body m₀ c m' hbody h => ?_, ?_⟩
  · obtain ⟨m₁, h₁, h⟩ := compile_eq_ok h
    cases hbody.symm.trans h₁
    exact hfinish c m' h
  · rintro calls rest m₀ a m₁ rfl hrest hafter hfirst
    have hbuilds := Method.after_builds (l := .full) hafter rfl rfl (fun _ _ _ => rfl)
      fun _ _ _ => rfl
    have hv : m₀.config.verify = true := by
      rw [hbuilds.below.config]
      exact hverify
    rw [Method.serve_calls hafter, Method.serve_cons] at hrs
    obtain ⟨m₂, h₂, hrs⟩ := hrs
    obtain ⟨a', h₂⟩ := Request.apply_eq_ok.1 h₂
    cases hfirst.symm.trans h₂
    rcases connect_eq_ok hfirst with ⟨hc, -, -⟩ | ⟨-, hc, -, hanswer⟩
    · rw [(Method.Reachable.sound ⟨name, config, calls, hafter⟩).idle.method] at hc
      cases hc
    -- all that was asked for since is to connect the method again
    obtain ⟨later, hlater, hend⟩ := Method.serve_connected hc hrs
    have hnil : later = [] := by
      cases later with
      | nil => rfl
      | cons c later => cases hrest _ (hlater c List.mem_cons_self)
    rw [hnil] at hend
    cases hend
    constructor
    · intro hok flaw ha
      exact (hanswer hv).1 ⟨flaw, ha⟩ hok
    · intro hnone
      by_contra hbad
      obtain ⟨flaw, ha⟩ := (hanswer hv).2 hbad
      exact hnone flaw ha

/-- A case of it: a branch into a builder that is part of no sequence. -/
theorem finish_verifies_branch : ∃ m c m', (Method.new "f" {}).serve
      [.call (.constInt 0 .int32 1), .call (.ifCmpZero 0 .eq none 0), .call (.returnVoid 1)] = .ok m ∧
    finish.run.run m = .ok (.ok c, m') ∧ c.graph.verify = .ok () := by
  have hcheck : passes ((Method.new "f" {}).serve [.call (.constInt 0 .int32 1),
      .call (.ifCmpZero 0 .eq none 0), .call (.returnVoid 1)]) (fun m =>
        passes (finish.run.run m) (·.1.isOk)) = true := by decide +kernel
  obtain ⟨m, hserve, hcheck⟩ := of_passes hcheck
  obtain ⟨⟨_ | c, m'⟩, hfinish, hc⟩ := of_passes hcheck
  · cases hc
  exact ⟨m, c, m', hserve, hfinish,
    ((finish_verifies_iff rfl hserve).1 c m' hfinish).2 (.inl (by simp))⟩

/-- Two builders contain each other and control is sent to one of them.  Connecting the method
    reports that the graph is malformed, and then the same graph is handed out. -/
theorem finish_hands_out_malformed : ∃ m c m', (Method.new "f" {}).serve
      [.call .orphan, .call .orphan, .call (.append 1 2), .call (.append 2 1),
        .call (.gotoBuilder 0 1), .connect] = .ok m ∧
    finish.run.run m = .ok (.ok c, m') ∧ c.graph.verify = .error (.edgeToUnplaced 0 2) := by
  have hcheck : passes ((Method.new "f" {}).serve [.call .orphan, .call .orphan,
      .call (.append 1 2), .call (.append 2 1), .call (.gotoBuilder 0 1), .connect]) (fun m =>
        passes (finish.run.run m) fun r => decide (
          r.1.toOption.map (·.graph.verify) = some (.error (.edgeToUnplaced 0 2)))) = true := by
    decide +kernel
  obtain ⟨m, hserve, hcheck⟩ := of_passes hcheck
  obtain ⟨⟨_ | c, m'⟩, hfinish, hc⟩ := of_passes_decide hcheck
  · cases hc
  · exact ⟨m, c, m', hserve, hfinish, Option.some.inj hc⟩

end Build
end MethodGraph
