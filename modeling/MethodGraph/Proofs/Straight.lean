import MethodGraph.Proofs.Operations
import MethodGraph.Proofs.Sketch
/-!
  Straight code that carries scalars from values to values.

  Copying a value and storing one over another append an operation to a builder and do nothing
  else (`Method.Appended`).  `Method.Carries` says of all that was appended between two methods
  which value gets the scalar of which, and what it overwrites.  It is said of the text, without a
  graph or a machine, and holds on every graph that has the values and on every machine that has
  room for them.  Two pieces of code one behind the other carry what each of them carries if they
  do not get into each other's way (`Carries.append`).
-/

namespace MethodGraph

open Method List Arena Machine Nat Option

variable {x : BlockId} {g : Graph} {i : Nat} {opcode : Opcode} {op : Operation} {ty : Ty} {u : Unit}
  {v w : ValueId}

variable {m m1 m' : Method} {b : BuilderId}

/-! ## What was appended -/

/-- The graph has the values of the method. -/
def Graph.HasValues (g : Graph) (m : Method) : Prop :=
  ∀ v ty, m.graph.values.get? v = some ty → g.values.get? v = some ty

theorem Graph.HasValues.size (h : g.HasValues m) : m.graph.values.size ≤ g.values.size := by
  refine Nat.le_of_not_lt fun hlt => ?_
  obtain ⟨ty, hty⟩ := Option.isSome_iff_exists.1 (Arena.get?_isSome.2 hlt)
  have hsome : (g.values.get? g.values.size).isSome := by
    rw [h _ ty hty]
    rfl
  exact lt_irrefl _ (get?_isSome.1 hsome)

namespace Method

/-- The block that the next operation of a builder goes into: the one that takes operations, or
    else the next new one. -/
def tip (m : Method) (b : BuilderId) : Option BlockId :=
  (m.builder? b).map fun d =>
    match d.tail with
    | .current x => x
    | _ => m.graph.blocks.size

theorem tip_of_current {d : Builder} (hd : m.builder? b = some d)
    (hx : d.tail = .current x) : m.tip b = some x := by grind [tip]

/-- Nothing happened to the end of a builder but that operations were appended, nothing happened to
    the operations of other blocks, and what has a type keeps it. -/
structure Appended (m : Method) (b : BuilderId) (ops : List Operation) (m' : Method) : Prop where
  tip : m'.tip b = m.tip b
  ops : ∀ x, m.tip b = some x → m'.ops x = m.ops x ++ ops
  elsewhere : ∀ x, m.tip b ≠ some x → m'.ops x = m.ops x
  values : ∀ v ty, m.graph.values.get? v = some ty → m'.graph.values.get? v = some ty

namespace Appended

variable {ops ops' : List Operation}

theorem refl (m : Method) (b : BuilderId) : m.Appended b [] m :=
  ⟨rfl, fun _ _ => (append_nil _).symm, fun _ _ => rfl, fun _ _ h => h⟩

theorem trans (h : m.Appended b ops m1) (h' : m1.Appended b ops' m') :
    m.Appended b (ops ++ ops') m' where
  tip := h'.tip.trans h.tip
  ops x hx := by
    rw [h'.ops x (h.tip.trans hx), h.ops x hx, append_assoc]
  elsewhere x hx := (h'.elsewhere x (h.tip ▸ hx)).trans (h.elsewhere x hx)
  values v ty hv := h'.values v ty (h.values v ty hv)

theorem size (h : m.Appended b ops m') : m.graph.values.size ≤ m'.graph.values.size :=
  Graph.HasValues.size h.values

/-- Nothing is appended where the graph and the ends of sequences stay as they are. -/
theorem of_graph_eq (hgraph : m'.graph = m.graph)
    (htail : ∀ c, (m'.builder? c).map (·.tail) = (m.builder? c).map (·.tail)) :
    m.Appended b [] m' := by
  have hops : ∀ x, m'.ops x = m.ops x := by
    intro x
    have hblock : m'.block? x = m.block? x := congrArg (Graph.block? · x) hgraph
    unfold Method.ops
    rw [hblock]
  refine ⟨?_, fun x _ => ?_, fun x _ => hops x, fun v ty hv => ?_⟩
  · have htip : ∀ n : Method, n.tip b = ((n.builder? b).map (·.tail)).map fun
        | .current x => x
        | _ => n.graph.blocks.size := by
      intro n
      rw [Option.map_map]
      rfl
    rw [htip, htip, htail, hgraph]
  · rw [hops, append_nil]
  · rw [hgraph]
    exact hv

end Appended
end Method

namespace Emit

theorem openBlock_appended (h : (openBlock b).run m = .ok (x, m')) :
    m.tip b = some x ∧ m.Appended b [] m' ∧ m'.graph.values = m.graph.values ∧
      ∃ d, m'.builder? b = some d ∧ d.tail = .current x := by
  obtain ⟨-, hcur⟩ := openBlock_builds .plain [] [] h
  have htip' : m'.tip b = some x := by
    obtain ⟨d, hd, hx⟩ := hcur
    exact tip_of_current hd hx
  -- whatever was opened, no operation was appended yet
  have hsame : m.tip b = some x → (∀ y, m'.ops y = m.ops y) → m'.graph.values = m.graph.values →
      m.tip b = some x ∧ m.Appended b [] m' ∧ m'.graph.values = m.graph.values ∧
        ∃ d, m'.builder? b = some d ∧ d.tail = .current x := by
    intro htip hops hvalues
    refine ⟨htip, ⟨htip'.trans htip.symm, fun y _ => ?_, fun y _ => hops y, fun v ty hv => ?_⟩,
      hvalues, hcur⟩
    · rw [hops, append_nil]
    · rw [hvalues]
      exact hv
  obtain ⟨d, hd, ⟨ht, rfl⟩ | ⟨hfull, rfl, rfl, -⟩⟩ := openBlock_eq_ok h
  · exact hsame (tip_of_current hd ht) (fun _ => rfl) rfl
  · refine hsame ?_ (fun y => ?_) ?_
    · grind [tip]
    · exact (ops_linkFrom ..).trans (ops_addBlock y)
    · unfold opened
      cases d.tail.block? <;> rfl

theorem ops_push (hx : x < m.graph.blocks.size) (op : Operation) :
    (m.withBlock x (·.push op)).ops x = m.ops x ++ [op] := by
  grind [exists_block?, block?_withBlock, Method.ops, Block.push]

theorem ops_push_of_ne {y : BlockId} (hxy : y ≠ x) (op : Operation) :
    (m.withBlock x (·.push op)).ops y = m.ops y := by
  unfold ops
  rw [block?_withBlock, if_neg (Ne.symm hxy)]

theorem emit_appended (h : (emit b op).run m = .ok (u, m')) :
    m.Appended b [op] m' ∧ m'.graph.values = m.graph.values := by
  obtain ⟨x, m1, h1, h⟩ := bind_eq_ok.1 h
  obtain ⟨htip, happ, hvalues, d, hd, hx⟩ := openBlock_appended h1
  obtain ⟨hlt, rfl⟩ := push_eq_ok.1 h
  have htip1 := tip_of_current hd hx
  refine ⟨happ.trans ⟨?_, fun y hy => ?_, fun y hy => ?_, fun _ _ hv => hv⟩, hvalues⟩
  · rw [htip1]
    exact tip_of_current (m := m1.withBlock x (·.push op)) hd hx
  · obtain rfl := some.inj (htip1.symm.trans hy)
    exact ops_push hlt op
  · refine ops_push_of_ne (fun hyx => hy ?_) op
    rw [htip1, hyx]

theorem emitValue_appended {operands : List ValueId}
    (h : (emitValue b opcode operands ty).run m = .ok (w, m')) :
    w = m.graph.values.size ∧ m'.graph.values = (m.graph.values.alloc ty).2 ∧
      m.Appended b [⟨opcode, operands, some w, []⟩] m' := by
  obtain ⟨w', m2, h2, h⟩ := bind_eq_ok.1 h
  obtain ⟨_, m3, h3, h⟩ := bind_eq_ok.1 h
  obtain ⟨rfl, rfl⟩ := pure_eq_ok.1 h
  cases h2
  obtain ⟨happ, hvalues⟩ := emit_appended h3
  refine ⟨rfl, hvalues, ⟨happ.tip, happ.ops, happ.elsewhere, fun u ty' hu => ?_⟩⟩
  exact happ.values u ty' (get?_alloc_of_some hu)

theorem copy_appended (h : (copy b v).run m = .ok (w, m')) :
    ∃ ty, m.graph.values.get? v = some ty ∧ w = m.graph.values.size ∧
      m'.graph.values = (m.graph.values.alloc ty).2 ∧
      m.Appended b [⟨.convert false, [v], some w, []⟩] m' := by
  obtain ⟨ty, m1, h1, h⟩ := bind_eq_ok.1 h
  obtain ⟨hty, rfl⟩ := typeOf_eq_ok.1 h1
  exact ⟨ty, hty, emitValue_appended h⟩

theorem storeOver_appended (h : (storeOver b w v).run m = .ok (u, m')) :
    ∃ ty, m.graph.values.get? v = some ty ∧ m.graph.values.get? w = some ty ∧
      m'.graph.values = m.graph.values ∧ m.Appended b [⟨.storeOver, [w, v], none, []⟩] m' := by
  obtain ⟨dt, m1, h1, h⟩ := bind_eq_ok.1 h
  obtain ⟨hdt, rfl⟩ := typeOf_eq_ok.1 h1
  obtain ⟨vt, m2, h2, h⟩ := bind_eq_ok.1 h
  obtain ⟨hvt, rfl⟩ := typeOf_eq_ok.1 h2
  obtain ⟨hne, h⟩ := guard_eq_ok.1 h
  obtain ⟨happ, hvalues⟩ := emit_appended h
  exact ⟨dt, (not_not.1 hne) ▸ hvt, hdt, hvalues, happ⟩

end Emit

/-! ## What it does to a machine -/

namespace Exec

variable {g : Graph} {hosts : Bindings String HostFn} {ops ops' : List Operation}
  {σ σ1 σ' : Machine} {v w : ValueId} {a : Scalar}

/-- Wherever they stand in a block, the operations take one machine to another, and control goes on
    behind them. -/
def Takes (g : Graph) (hosts : Bindings String HostFn) (ops : List Operation)
    (σ σ' : Machine) : Prop :=
  ∀ x i, (runOps g hosts x ops i).run.run σ = .ok (.ok .next, σ')

theorem Takes.nil : Takes g hosts [] σ σ := fun _ _ => rfl

theorem Takes.single (h : ∀ p, (step g hosts p op).run.run σ = .ok (.ok .next, σ')) :
    Takes g hosts [op] σ σ' := fun x i => (bind_ok (h (x, i))).trans rfl

/-- Operations that control goes on behind are taken one after another. -/
theorem runOps_cons : (runOps g hosts x (op :: ops) i).run.run σ = .ok (.ok .next, σ') ↔
      ∃ σ1, (step g hosts (x, i) op).run.run σ = .ok (.ok .next, σ1) ∧
        (runOps g hosts x ops (i + 1)).run.run σ1 = .ok (.ok .next, σ') := by
  constructor
  · intro h
    unfold runOps at h
    rcases of_bind_ok h with ⟨flow, σ1, hop, hrest⟩ | ⟨e, σ1, -, hr⟩
    · cases flow with
      | next => exact ⟨σ1, hop, hrest⟩
      | jump y | ret r => cases hrest
    · cases hr
  · rintro ⟨σ1, hop, hrest⟩
    exact (bind_ok hop).trans hrest

theorem runOps_append (h : (runOps g hosts x ops i).run.run σ = .ok (.ok .next, σ1)) :
    (runOps g hosts x (ops ++ ops') i).run.run σ =
      (runOps g hosts x ops' (i + ops.length)).run.run σ1 := by
  induction ops generalizing i σ with
  | nil =>
    cases h
    rfl
  | cons op ops ih =>
    obtain ⟨σ2, hop, hrest⟩ := runOps_cons.1 h
    refine (bind_ok hop).trans ((ih hrest).trans ?_)
    rw [length_cons, Nat.add_comm ops.length, ← Nat.add_assoc]

theorem Takes.append (h : Takes g hosts ops σ σ1) (h' : Takes g hosts ops' σ1 σ') :
    Takes g hosts (ops ++ ops') σ σ' :=
  fun x i => (runOps_append (h x i)).trans (h' x (i + ops.length))

theorem step_storeOver {p : BlockId × Nat} (hw : w < σ.values.size) (hv : σ.Has v a) :
    (step g hosts p ⟨.storeOver, [w, v], none, []⟩).run.run σ = .ok (.ok .next, σ.put w a) := by
  refine (bind_ok (lift_ok rfl)).trans ?_
  refine (bind_ok (readOperand_run rfl hv)).trans ?_
  refine (bind_ok (lift_ok rfl)).trans ?_
  have hget : (get : Exec Machine).run.run σ = .ok (.ok σ, σ) := rfl
  have hwrite : (overwrite w a).run.run σ = .ok (.ok (), σ.put w a) := by
    refine (bind_ok hget).trans ?_
    rw [if_pos hw]
    rfl
  exact (bind_ok hwrite).trans rfl

end Exec

/-- The scalar is one of the value's type: converting it to that type leaves it as it is. -/
def Graph.Fits (g : Graph) (v : ValueId) (a : Scalar) : Prop :=
  ∀ ty, g.values.get? v = some ty → a.convert ty ty false = a

/-- The machine has a scalar of its type for the value. -/
def Machine.Computed (σ : Machine) (g : Graph) (v : ValueId) : Prop :=
  ∃ a, σ.Has v a ∧ g.Fits v a

namespace Method

/-- What was appended to a builder gives to the second value of each move the scalar that the first
    had before.  Of the values that were there already it changes those in `lost` only. -/
structure Carries (m : Method) (b : BuilderId) (moves : List (ValueId × ValueId))
    (lost : List ValueId) (m' : Method) : Prop where
  typed : ∀ p ∈ moves, ∃ ty, m.graph.values.get? p.1 = some ty ∧
    m'.graph.values.get? p.2 = some ty
  code : ∃ ops, m.Appended b ops m' ∧ ∀ (g : Graph) (hosts : Bindings String HostFn) (σ : Machine),
    g.HasValues m' → m'.graph.values.size ≤ σ.values.size → (∀ p ∈ moves, σ.Computed g p.1) →
    ∃ σ', Exec.Takes g hosts ops σ σ' ∧ σ'.values.size = σ.values.size ∧
      (∀ p ∈ moves, σ'.values[p.2]? = σ.values[p.1]?) ∧
      ∀ v < m.graph.values.size, v ∉ lost → σ'.values[v]? = σ.values[v]?

namespace Carries

variable {ps qs : List (ValueId × ValueId)} {lost lost' : List ValueId}

theorem lt_of_get? (h : g.values.get? v = some ty) :
    v < g.values.size := Arena.get?_isSome.1 (by rw [h]; rfl)

/-- Two pieces of code carry what each of them carries, if the first keeps what the second takes and
    the second keeps what the first has carried. -/
theorem append (h : m.Carries b ps lost m1) (h' : m1.Carries b qs lost' m')
    (hsources : ∀ p ∈ qs, p.1 < m.graph.values.size ∧ p.1 ∉ lost)
    (htargets : ∀ p ∈ ps, p.2 ∉ lost') : m.Carries b (ps ++ qs) (lost ++ lost') m' := by
  obtain ⟨ops, happ, hrun⟩ := h.code
  obtain ⟨ops', happ', hrun'⟩ := h'.code
  refine ⟨fun p hp => ?_, ops ++ ops', happ.trans happ', fun g hosts σ hg hroom hcomp => ?_⟩
  · grind [isSome_iff_exists, get?_isSome, h.typed, happ'.values, h'.typed, happ.values]
  · obtain ⟨σ1, htakes, hsize, hmoved, hkept⟩ := hrun g hosts σ
      (fun v ty hv => hg v ty (happ'.values v ty hv)) (le_trans happ'.size hroom)
      fun p hp => hcomp p (mem_append_left _ hp)
    -- what the second piece takes is there as before
    have hsame : ∀ p ∈ qs, σ1.values[p.1]? = σ.values[p.1]? := fun p hp =>
      hkept p.1 (hsources p hp).1 (hsources p hp).2
    obtain ⟨σ2, htakes', hsize', hmoved', hkept'⟩ := hrun' g hosts σ1 hg (hsize ▸ hroom) (by
      intro p hp
      obtain ⟨a, ha, hfits⟩ := hcomp p (mem_append_right _ hp)
      exact ⟨a, (hsame p hp).trans ha, hfits⟩)
    refine ⟨σ2, htakes.append htakes', hsize'.trans hsize, fun p hp => ?_, fun v hv hlost => ?_⟩
    · grind [lt_of_get?, h.typed]
    · grind [happ.size]

/-- Code behind another piece that changes nothing that was there before it. -/
theorem followed (h : m.Carries b ps lost m1) (h' : m1.Carries b [] [] m') :
    m.Carries b ps lost m' := by
  have happend := h.append h' (fun _ hp => (nomatch hp)) fun _ _ => not_mem_nil
  rwa [append_nil, append_nil] at happend

/-- What is not touched is carried to itself. -/
theorem widen (h : m.Carries b ps lost m') (hsub : ∀ p ∈ ps, p ∈ qs)
    (hqs : ∀ p ∈ qs, p ∈ ps ∨ p.1 = p.2 ∧ p.1 < m.graph.values.size ∧ p.1 ∉ lost) :
    m.Carries b qs lost m' := by
  obtain ⟨ops, happ, hrun⟩ := h.code
  refine ⟨fun p hp => ?_, ops, happ, fun g hosts σ hg hroom hcomp => ?_⟩
  · rcases hqs p hp with hp | ⟨heq, hlt, -⟩
    · exact h.typed p hp
    · obtain ⟨ty, hty⟩ := isSome_iff_exists.1 (get?_isSome.2 hlt)
      exact ⟨ty, hty, happ.values _ _ (heq ▸ hty)⟩
  · obtain ⟨σ', htakes, hsize, hmoved, hkept⟩ := hrun g hosts σ hg hroom fun p hp =>
      hcomp p (hsub p hp)
    refine ⟨σ', htakes, hsize, fun p hp => ?_, hkept⟩
    rcases hqs p hp with hp | ⟨heq, hlt, hlost⟩
    · exact hmoved p hp
    · rw [← heq]
      exact hkept p.1 hlt hlost

theorem of_appended_nil (h : m.Appended b [] m') : m.Carries b [] [] m' :=
  ⟨fun _ hp => (nomatch hp), [], h, fun _ _ σ _ _ _ =>
    ⟨σ, .nil, rfl, fun _ hp => (nomatch hp), fun _ _ _ => rfl⟩⟩

/-- Nothing is appended, and every value has the scalar that it has. -/
theorem stay (hps : ∀ p ∈ ps, p.1 = p.2 ∧ p.1 < m.graph.values.size) : m.Carries b ps [] m := by
  refine (of_appended_nil (.refl m b)).widen (fun _ hp => (nomatch hp)) fun p hp => .inr ?_
  exact ⟨(hps p hp).1, (hps p hp).2, not_mem_nil⟩

end Carries
end Method

/-! ## Copies and constants -/

namespace Emit

open Method

/-- An operation that needs no scalars and gives its result some scalar. -/
theorem emitValue_carries (hstep : ∀ (g : Graph) (hosts : Bindings String HostFn) (v : ValueId),
      g.values.get? v = some ty → ∃ a, ∀ p (σ : Machine), (Exec.step g hosts p ⟨opcode, [], some v, []⟩).run.run σ =
        .ok (.ok .next, σ.put v a))
    (h : (emitValue b opcode [] ty).run m = .ok (w, m')) : m.Carries b [] [] m' := by
  obtain ⟨rfl, hvalues, happ⟩ := emitValue_appended h
  refine ⟨fun _ hp => (nomatch hp), _, happ, fun g hosts σ hg _ _ => ?_⟩
  have hnew : m'.graph.values.get? m.graph.values.size = some ty := by
    rw [hvalues, get?_alloc, if_pos rfl]
  obtain ⟨a, ha⟩ := hstep g hosts _ (hg _ ty hnew)
  refine ⟨_, .single fun p => ha p σ, σ.size_put _ a, fun _ hp => (nomatch hp), fun u hu _ => ?_⟩
  exact Machine.getElem?_put_of_ne hu.ne a

theorem zero_carries (h : (zero b ty).run m = .ok (w, m')) : m.Carries b [] [] m' := by
  unfold zero at h
  split at h
  · exact emitValue_carries (fun g hosts v hv => ⟨_, fun p σ => Exec.step_constFloat hv⟩) h
  · exact emitValue_carries (fun g hosts v hv => ⟨_, fun p σ => Exec.step_constInt hv⟩) h

theorem copy_carries (h : (copy b v).run m = .ok (w, m')) :
    w = m.graph.values.size ∧ m'.graph.values.size = m.graph.values.size + 1 ∧
      m.Carries b [(v, w)] [] m' := by
  obtain ⟨ty, hty, rfl, hvalues, happ⟩ := copy_appended h
  have hlt := Carries.lt_of_get? hty
  have hnew : m'.graph.values.get? m.graph.values.size = some ty := by
    rw [hvalues, get?_alloc, if_pos rfl]
  have hsize : m'.graph.values.size = m.graph.values.size + 1 := by
    rw [hvalues, size_alloc]
  refine ⟨rfl, hsize, fun p hp => ?_, _, happ, fun g hosts σ hg hroom hcomp => ?_⟩
  · obtain rfl := mem_singleton.1 hp
    exact ⟨ty, hty, hnew⟩
  · obtain ⟨a, ha, hfits⟩ := hcomp _ (mem_singleton.2 rfl)
    have htyg : g.values.get? v = some ty := hg v ty (happ.values v ty hty)
    have hconvert : a.convert ty ty false = a := hfits ty htyg
    have hplace : m.graph.values.size < σ.values.size := by omega
    have hstep : ∀ p, (Exec.step g hosts p ⟨.convert false, [v], some m.graph.values.size,
        []⟩).run.run σ = .ok (.ok .next, σ.put m.graph.values.size a) := by
      intro p
      rw [Exec.step_convert htyg (hg _ ty hnew) ha, hconvert]
    refine ⟨_, .single hstep, σ.size_put _ a, fun p hp => ?_, fun u hu _ => ?_⟩
    · obtain rfl := mem_singleton.1 hp
      exact (has_put hplace a).trans ha.symm
    · exact Machine.getElem?_put_of_ne hu.ne a

end Emit
end MethodGraph
