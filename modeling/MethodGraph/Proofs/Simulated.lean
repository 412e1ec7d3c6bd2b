import MethodGraph.Proofs.Coded
import MethodGraph.Proofs.Flow
import MethodGraph.Proofs.Operations
/-!
  Built programs do what they say.

  The code of an expression or a statement, run from a machine that agrees with the variables,
  gets to the end of its text with a machine that agrees with the variables then, or ends as the
  statement ends.  The proof is an induction on how the statement runs (`Runs.simulated`).  A loop
  is entered from in front of its text and again from inside of it, so a statement that is a loop
  may also start at the entry of the first builder of its text (`Stmt.Starts`).  The rounds of a
  counting loop need the end and the increment in the values where they were left; that these are
  written by nothing in between is what the code keeps.
-/

namespace MethodGraph.Structured

open List Build Function

variable {merge : BlockId} {again body c leave round : BuilderId} {op : Operation} {x : String}
  {s : SymbolId}

variable {g : Graph} {hosts : Bindings String HostFn} {F : Sketch} {live : BuilderId → Prop}
  {Γ : Decls} {ρ ρ' : Env} {σ σ' σ'' : Machine} {keep keep' : ValueId → Prop} {b : BuilderId}
  {pre ts post : List Token} {v : ValueId} {a : Scalar} {ty : Ty} {p q : BlockId × Nat}

/-! ## Machines -/

/-- The machine has the scalars of the variables, and room for all values. -/
structure Agrees (F : Sketch) (Γ : Decls) (ρ : Env) (σ : Machine) : Prop where
  locals : ∀ {x ty s}, Γ.lookup x = some ty → F.lookup x = some s →
    σ.locals.get? s = some (ρ x)
  size : σ.values.size = F.values.size

/-- The values to keep have the scalars that they had. -/
def Keeps (keep : ValueId → Prop) (σ σ' : Machine) : Prop :=
  ∀ v, keep v → σ'.values[v]? = σ.values[v]?

theorem Keeps.refl (keep : ValueId → Prop) (σ : Machine) : Keeps keep σ σ := fun _ _ => rfl

theorem Keeps.trans (h : Keeps keep σ σ') (h' : Keeps keep σ' σ'') : Keeps keep σ σ'' :=
  fun v hv => (h' v hv).trans (h v hv)

theorem Keeps.mono (h : Keeps keep' σ σ') (hle : ∀ v, keep v → keep' v) : Keeps keep σ σ' :=
  fun v hv => h v (hle v hv)

theorem Keeps.has (h : Keeps keep σ σ') (hv : keep v) (ha : σ.Has v a) : σ'.Has v a :=
  (h v hv).trans ha

/-- A value that code may write is written. -/
theorem Agrees.put (h : Agrees F Γ ρ σ) (hv : Yields F keep v ty) (a : Scalar) :
    Agrees F Γ ρ (σ.put v a) ∧ (σ.put v a).Has v a ∧ Keeps keep σ (σ.put v a) := by
  refine ⟨⟨h.locals, (Machine.size_put ..).trans h.size⟩, Machine.has_put ?_ a, fun w hw => ?_⟩
  · rw [h.size]
    exact Arena.get?_isSome.1 (Option.isSome_of_eq_some hv.1)
  · exact Machine.getElem?_put_of_ne (fun heq : w = v => hv.2 (heq ▸ hw)) a

/-- A symbol has one name. -/
theorem lookup_inj {y : String} (hx : F.lookup x = some s) (hy : F.lookup y = some s) : x = y := by
  grind [Sketch.lookup, Array.findIdx?_eq_some_iff_getElem]

/-- A variable is assigned to. -/
theorem Agrees.assign (h : Agrees F Γ ρ σ) (hs : F.lookup x = some s) (a : Scalar) :
    Agrees F Γ (Function.update ρ x a) (σ.assign s a) := by
  refine ⟨fun {y ty t} hy ht => ?_, h.size⟩
  show (σ.locals.insert s a).get? t = _
  rw [Bindings.get?_insert]
  by_cases hst : s = t
  · subst hst
    rw [if_pos rfl, lookup_inj ht hs, update_self]
  · grind [h.locals]

/-! ## Expressions -/

/-- From a place and a machine, control gets to another place with a scalar in a value, or the run
    ends by a division by zero. -/
def Gives (g : Graph) (hosts : Bindings String HostFn) (F : Sketch) (Γ : Decls)
    (keep : ValueId → Prop) (ρ : Env) (p : BlockId × Nat) (σ : Machine) (q : BlockId × Nat)
    (v : ValueId) : Option Scalar → Prop
  | some a => ∃ σ', g.Arrives hosts (p, σ) (q, σ') ∧ Agrees F Γ ρ σ' ∧ σ'.Has v a ∧
      Keeps keep σ σ'
  | none => ∃ c σ', g.Arrives hosts (p, σ) c ∧ g.Ends hosts c (.error .divisionByZero, σ')

namespace Gives

variable {q' : BlockId × Nat} {w : ValueId} {r : Option Scalar} {f : Scalar → Option Scalar}

theorem bind (h : Gives g hosts F Γ keep' ρ p σ q w r) (hle : ∀ u, keep u → keep' u)
    (hf : ∀ x σ1, Agrees F Γ ρ σ1 → σ1.Has w x → Keeps keep' σ σ1 →
      Gives g hosts F Γ keep ρ q σ1 q' v (f x)) :
    Gives g hosts F Γ keep ρ p σ q' v (r.bind f) := by
  cases r with
  | none => exact h
  | some x =>
    obtain ⟨σ1, harr, hagree, hhas, hkeeps⟩ := h
    have hnext := hf x σ1 hagree hhas hkeeps
    show Gives g hosts F Γ keep ρ p σ q' v (f x)
    cases hx : f x with
    | none =>
      rw [hx] at hnext
      obtain ⟨c, σ2, harr', hends⟩ := hnext
      exact ⟨c, σ2, harr.trans harr', hends⟩
    | some y =>
      rw [hx] at hnext
      obtain ⟨σ2, harr', hagree', hhas', hkeeps'⟩ := hnext
      exact ⟨σ2, harr.trans harr', hagree', hhas', (hkeeps.mono hle).trans hkeeps'⟩

/-- An operation that gives a value a scalar. -/
theorem operation (hg : g.Executes F live) (hb : live b)
    (hts : F.Stands b pre ts) (hop : op.Emits ts)
    (hagree : Agrees F Γ ρ σ) (hv : Yields F keep v ty)
    (hstep : ∀ p, (Exec.step g hosts p op).run.run σ = .ok (.ok .next, σ.put v a)) :
    Gives g hosts F Γ keep ρ (F.spot pre) σ (F.spot (pre ++ ts)) v (some a) := by
  obtain ⟨hagree', hhas, hkeeps⟩ := hagree.put hv a
  exact ⟨_, hg.arrives_next hb hts hop hstep, hagree', hhas, hkeeps⟩

end Gives

namespace Expr

theorem Code.yields {e : Expr} (h : e.Code F Γ keep ts v) : Yields F keep v (e.ty Γ) := by
  cases e with
  | const ty n => exact h.2
  | _ => exact h.1

variable (hg : g.Executes F live) (hb : live b) (e : Expr) (he : e.wellTyped Γ = true)
  (hts : F.Stands b pre ts) (hcode : e.Code F Γ keep ts v) (hagree : Agrees F Γ ρ σ)

include hg hb he hts hcode hagree

theorem simulated :
    Gives g hosts F Γ keep ρ (F.spot pre) σ (F.spot (pre ++ ts)) v (e.eval Γ ρ) := by
  induction e generalizing keep pre ts v σ with
  | const ty n =>
    obtain ⟨hop, hv⟩ := hcode
    refine .operation hg hb hts hop hagree hv fun p => ?_
    exact Exec.step_constInt (hg.values ▸ hv.1)
  | var x =>
    obtain ⟨hv, s, hs, hop⟩ := hcode
    obtain ⟨ty, hx, -⟩ := exists_ty he
    refine .operation hg hb hts hop hagree hv fun p => ?_
    exact Exec.step_load (hg.values ▸ hv.1) (hagree.locals hx hs)
  | neg e ih =>
    obtain ⟨hv, w, t1, t2, rfl, hcode, hop⟩ := hcode
    rw [← append_assoc]
    refine (ih he hts.left hcode hagree).bind (fun _ hu => hu) fun x σ1 hagree1 hw _ => ?_
    refine .operation hg hb hts.right hop hagree1 hv fun p => ?_
    exact Exec.step_neg (hg.values ▸ hv.1) hw
  | binary op l r ihl ihr =>
    obtain ⟨hv, w1, w2, t1, t2, t3, rfl, hcode1, hcode2, hop⟩ := hcode
    simp only [wellTyped, Bool.and_eq_true, Bool.not_eq_true'] at he
    obtain ⟨⟨⟨hl, hr⟩, hunary⟩, -⟩ := he
    rw [← append_assoc, ← append_assoc]
    refine (ihl hl hts.left.left hcode1 hagree).bind (fun _ hu => hu)
      fun x σ1 hagree1 hw1 _ => ?_
    refine (ihr hr hts.left.right hcode2 hagree1).bind (fun _ hu => .inl hu)
      fun y σ2 hagree2 hw2 hkeeps => ?_
    have hlast := hts.right
    rw [← append_assoc] at hlast
    obtain ⟨z, hz⟩ := Exec.onInts_ok op (isInteger_ty hl) x.toInt y.toInt
    have hstep : ∀ p, (Exec.step g hosts p ⟨.arith op, [w1, w2], some v, []⟩).run.run σ2 = _ :=
      fun p => Exec.step_arith hunary (isInteger_ty hl) (hg.values ▸ hv.1)
        (hkeeps.has (.inr rfl) hw1) hw2 hz
    unfold apply
    rw [hz]
    cases z with
    | some z => exact .operation hg hb hlast hop hagree2 hv hstep
    | none =>
      obtain ⟨p, harr, hhas, -⟩ := hg.arrives_op hosts _ hb hlast hop
      exact ⟨_, σ2, harr.arrives, .error hhas (hstep p)⟩
  | compare c l r ihl ihr =>
    obtain ⟨hv, w1, w2, t1, t2, t3, rfl, hcode1, hcode2, hop⟩ := hcode
    simp only [wellTyped, Bool.and_eq_true] at he
    obtain ⟨⟨hl, hr⟩, -⟩ := he
    rw [← append_assoc, ← append_assoc]
    refine (ihl hl hts.left.left hcode1 hagree).bind (fun _ hu => hu)
      fun x σ1 hagree1 hw1 _ => ?_
    refine (ihr hr hts.left.right hcode2 hagree1).bind (fun _ hu => .inl hu)
      fun y σ2 hagree2 hw2 hkeeps => ?_
    have hlast := hts.right
    rw [← append_assoc] at hlast
    refine .operation hg hb hlast hop hagree2 hv fun p => ?_
    exact Exec.step_compare (isInteger_ty hl) (hg.values ▸ hcode1.yields.1) (hg.values ▸ hv.1)
      (hkeeps.has (.inr rfl) hw1) hw2
  | convert unsigned ty e ih =>
    obtain ⟨hv, w, t1, t2, rfl, hcode, hop⟩ := hcode
    simp only [wellTyped, Bool.and_eq_true] at he
    rw [← append_assoc]
    refine (ih he.1 hts.left hcode hagree).bind (fun _ hu => hu) fun x σ1 hagree1 hw _ => ?_
    refine .operation hg hb hts.right hop hagree1 hv fun p => ?_
    exact Exec.step_convert (hg.values ▸ hcode.yields.1) (hg.values ▸ hv.1) hw

variable (hosts) in
/-- An expression that has a scalar leaves it in its value. -/
theorem evaluated (ha : e.eval Γ ρ = some a) :
    ∃ σ', g.Arrives hosts (F.spot pre, σ) (F.spot (pre ++ ts), σ') ∧ Agrees F Γ ρ σ' ∧
      σ'.Has v a ∧ Keeps keep σ σ' := by
  have hgives : Gives g hosts F Γ keep ρ (F.spot pre) σ (F.spot (pre ++ ts)) v _ :=
    e.simulated hg hb he hts hcode hagree
  rw [ha] at hgives
  exact hgives

end Expr

/-! ## Builders in a text -/

theorem arrives_exit (hg : g.Executes F live) (hb : live b) (hstream : F.stream b = ts) :
    g.Arrives hosts (F.spot ts, σ) ((F.exit b, 0), σ) :=
  hstream ▸ .single (.fall (hg.leave hb))

/-- Control that has come to the exit of a builder is behind it in the text. -/
theorem arrives_behind {q : (BlockId × Nat) × Machine}
    (h : g.Arrives hosts (F.spot (pre ++ [.child c]), σ) q) :
    g.Arrives hosts ((F.exit c, 0), σ) q := by rwa [Sketch.spot_concat] at h

/-- The whole text of a builder stands behind its first label. -/
theorem stands_of_stream (h : F.stream c = .label (F.entry c) :: ts) :
    F.Stands c [.label (F.entry c)] ts :=
  ⟨cons_ne_nil _ _, h ▸ prefix_rfl⟩

/-! ## Statements -/

/-- From a place and a machine, control gets to another place with the variables that the result
    gives, or the run ends as the result says. -/
def Reaches (g : Graph) (hosts : Bindings String HostFn) (F : Sketch) (Γ : Decls)
    (keep : ValueId → Prop) (p : BlockId × Nat) (σ : Machine) (q : BlockId × Nat) :
    Result → Prop
  | .done ρ => ∃ σ', g.Arrives hosts (p, σ) (q, σ') ∧ Agrees F Γ ρ σ' ∧ Keeps keep σ σ'
  | r => ∃ c σ', g.Arrives hosts (p, σ) c ∧ g.Ends hosts c (r.answer, σ')

namespace Reaches

variable {p' q' : BlockId × Nat} {r : Result}

theorem of_arrives (harr : g.Arrives hosts (p, σ) (p', σ')) (hkeeps : Keeps keep σ σ')
    (h : Reaches g hosts F Γ keep p' σ' q r) : Reaches g hosts F Γ keep p σ q r := by
  cases r with
  | done ρ =>
    obtain ⟨σ1, harr', hagree, hkeeps'⟩ := h
    exact ⟨σ1, harr.trans harr', hagree, hkeeps.trans hkeeps'⟩
  | returned v =>
    obtain ⟨c, σ1, harr', hends⟩ := h
    exact ⟨c, σ1, harr.trans harr', hends⟩
  | divided =>
    obtain ⟨c, σ1, harr', hends⟩ := h
    exact ⟨c, σ1, harr.trans harr', hends⟩

/-- Control goes on from where it has got to. -/
theorem bind (h : Reaches g hosts F Γ keep' p σ q (.done ρ)) (hle : ∀ v, keep v → keep' v)
    (hf : ∀ σ1, Agrees F Γ ρ σ1 → Keeps keep' σ σ1 → Reaches g hosts F Γ keep q σ1 q' r) :
    Reaches g hosts F Γ keep p σ q' r := by grind [of_arrives, Reaches, Keeps]

/-- Where control would have got to makes no difference if it does not go on. -/
theorem of_leaves (h : Reaches g hosts F Γ keep' p σ q r) (hr : r.Leaves) :
    Reaches g hosts F Γ keep p σ q' r := by
  cases r with
  | done ρ => cases hr
  | returned v => exact h
  | divided => exact h

/-- Control falls on from where it has got to. -/
theorem append (h : Reaches g hosts F Γ keep p σ q r)
    (hfall : ∀ σ', g.Arrives hosts (q, σ') (q', σ')) : Reaches g hosts F Γ keep p σ q' r := by
  cases r with
  | done ρ =>
    obtain ⟨σ1, harr, hagree, hkeeps⟩ := h
    exact ⟨σ1, harr.trans (hfall σ1), hagree, hkeeps⟩
  | returned v => exact h
  | divided => exact h

theorem mono (h : Reaches g hosts F Γ keep' p σ q r) (hle : ∀ v, keep v → keep' v) :
    Reaches g hosts F Γ keep p σ q r := by
  cases r with
  | done ρ =>
    obtain ⟨σ1, harr, hagree, hkeeps⟩ := h
    exact ⟨σ1, harr, hagree, hkeeps.mono hle⟩
  | returned v => exact h
  | divided => exact h

end Reaches

/-- Where a statement may start: in front of its text, or, if it is a loop, at the entry of the
    first builder of its text. -/
def Stmt.Starts (F : Sketch) (pre ts : List Token) (p : BlockId × Nat) : Stmt → Prop
  | whileDo .. | doWhile .. => p = F.spot pre ∨ ∃ c us, ts = .child c :: us ∧ p = (F.entry c, 0)
  | _ => p = F.spot pre

theorem Stmt.starts_spot (F : Sketch) (pre ts : List Token) (s : Stmt) :
    s.Starts F pre ts (F.spot pre) := by
  cases s with
  | whileDo | doWhile => exact .inl rfl
  | _ => rfl

/-- Running the code of a task does what the task does. -/
def Simulates (g : Graph) (hosts : Bindings String HostFn) (F : Sketch) (live : BuilderId → Prop)
    (Γ : Decls) (result : Ty) (ρ : Env) (r : Result) : Task → Prop
  | .stmt s => ∀ {keep b pre ts p σ}, live b → F.Stands b pre ts → s.Code F Γ keep ts →
      s.wellTyped Γ result = true → s.Starts F pre ts p → Agrees F Γ ρ σ →
        Reaches g hosts F Γ keep p σ (F.spot (pre ++ ts)) r
  | .rounds up x z d s => ∀ {keep last increment body again round σ}, live round →
      Holds F round (· = [.child body, .child again]) →
      Holds F again (CountCode F Γ keep up x last increment (F.entry round)) →
      Holds F body (s.Code F Γ keep) → s.wellTyped Γ result = true →
      (Expr.var x).wellTyped Γ = true → keep last → keep increment → σ.Has last z →
      σ.Has increment d → Agrees F Γ ρ σ → within up (ρ x) z = true →
        Reaches g hosts F Γ keep (F.entry round, 0) σ (F.exit round, 0) r

theorem wrapInt_zero (hty : ty.isInteger = true) : ty.wrapInt 0 = 0 := by
  cases ty with
  | int8 | int16 | int32 | int64 => decide
  | _ => cases hty

theorem onInts_loopOp (up : Bool) (ty : Ty) (i j : Int64) :
    (Build.loopOp up).onInts ty i j = .ok (some (if up then i + j else i - j)) := by
  cases up <;> rfl

theorem spot_child (pre ts : List Token) (c : BuilderId) :
    F.spot (pre ++ (ts ++ [.child c])) = (F.exit c, 0) := by
  rw [← append_assoc, Sketch.spot_concat]
  rfl

theorem spot_label (pre ts : List Token) (x : BlockId) :
    F.spot (pre ++ (ts ++ [.label x])) = (x, 0) := by
  rw [← append_assoc, Sketch.spot_concat]
  rfl

section

variable {result : Ty} {r : Result} {s : Stmt} {e : Expr} {cmp : Cmp} {target : BlockId}
  (hg : g.Executes F live) (hb : live b)

include hg hb

variable (hosts) in
/-- A comparison with zero goes to its target or on. -/
theorem zeroTest_simulated {z : ValueId}
    (hts : F.Stands b pre ts) (htest : Emit.ZeroTest cmp v z target ts) (hty : ty.isInteger = true)
    (hv : F.values.get? v = some ty) (hz : Yields F (fun u => keep u ∨ u = v) z ty)
    (hagree : Agrees F Γ ρ σ) (ha : σ.Has v a) :
    Reaches g hosts F Γ keep (F.spot pre) σ
      (if cmp.holdsInt a.toInt 0 then (target, 0) else F.spot (pre ++ ts)) (.done ρ) := by
  obtain ⟨t1, t2, rfl, ht1, ht2⟩ := htest
  obtain ⟨hagree', hhas, hkeeps⟩ := hagree.put hz (.int (ty.wrapInt 0))
  have hconst : g.Arrives hosts (F.spot pre, σ) (F.spot (pre ++ t1), _) :=
    hg.arrives_next hb hts.left ht1 fun p => Exec.step_constInt (hg.values ▸ hz.1)
  have hbranch : ∀ p, (Exec.step g hosts p ⟨.branch cmp, [v, z], none, [target]⟩).run.run
      (σ.put z (.int (ty.wrapInt 0))) = _ :=
    fun p => Exec.step_branch hty (hg.values ▸ hv) (hkeeps.has (.inr rfl) ha) hhas
  rw [show (Scalar.int (ty.wrapInt 0)).toInt = 0 from wrapInt_zero hty] at hbranch
  refine ⟨_, hconst.trans ?_, hagree', hkeeps.mono fun _ hu => .inl hu⟩
  cases hholds : cmp.holdsInt a.toInt 0 with
  | true =>
    rw [hholds] at hbranch
    exact hg.arrives_jump hb hts.right ht2 hbranch
  | false => grind [hg.arrives_next hb hts.right ht2]

variable (he : e.wellTyped Γ = true) (hts : F.Stands b pre ts)

include he hts in
/-- A test of an expression goes to its target or on. -/
theorem test_simulated (htest : TestCode F Γ keep cmp e target ts) (hagree : Agrees F Γ ρ σ)
    (ha : e.eval Γ ρ = some a) :
    Reaches g hosts F Γ keep (F.spot pre) σ
      (if cmp.holdsInt a.toInt 0 then (target, 0) else F.spot (pre ++ ts)) (.done ρ) := by
  obtain ⟨v, z, t1, t2, rfl, hcode, ht2, hz⟩ := htest
  obtain ⟨σ1, harr, hagree1, hhas, hkeeps⟩ := e.evaluated hosts hg hb he hts.left hcode hagree ha
  rw [← append_assoc]
  exact .of_arrives harr hkeeps (zeroTest_simulated _ hg hb hts.right ht2 (Expr.isInteger_ty he)
    hcode.yields.1 hz hagree1 hhas)

include he hts in
/-- An expression that divides by zero ends the run. -/
theorem divided_simulated (hcode : e.Code F Γ keep' ts v) (hagree : Agrees F Γ ρ σ)
    (hnone : e.eval Γ ρ = none) : Reaches g hosts F Γ keep (F.spot pre) σ q .divided := by
  have hgives : Gives g hosts F Γ keep' ρ (F.spot pre) σ (F.spot (pre ++ ts)) v _ :=
    e.simulated hg hb he hts hcode hagree
  rw [hnone] at hgives
  exact hgives

/-- A builder is run from its entry to its exit. -/
theorem body_simulated (hsim : Simulates g hosts F live Γ result ρ r (.stmt s))
    (hcode : Holds F b (s.Code F Γ keep)) (hs : s.wellTyped Γ result = true)
    (hagree : Agrees F Γ ρ σ) : Reaches g hosts F Γ keep (F.entry b, 0) σ (F.exit b, 0) r := by
  obtain ⟨ts, hstream, hcode⟩ := hcode
  have hrun := hsim hb (stands_of_stream hstream) hcode hs (s.starts_spot ..) hagree
  exact hrun.append fun σ' => arrives_exit hg hb hstream

/-- An empty builder is run from its entry to its exit. -/
theorem arrives_empty (h : Holds F b (· = [])) :
    g.Arrives hosts ((F.entry b, 0), σ) ((F.exit b, 0), σ) := by
  obtain ⟨ts, hstream, rfl⟩ := h
  exact arrives_exit hg hb hstream

/-- A path behind a test is skipped or run. -/
theorem path_simulated {path : BuilderId}
    (hc : e.wellTyped Γ = true) (hs : s.wellTyped Γ result = true)
    (hts : F.Stands b pre (ts ++ [.child path, .label merge]))
    (htest : TestCode F Γ keep cmp e merge ts) (hbody : Holds F path (s.Code F Γ keep))
    (hagree : Agrees F Γ ρ σ) (ha : e.eval Γ ρ = some a)
    (hskip : cmp.holdsInt a.toInt 0 = true → Simulates g hosts F live Γ result ρ r (.stmt .skip))
    (hrun : cmp.holdsInt a.toInt 0 = false → Simulates g hosts F live Γ result ρ r (.stmt s)) :
    Reaches g hosts F Γ keep (F.spot pre) σ
      (F.spot (pre ++ (ts ++ [.child path, .label merge]))) r := by
  have hpath : F.Stands b (pre ++ ts) ([.child path] ++ [.label merge]) := hts.right
  have hend : F.spot (pre ++ (ts ++ [.child path, .label merge])) = (merge, 0) := by
    rw [show pre ++ (ts ++ [.child path, .label merge]) =
      (pre ++ ts ++ [.child path]) ++ [.label merge] by simp, Sketch.spot_concat]
    rfl
  refine (test_simulated hg hb hc hts.left htest hagree ha).bind (fun _ h => h)
    fun σ1 hagree1 _ => ?_
  cases hholds : cmp.holdsInt a.toInt 0 with
  | true =>
    have hempty : F.Stands b (pre ++ (ts ++ [.child path, .label merge])) [] :=
      ⟨by simp, by rw [append_nil]; exact hts.2⟩
    have hdone : Reaches g hosts F Γ keep _ σ1 _ r := hskip hholds hb hempty rfl rfl rfl hagree1
    rw [append_nil] at hdone
    rw [hend] at hdone ⊢
    exact hdone
  | false =>
    refine .of_arrives (hg.arrives_child hb hpath.left) (.refl keep σ1) ?_
    have hbody := body_simulated hg (hg.live_of_stands hb hpath.left) (hrun hholds) hbody hs
      hagree1
    rw [hend]
    exact hbody.append fun σ' => arrives_behind (hg.arrives_label hb hpath.right)

include he hts in
/-- A test of an expression that divides by zero ends the run. -/
theorem test_divided (htest : TestCode F Γ keep' cmp e target ts) (hagree : Agrees F Γ ρ σ)
    (hnone : e.eval Γ ρ = none) : Reaches g hosts F Γ keep (F.spot pre) σ q .divided := by
  obtain ⟨v, z, t1, t2, rfl, hcode, -, -⟩ := htest
  exact divided_simulated hg hb he hts.left hcode hagree hnone

/-! ## Two paths -/

/-- One of two paths behind a test is run. -/
theorem paths_simulated {first second : BuilderId}
    {s t : Stmt} {us : List Token} (hc : e.wellTyped Γ = true)
    (hs : s.wellTyped Γ result = true) (ht : t.wellTyped Γ result = true)
    (hts : F.Stands b pre (ts ++ ([.child second] ++ (us ++ ([.child first] ++ [.label merge])))))
    (htest : TestCode F Γ keep .ne e (F.entry first) ts)
    (hgoto : Operation.Emits ⟨.goto, [], none, [merge]⟩ us)
    (hfirst : Holds F first (s.Code F Γ keep)) (hsecond : Holds F second (t.Code F Γ keep))
    (hagree : Agrees F Γ ρ σ) (ha : e.eval Γ ρ = some a)
    (hrun : Simulates g hosts F live Γ result ρ r (.stmt (if a.toInt = 0 then t else s))) :
    Reaches g hosts F Γ keep (F.spot pre) σ (merge, 0) r := by
  refine (test_simulated hg hb hc hts.left htest hagree ha).bind (fun _ h => h)
    fun σ1 hagree1 _ => ?_
  have hlast := hts.right.right.right
  cases hholds : Cmp.ne.holdsInt a.toInt 0 with
  | true =>
    rw [if_neg (bne_iff_ne.1 hholds)] at hrun
    have hbody := body_simulated hg (hg.live_of_stands hb hlast.left) hrun hfirst hs hagree1
    exact hbody.append fun σ' => arrives_behind (hg.arrives_label hb hlast.right)
  | false =>
    rw [if_pos (bne_eq_false_iff_eq.1 hholds)] at hrun
    have hpath := hts.right.left
    refine .of_arrives (hg.arrives_child hb hpath) (.refl keep σ1) ?_
    have hbody := body_simulated hg (hg.live_of_stands hb hpath) hrun hsecond ht hagree1
    exact hbody.append fun σ' => arrives_behind
      (hg.arrives_jump hb hts.right.right.left hgoto fun p => Exec.step_goto)

/-! ## Loops -/

/-- A loop starts at the entry of the first builder of its text. -/
theorem arrives_loop (hts : F.Stands b pre (.child c :: ts))
    (hp : p = F.spot pre ∨ ∃ c' us, .child c :: ts = .child c' :: us ∧ p = (F.entry c', 0)) :
    g.Arrives hosts (p, σ) ((F.entry c, 0), σ) := by grind [hg.arrives_child hb hts]

/-- A test with a builder of its own goes to its target or to the exit of the builder. -/
theorem holds_test_simulated (he : e.wellTyped Γ = true)
    (htest : Holds F b (TestCode F Γ keep cmp e target)) (hagree : Agrees F Γ ρ σ)
    (ha : e.eval Γ ρ = some a) : Reaches g hosts F Γ keep (F.entry b, 0) σ
      (if cmp.holdsInt a.toInt 0 then (target, 0) else (F.exit b, 0)) (.done ρ) := by
  obtain ⟨ts, hstream, htest⟩ := htest
  refine (test_simulated hg hb he (stands_of_stream hstream) htest hagree ha).append fun σ' => ?_
  split
  · exact .refl
  · exact arrives_exit hg hb hstream

variable (hosts) in
/-- The test in front of a round of a loop. -/
theorem whileDo_test (hx : (Expr.var x).wellTyped Γ = true)
    (hts : F.Stands b pre ([.child again] ++ ([.child body] ++ (ts ++ [.child leave]))))
    (hagain : Holds F again (TestCode F Γ keep .eq (.var x) (F.entry leave)))
    (hleave : Holds F leave (· = [])) (hagree : Agrees F Γ ρ σ) :
    Reaches g hosts F Γ keep (F.entry again, 0) σ
      (if (ρ x).toInt = 0 then (F.exit leave, 0) else (F.entry body, 0)) (.done ρ) := by
  refine (holds_test_simulated hg (hg.live_of_stands hb hts.left) hx hagain hagree rfl).append
    fun σ' => ?_
  cases hholds : Cmp.eq.holdsInt (ρ x).toInt 0 with
  | true =>
    rw [if_pos (beq_iff_eq.1 hholds)]
    exact arrives_empty hg (hg.live_of_stands hb hts.right.right.right) hleave
  | false =>
    rw [if_neg (beq_eq_false_iff_ne.1 hholds)]
    exact arrives_behind (hg.arrives_child hb hts.right.left)

/-- A round of a loop, from where the loop starts, leads back to its test. -/
theorem whileDo_round (hts : F.Stands b pre ts) (hcode : (Stmt.whileDo x s).Code F Γ keep ts)
    (hwt : (Stmt.whileDo x s).wellTyped Γ result = true)
    (hp : (Stmt.whileDo x s).Starts F pre ts p) (hagree : Agrees F Γ ρ σ) (hne : (ρ x).toInt ≠ 0)
    (hsim : Simulates g hosts F live Γ result ρ r (.stmt s)) :
    ∃ again us, ts = .child again :: us ∧ Reaches g hosts F Γ keep p σ (F.entry again, 0) r := by
  obtain ⟨body, again, leave, t, rfl, hgoto, hagain, hleave, hbody⟩ := hcode
  simp only [Stmt.wellTyped, Bool.and_eq_true] at hwt
  have hparts : F.Stands b pre ([.child again] ++ ([.child body] ++ (t ++ [.child leave]))) := by
    simpa using hts
  have htest := whileDo_test hosts hg hb hwt.1 hparts hagain hleave hagree
  rw [if_neg hne] at htest
  refine ⟨again, _, rfl, .of_arrives (arrives_loop hg hb hts hp) (.refl keep σ) ?_⟩
  refine htest.bind (fun _ h => h) fun σ1 hagree1 _ => ?_
  have hrun := body_simulated hg (hg.live_of_stands hb hparts.right.left) hsim hbody hwt.2 hagree1
  exact hrun.append fun σ' => arrives_behind
    (hg.arrives_jump hb hparts.right.right.left hgoto fun p => Exec.step_goto)

/-- A round of a loop with its test behind it, from where the loop starts. -/
theorem doWhile_round (hts : F.Stands b pre (.child body :: ts))
    (hbody : Holds F body (s.Code F Γ keep)) (hs : s.wellTyped Γ result = true)
    (hp : p = F.spot pre ∨ ∃ c us, .child body :: ts = .child c :: us ∧ p = (F.entry c, 0))
    (hagree : Agrees F Γ ρ σ) (hsim : Simulates g hosts F live Γ result ρ r (.stmt s)) :
    Reaches g hosts F Γ keep p σ (F.exit body, 0) r :=
  .of_arrives (arrives_loop hg hb hts hp) (.refl keep σ)
    (body_simulated hg (hg.live_of_stands hb hts) hsim hbody hs hagree)

variable (hosts) in
/-- The test behind a round of a loop. -/
theorem doWhile_test (hx : (Expr.var x).wellTyped Γ = true)
    (hts : F.Stands b pre ([.child body] ++ ([.child again] ++ [.child leave])))
    (hagain : Holds F again (TestCode F Γ keep .ne (.var x) (F.entry body)))
    (hleave : Holds F leave (· = [])) (hagree : Agrees F Γ ρ σ) :
    Reaches g hosts F Γ keep (F.exit body, 0) σ
      (if (ρ x).toInt = 0 then (F.exit leave, 0) else (F.entry body, 0)) (.done ρ) := by
  refine .of_arrives (arrives_behind (hg.arrives_child hb hts.right.left)) (.refl keep σ) ?_
  refine (holds_test_simulated hg (hg.live_of_stands hb hts.right.left) hx hagain hagree
    rfl).append fun σ' => ?_
  cases hholds : Cmp.ne.holdsInt (ρ x).toInt 0 with
  | true =>
    rw [if_neg (bne_iff_ne.1 hholds)]
    exact .refl
  | false =>
    rw [if_pos (bne_eq_false_iff_eq.1 hholds)]
    exact (arrives_behind (hg.arrives_child hb hts.right.right)).trans
      (arrives_empty hg (hg.live_of_stands hb hts.right.right) hleave)

/-! ## Counting loops -/

section

variable {up : Bool} {x : String} {z d : Scalar} {last increment : ValueId}

/-- The test in front of a counting loop. -/
theorem enter_simulated
    (hx : (Expr.var x).wellTyped Γ = true) (hts : F.Stands b pre ts)
    (hcode : EnterCode F Γ keep up x last target ts) (hlast : keep last) (hz : σ.Has last z)
    (hagree : Agrees F Γ ρ σ) :
    Reaches g hosts F Γ keep (F.spot pre) σ
      (if within up (ρ x) z then F.spot (pre ++ ts) else (target, 0)) (.done ρ) := by
  obtain ⟨v, w, y, t1, t2, t3, rfl, hvar, hcmp, hw, htest, hy⟩ := hcode
  obtain ⟨σ1, harr1, hagree1, hv, hkeeps1⟩ :=
    (Expr.var x).evaluated hosts hg hb hx hts.left.left hvar hagree rfl
  have hstep : ∀ p, (Exec.step g hosts p ⟨.compare (loopCmp up), [v, last], some w,
      []⟩).run.run σ1 = _ := fun p =>
    Exec.step_compare (Expr.isInteger_ty hx) (hg.values ▸ hvar.yields.1) (hg.values ▸ hw.1) hv
      (hkeeps1.has hlast hz)
  have harr2 := hg.arrives_next hb hts.left.right hcmp hstep
  obtain ⟨hagree2, hwhas, hkeeps2⟩ := hagree1.put hw
    (.int (if (loopCmp up).holdsInt (ρ x).toInt z.toInt then 1 else 0))
  have hlastPart := hts.right
  rw [← append_assoc] at hlastPart
  refine .of_arrives (harr1.trans harr2) (hkeeps1.trans hkeeps2) ?_
  have hzero := zeroTest_simulated hosts hg hb hlastPart htest rfl hw.1 hy hagree2 hwhas
  have hwithin : within up (ρ x) z = (loopCmp up).holdsInt (ρ x).toInt z.toInt := rfl
  rw [hwithin, ← append_assoc, ← append_assoc]
  cases hholds : (loopCmp up).holdsInt (ρ x).toInt z.toInt with
  | true =>
    rw [hholds] at hzero
    exact hzero
  | false =>
    rw [hholds] at hzero
    exact hzero

/-- The end of a round: the variable counts, and control goes to the next round or on. -/
theorem count_simulated (hx : (Expr.var x).wellTyped Γ = true)
    (hcount : Holds F b (CountCode F Γ keep up x last increment target)) (hlast : keep last)
    (hincrement : keep increment) (hz : σ.Has last z) (hd : σ.Has increment d)
    (hagree : Agrees F Γ ρ σ) {i : Scalar} (hi : i = count up ((Expr.var x).ty Γ) (ρ x) d) :
    Reaches g hosts F Γ keep (F.entry b, 0) σ
      (if within up i z then (target, 0) else (F.exit b, 0)) (.done (Function.update ρ x i)) := by
  obtain ⟨ts, hstream, v, w, v', t1, t2, t3, t4, t5, rfl, hvar, hadd, hw, ⟨s, hs, hstore⟩, hvar',
    hbranch⟩ := hcount
  have hts := stands_of_stream hstream
  have hint := Expr.isInteger_ty hx
  -- the variable is read, counted and written
  obtain ⟨σ1, harr1, hagree1, hv, hkeeps1⟩ :=
    (Expr.var x).evaluated hosts hg hb hx hts.left.left.left.left hvar hagree rfl
  obtain ⟨hagree2, hwhas, hkeeps2⟩ := hagree1.put hw i
  have hunary : (loopOp up).isUnary = false := by cases up <;> rfl
  have hstep : ∀ p, (Exec.step g hosts p ⟨.arith (loopOp up), [v, increment], some w,
      []⟩).run.run σ1 = .ok (.ok .next, σ1.put w i) := fun p =>
    hi ▸ Exec.step_arith hunary hint (hg.values ▸ hw.1) hv (hkeeps1.has hincrement hd)
      (onInts_loopOp ..)
  have harr2 := hg.arrives_next hb hts.left.left.left.right hadd hstep
  have hts3 := hts.left.left.right
  rw [← append_assoc] at hts3
  have harr3 : g.Arrives hosts _ _ :=
    hg.arrives_next hb hts3 hstore fun p => Exec.step_store hwhas
  have hagree3 := hagree2.assign hs i
  -- it is read again and compared with the end
  have hts4 := hts.left.right
  rw [← append_assoc, ← append_assoc] at hts4
  obtain ⟨σ4, harr4, hagree4, hv', hkeeps4⟩ :=
    (Expr.var x).evaluated hosts hg hb hx hts4 hvar' hagree3 rfl
  rw [update_self] at hv'
  have hkeeps : Keeps keep σ σ4 := (hkeeps1.trans hkeeps2).trans hkeeps4
  have hstep5 : ∀ p, (Exec.step g hosts p ⟨.branch (loopCmp up), [v', last], none,
      [target]⟩).run.run σ4 = _ := fun p =>
    Exec.step_branch hint (hg.values ▸ hvar'.yields.1) hv' (hkeeps.has hlast hz)
  have hts5 := hts.right
  rw [← append_assoc, ← append_assoc, ← append_assoc] at hts5
  refine ⟨σ4, ((harr1.trans harr2).trans (harr3.trans harr4)).trans ?_, hagree4, hkeeps⟩
  have hwithin : within up i z = (loopCmp up).holdsInt i.toInt z.toInt := rfl
  rw [hwithin]
  cases hholds : (loopCmp up).holdsInt i.toInt z.toInt with
  | true =>
    rw [hholds] at hstep5
    exact hg.arrives_jump hb hts5 hbranch hstep5
  | false =>
    rw [hholds] at hstep5
    refine (hg.arrives_next hb hts5 hbranch hstep5).trans (arrives_exit hg hb ?_)
    rw [hstream]
    simp

variable (hosts) in
/-- The start, the end and the increment of a counting loop are evaluated, and the variable starts
    to count. -/
theorem start_simulated {e1 e2 e3 : Expr}
    {i : ValueId} {t1 t2 t3 t4 : List Token} (h1 : e1.wellTyped Γ = true)
    (h2 : e2.wellTyped Γ = true) (h3 : e3.wellTyped Γ = true)
    (hts : F.Stands b pre (t1 ++ t2 ++ t3 ++ t4)) (hcode1 : e1.Code F Γ keep t1 i)
    (hcode2 : e2.Code F Γ (fun u => keep u ∨ u = i) t2 last)
    (hcode3 : e3.Code F Γ (fun u => (keep u ∨ u = i) ∨ u = last) t3 increment)
    (hstore : StoreCode F x i t4) (hagree : Agrees F Γ ρ σ) (ha : e1.eval Γ ρ = some a)
    (hz : e2.eval Γ ρ = some z) (hd : e3.eval Γ ρ = some d) :
    ∃ σ', g.Arrives hosts (F.spot pre, σ) (F.spot (pre ++ (t1 ++ t2 ++ t3 ++ t4)), σ') ∧
      Agrees F Γ (Function.update ρ x a) σ' ∧ σ'.Has last z ∧ σ'.Has increment d ∧
      Keeps keep σ σ' := by
  obtain ⟨s, hs, hstore⟩ := hstore
  obtain ⟨σ1, harr1, hagree1, hhas1, hkeeps1⟩ :=
    e1.evaluated hosts hg hb h1 hts.left.left.left hcode1 hagree ha
  obtain ⟨σ2, harr2, hagree2, hhas2, hkeeps2⟩ :=
    e2.evaluated hosts hg hb h2 hts.left.left.right hcode2 hagree1 hz
  have hts3 := hts.left.right
  rw [← append_assoc] at hts3
  obtain ⟨σ3, harr3, hagree3, hhas3, hkeeps3⟩ :=
    e3.evaluated hosts hg hb h3 hts3 hcode3 hagree2 hd
  have hts4 := hts.right
  rw [← append_assoc, ← append_assoc] at hts4
  have hi : σ3.Has i a := hkeeps3.has (.inl (.inr rfl)) (hkeeps2.has (.inr rfl) hhas1)
  have harr4 : g.Arrives hosts _ _ := hg.arrives_next hb hts4 hstore fun p => Exec.step_store hi
  rw [← append_assoc, ← append_assoc, ← append_assoc]
  refine ⟨_, (harr1.trans harr2).trans (harr3.trans harr4), hagree3.assign hs a,
    hkeeps3.has (.inr rfl) hhas2, hhas3, hkeeps1.trans ?_⟩
  exact (hkeeps2.mono fun _ h => .inl h).trans (hkeeps3.mono fun _ h => .inl (.inl h))

/-- The body of a round, from the entry of the round to the builder that counts. -/
theorem round_simulated (hstream : Holds F b (· = [.child body, .child again]))
    (hbody : Holds F body (s.Code F Γ keep)) (hs : s.wellTyped Γ result = true)
    (hsim : Simulates g hosts F live Γ result ρ r (.stmt s)) (hagree : Agrees F Γ ρ σ) :
    live again ∧ Reaches g hosts F Γ keep (F.entry b, 0) σ (F.entry again, 0) r := by
  obtain ⟨ts, hstream, rfl⟩ := hstream
  have hts : F.Stands b [.label (F.entry b)] ([.child body] ++ [.child again]) :=
    stands_of_stream hstream
  refine ⟨hg.live_of_stands hb hts.right, ?_⟩
  refine .of_arrives (hg.arrives_child hb hts.left) (.refl keep σ) ?_
  refine (body_simulated hg (hg.live_of_stands hb hts.left) hsim hbody hs hagree).append
    fun σ' => ?_
  exact hg.arrives_child hb hts.right

/-- From the builder that counts control falls out of the round. -/
theorem arrives_round_exit (hstream : Holds F b (· = [.child body, .child again])) :
    g.Arrives hosts ((F.exit again, 0), σ) ((F.exit b, 0), σ) := by
  obtain ⟨ts, hstream, rfl⟩ := hstream
  exact arrives_exit hg hb hstream

end

/-- A statement one of whose first expressions divides by zero ends the run. -/
theorem heads_divided (hs : s.wellTyped Γ result = true)
    (hts : F.Stands b pre ts) (hcode : s.Code F Γ keep ts) (hagree : Agrees F Γ ρ σ)
    (he : e ∈ s.heads) (hnone : e.eval Γ ρ = none) :
    Reaches g hosts F Γ keep (F.spot pre) σ q .divided := by
  cases s with
  | skip | seq | whileDo | doWhile => cases he
  | assign x e' =>
    obtain ⟨v, t1, t2, rfl, hcode, -⟩ := hcode
    obtain rfl := mem_singleton.1 he
    simp only [Stmt.wellTyped, Bool.and_eq_true] at hs
    exact divided_simulated hg hb hs.1 hts.left hcode hagree hnone
  | ret e' =>
    cases e' with
    | none => cases he
    | some e' =>
      obtain ⟨v, t1, t2, rfl, hcode, -⟩ := hcode
      obtain rfl := mem_singleton.1 he
      simp only [Stmt.wellTyped, Bool.and_eq_true] at hs
      exact divided_simulated hg hb hs.1 hts.left hcode hagree hnone
  | ifThen c s | ifElse c s =>
    obtain ⟨path, merge, t, rfl, htest, -⟩ := hcode
    obtain rfl := mem_singleton.1 he
    simp only [Stmt.wellTyped, Bool.and_eq_true] at hs
    exact test_divided hg hb hs.1 hts.left htest hagree hnone
  | ifBoth c s t =>
    obtain ⟨first, second, merge, t1, t2, rfl, htest, -⟩ := hcode
    obtain rfl := mem_singleton.1 he
    simp only [Stmt.wellTyped, Bool.and_eq_true] at hs
    exact test_divided hg hb hs.1.1 hts.left.left.left htest hagree hnone
  | forLoop up x initial last increment s =>
    obtain ⟨i, z, d, body, again, round, merge, leave, t1, t2, t3, t4, t5, rfl, hcode1, hcode2,
      hcode3, -⟩ := hcode
    simp only [Stmt.wellTyped, all_cons, all_nil, Bool.and_eq_true] at hs
    obtain ⟨⟨⟨h1, -⟩, ⟨h2, -⟩, ⟨h3, -⟩, -⟩, -⟩ := hs
    have hthree := hts.left.left.left
    -- the first of the three that has no value ends the run
    cases ha : initial.eval Γ ρ with
    | none => exact divided_simulated hg hb h1 hthree.left.left hcode1 hagree ha
    | some a =>
      obtain ⟨σ1, harr1, hagree1, -, hkeeps1⟩ :=
        initial.evaluated hosts hg hb h1 hthree.left.left hcode1 hagree ha
      refine .of_arrives harr1 hkeeps1 ?_
      cases hz : last.eval Γ ρ with
      | none => exact divided_simulated hg hb h2 hthree.left.right hcode2 hagree1 hz
      | some b =>
        obtain ⟨σ2, harr2, hagree2, -, hkeeps2⟩ :=
          last.evaluated hosts hg hb h2 hthree.left.right hcode2 hagree1 hz
        refine .of_arrives harr2 (hkeeps2.mono fun _ h => .inl h) ?_
        have hd : increment.eval Γ ρ = none := by
          simp only [Stmt.heads, mem_cons, not_mem_nil, or_false] at he
          obtain rfl | rfl | rfl := he
          · cases ha.symm.trans hnone
          · cases hz.symm.trans hnone
          · exact hnone
        have hts3 := hthree.right
        rw [← append_assoc] at hts3
        exact divided_simulated hg hb h3 hts3 hcode3 hagree2 hd

end

/-- What the code of a task does is what the task does. -/
theorem Runs.simulated (hg : g.Executes F live) {result : Ty} {t : Task} {r : Result}
    (h : Runs Γ t ρ r) : Simulates g hosts F live Γ result ρ r t := by
  induction h with
  | skip =>
    rintro keep b pre ts p σ hb hts rfl hs rfl hagree
    rw [append_nil]
    exact ⟨σ, .refl, hagree, .refl keep σ⟩
  | @divided s e ρ he hnone =>
    intro keep b pre ts p σ hb hts hcode hwt hp hagree
    have hstart : p = F.spot pre := by
      cases s with
      | whileDo | doWhile => cases he
      | _ => exact hp
    rw [hstart]
    exact heads_divided hg hb hwt hts hcode hagree he hnone
  | @assign x e a ρ ha =>
    rintro keep b pre ts p σ hb hts ⟨v, t1, t2, rfl, hcode, s, hs, hstore⟩ hwt rfl hagree
    simp only [Stmt.wellTyped, Bool.and_eq_true] at hwt
    obtain ⟨σ1, harr, hagree1, hhas, hkeeps⟩ :=
      e.evaluated hosts hg hb hwt.1 hts.left hcode hagree ha
    rw [← append_assoc]
    refine ⟨_, harr.trans (hg.arrives_next hb hts.right hstore fun p => Exec.step_store hhas),
      hagree1.assign hs a, hkeeps⟩
  | @seq s t ρ ρ' r _ _ ihs iht =>
    rintro keep b pre ts p σ hb hts ⟨t1, t2, rfl, hcode1, hcode2⟩ hwt rfl hagree
    simp only [Stmt.wellTyped, Bool.and_eq_true] at hwt
    rw [← append_assoc]
    refine (ihs hb hts.left hcode1 hwt.1 (s.starts_spot ..) hagree).bind (fun _ h => h)
      fun σ1 hagree1 _ => ?_
    exact iht hb hts.right hcode2 hwt.2 (t.starts_spot ..) hagree1
  | @seqLeaves s t ρ r _ hr ihs =>
    rintro keep b pre ts p σ hb hts ⟨t1, t2, rfl, hcode1, -⟩ hwt rfl hagree
    simp only [Stmt.wellTyped, Bool.and_eq_true] at hwt
    exact (ihs hb hts.left hcode1 hwt.1 (s.starts_spot ..) hagree).of_leaves hr
  | retVoid =>
    rintro keep b pre ts p σ hb hts hret - rfl hagree
    obtain ⟨p, harr, hhas, -⟩ := hg.arrives_op hosts _ hb hts hret
    exact ⟨_, σ, harr.arrives, .ret hhas Exec.step_ret⟩
  | @ret e a ρ ha =>
    rintro keep b pre ts p σ hb hts ⟨v, t1, t2, rfl, hcode, hret⟩ hwt rfl hagree
    simp only [Stmt.wellTyped, Bool.and_eq_true] at hwt
    obtain ⟨σ1, harr, hagree1, hhas, hkeeps⟩ :=
      e.evaluated hosts hg hb hwt.1 hts.left hcode hagree ha
    obtain ⟨p, harr', hop, -⟩ := hg.arrives_op hosts _ hb hts.right hret
    exact ⟨_, σ1, harr.trans harr'.arrives, .ret hop (Exec.step_ret_value hhas)⟩
  | @ifThen c a s ρ r ha _ ih =>
    rintro keep b pre ts p σ hb hts ⟨path, merge, t, rfl, htest, hbody⟩ hwt rfl hagree
    simp only [Stmt.wellTyped, Bool.and_eq_true] at hwt
    refine path_simulated hg hb hwt.1 hwt.2 hts htest hbody hagree ha (fun hzero => ?_)
      fun hzero => ?_
    · rw [if_pos (beq_iff_eq.1 hzero)] at ih
      exact ih
    · rw [if_neg (beq_eq_false_iff_ne.1 hzero)] at ih
      exact ih
  | @ifElse c a s ρ r ha _ ih =>
    rintro keep b pre ts p σ hb hts ⟨path, merge, t, rfl, htest, hbody⟩ hwt rfl hagree
    simp only [Stmt.wellTyped, Bool.and_eq_true] at hwt
    refine path_simulated hg hb hwt.1 hwt.2 hts htest hbody hagree ha (fun hzero => ?_)
      fun hzero => ?_
    · rw [if_neg (bne_iff_ne.1 hzero)] at ih
      exact ih
    · rw [if_pos (bne_eq_false_iff_eq.1 hzero)] at ih
      exact ih
  | @ifBoth c a s t ρ r ha _ ih =>
    rintro keep b pre ts p σ hb hts ⟨first, second, merge, t1, t2, rfl, htest, hgoto, hs, ht⟩ hwt
      rfl hagree
    simp only [Stmt.wellTyped, Bool.and_eq_true] at hwt
    have hend : t1 ++ [.child second] ++ t2 ++ [.child first, .label merge] =
        (t1 ++ [.child second] ++ t2 ++ [.child first]) ++ [.label merge] := by simp
    have hrun := paths_simulated hg hb hwt.1.1 hwt.1.2 hwt.2 (by simpa using hts) htest hgoto hs ht
      hagree ha ih
    rwa [hend, spot_label]
  | @whileStop x s ρ hzero =>
    rintro keep b pre ts p σ hb hts ⟨body, again, leave, t, rfl, hgoto, hagain, hleave, -⟩ hwt hp
      hagree
    simp only [Stmt.wellTyped, Bool.and_eq_true] at hwt
    refine .of_arrives (arrives_loop hg hb hts hp) (.refl keep σ) ?_
    have htest := whileDo_test hosts hg hb hwt.1 (by simpa using hts) hagain hleave hagree
    rwa [if_pos hzero, ← spot_child] at htest
  | @whileDo x s ρ ρ' r hne _ _ ihs ihw =>
    intro keep b pre ts p σ hb hts hcode hwt hp hagree
    obtain ⟨again, us, hfirst, hround⟩ := whileDo_round hg hb hts hcode hwt hp hagree hne ihs
    refine hround.bind (fun _ h => h) fun σ1 hagree1 _ => ?_
    exact ihw hb hts hcode hwt (.inr ⟨again, us, hfirst, rfl⟩) hagree1
  | @whileLeaves x s ρ r hne _ hr ihs =>
    intro keep b pre ts p σ hb hts hcode hwt hp hagree
    obtain ⟨again, us, -, hround⟩ := whileDo_round hg hb hts hcode hwt hp hagree hne ihs
    exact hround.of_leaves hr
  | @doStop x s ρ ρ' _ hzero ihs =>
    rintro keep b pre ts p σ hb hts ⟨body, again, leave, rfl, hagain, hleave, hbody⟩ hwt hp hagree
    simp only [Stmt.wellTyped, Bool.and_eq_true] at hwt
    refine (doWhile_round hg hb hts hbody hwt.2 hp hagree ihs).bind (fun _ h => h)
      fun σ1 hagree1 _ => ?_
    have htest := doWhile_test hosts hg hb hwt.1 hts hagain hleave hagree1
    rw [if_pos hzero, ← spot_child pre [.child body, .child again] leave] at htest
    exact htest
  | @doWhile x s ρ ρ' r _ hne _ ihs ihw =>
    intro keep b pre ts p σ hb hts hcode hwt hp hagree
    obtain ⟨body, again, leave, rfl, hagain, hleave, hbody⟩ := id hcode
    have hwt' := hwt
    simp only [Stmt.wellTyped, Bool.and_eq_true] at hwt'
    refine (doWhile_round hg hb hts hbody hwt'.2 hp hagree ihs).bind (fun _ h => h)
      fun σ1 hagree1 _ => ?_
    have htest := doWhile_test hosts hg hb hwt'.1 hts hagain hleave hagree1
    rw [if_neg hne] at htest
    refine htest.bind (fun _ h => h) fun σ2 hagree2 _ => ?_
    exact ihw hb hts hcode hwt (.inr ⟨body, _, rfl, rfl⟩) hagree2
  | @doLeaves x s ρ r _ hr ihs =>
    rintro keep b pre ts p σ hb hts ⟨body, again, leave, rfl, -, -, hbody⟩ hwt hp hagree
    simp only [Stmt.wellTyped, Bool.and_eq_true] at hwt
    exact (doWhile_round hg hb hts hbody hwt.2 hp hagree ihs).of_leaves hr
  | @forLoop up x initial last increment a z d s ρ r ha hz hd hrounds ih =>
    rintro keep b pre ts p σ hb hts ⟨i, v, w, body, again, round, merge, leave, t1, t2, t3, t4, t5,
      rfl, hcode1, hcode2, hcode3, hstore, henter, hround, hagain, hleave, hbody⟩ hwt rfl hagree
    simp only [Stmt.wellTyped, all_cons, all_nil, Bool.and_eq_true] at hwt
    obtain ⟨⟨⟨h1, hx⟩, ⟨h2, -⟩, ⟨h3, -⟩, -⟩, hs⟩ := hwt
    have hvar : (Expr.var x).wellTyped Γ = true := by grind [Expr.wellTyped, Expr.isInteger_ty]
    obtain ⟨σ1, harr1, hagree1, hv, hw, hkeeps1⟩ := start_simulated hosts hg hb h1 h2 h3
      hts.left.left hcode1 hcode2 hcode3 hstore hagree ha hz hd
    refine .of_arrives harr1 hkeeps1 ((enter_simulated hg hb hvar hts.left.right henter
      (.inr (.inl rfl)) hv hagree1).bind (fun _ h => .inl h) fun σ2 hagree2 hkeeps2 => ?_)
    rw [append_assoc pre]
    -- behind the loop control falls into its last builder
    have hlast : F.Stands b (pre ++ (t1 ++ t2 ++ t3 ++ t4 ++ t5))
        ([.child round] ++ ([.label merge] ++ [.child leave])) := hts.right
    have hmerge := hlast.right.right
    have hleaves : ∀ σ', g.Arrives hosts ((merge, 0), σ') ((F.exit leave, 0), σ') := fun σ' => by
      have hfall : g.Arrives hosts (F.spot _, σ') ((F.entry leave, 0), σ') :=
        hg.arrives_child hb hmerge
      rw [Sketch.spot_concat] at hfall
      exact hfall.trans (arrives_empty hg (hg.live_of_stands hb hmerge) hleave)
    have hend : t1 ++ t2 ++ t3 ++ t4 ++ t5 ++ [.child round, .label merge, .child leave] =
        (t1 ++ t2 ++ t3 ++ t4 ++ t5 ++ [.child round, .label merge]) ++ [.child leave] := by simp
    rw [hend, spot_child, update_self]
    cases hwithin : within up a z with
    | false =>
      rw [← update_self x a ρ] at hwithin
      cases hrounds with
      | roundsStop => exact ⟨σ2, hleaves σ2, hagree2, .refl keep σ2⟩
      | rounds h => cases h.symm.trans hwithin
      | roundsLeave h => cases h.symm.trans hwithin
    | true =>
      rw [← update_self x a ρ] at hwithin
      have hchild := hlast.left
      refine .of_arrives (hg.arrives_child hb hchild) (.refl keep σ2) ?_
      have hrun := ih (hg.live_of_stands hb hchild) hround hagain hbody hs hvar (.inr (.inl rfl))
        (.inr (.inr rfl)) (hkeeps2.has (.inr (.inl rfl)) hv) (hkeeps2.has (.inr (.inr rfl)) hw)
        hagree2 hwithin
      exact (hrun.mono fun _ h => .inl h).append fun σ' =>
        (arrives_behind (hg.arrives_label hb hlast.right.left)).trans (hleaves σ')
  | @roundsStop up x z d s ρ hstop => grind [Simulates]
  | @rounds up x z d s ρ ρ' r _ _ hrounds ihs ihr =>
    intro keep last increment body again round σ hround hstream hagain hbody hs hx hlast hincrement
      hz hd hagree _
    obtain ⟨hlive, hrun⟩ := round_simulated hg hround hstream hbody hs ihs hagree
    refine hrun.bind (fun _ h => h) fun σ1 hagree1 hkeeps1 => ?_
    refine (count_simulated hg hlive hx hagain hlast hincrement (hkeeps1.has hlast hz)
      (hkeeps1.has hincrement hd) hagree1 rfl).bind (fun _ h => h) fun σ2 hagree2 hkeeps2 => ?_
    cases hwithin : within up (count up ((Expr.var x).ty Γ) (ρ' x) d) z with
    | true =>
      have hkeeps := hkeeps1.trans hkeeps2
      refine ihr hround hstream hagain hbody hs hx hlast hincrement (hkeeps.has hlast hz)
        (hkeeps.has hincrement hd) hagree2 ?_
      rw [update_self]
      exact hwithin
    | false =>
      rw [← update_self x (count up ((Expr.var x).ty Γ) (ρ' x) d) ρ'] at hwithin
      cases hrounds with
      | roundsStop => exact ⟨σ2, arrives_round_exit hg hround hstream, hagree2, .refl keep σ2⟩
      | rounds h => cases h.symm.trans hwithin
      | roundsLeave h => cases h.symm.trans hwithin
  | @roundsLeave up x z d s ρ r _ _ hr ihs =>
    intro keep last increment body again round σ hround hstream hagain hbody hs hx hlast hincrement
      hz hd hagree _
    exact (round_simulated hg hround hstream hbody hs ihs hagree).2.of_leaves hr

end MethodGraph.Structured
