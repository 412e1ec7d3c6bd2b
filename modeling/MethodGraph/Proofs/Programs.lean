import MethodGraph.Proofs.Simulated
/-!
  Whole programs, from their declarations to the answer of a run.

  Declaring the parameters and the locals of a program gives it one symbol for each, in order
  (`Program.symbols`), and a run starts with the arguments in the parameters and zeros in the
  locals, which is where the program's own meaning starts (`Program.initial_eq`).  Building the body
  adds its code to the body of the method, and connecting lays that code out.  What is left is to
  follow the code from the entry of the graph to its exit or to where it ends before.

  The main statement is `Program.build_preserves`: the graph of a built program gives, for every
  limit that is large enough, the answer that the program has, and never another one.
-/

namespace MethodGraph

open List Arena Sketch Nat Method Graph Option

variable {args : List Scalar} {ys : List Symbol} {n : Nat} {F : Sketch} {y : Symbol}
  {es : List (SymbolId × Symbol)}

/-! ## An empty method -/

/-- The sketch of a method with an empty body. -/
def Sketch.blank : Sketch where
  count := 1
  stream b := if b = Method.root then [.label Graph.entry] else []
  entry _ := Graph.entry
  exit _ := Graph.exit
  placed _ := false
  loose := []
  values := .empty
  symbols := .empty
  returnType := .void

theorem Method.shows_new (name : String) (config : Config) :
    (Method.new name config).Shows .blank := by
  refine ⟨⟨rfl, fun b => ?_, fun b d hd => ?_, rfl, rfl, rfl⟩,
    Draft.sound_new name config, .new name config⟩
  · cases b with
    | zero => rfl
    | succ b => rfl
  · cases b with
    | zero =>
      cases hd
      exact ⟨rfl, rfl, rfl⟩
    | succ b => cases hd

/-- The body of a method begins and ends where its graph does. -/
theorem Method.Shows.root {m : Method} (h : m.Shows F) :
    F.entry Method.root = Graph.entry ∧ F.exit Method.root = Graph.exit := by
  obtain ⟨d, hd, hentry, hexit⟩ := h.ready.sound.forest.root
  obtain ⟨e, he, rfl⟩ := builder?_of_plan? hd
  obtain ⟨hentry', hexit', -⟩ := h.builders _ e he
  exact ⟨hentry'.symm.trans hentry, hexit'.symm.trans hexit⟩

/-! ## Declaring -/

namespace Sketch

/-- Set the symbols. -/
@[simps]
def withSymbols (k : Sketch) (ys : List Symbol) : Sketch := { k with symbols := .ofList ys }

/-- Set the type of what is returned. -/
@[simps]
def withReturnType (k : Sketch) (ty : Ty) : Sketch := { k with returnType := ty }

theorem lookup_withSymbols (k : Sketch) (ys : List Symbol) (x : String) :
    (k.withSymbols ys).lookup x = ys.findIdx? (·.name == x) :=
  findIdx?_toArray ..

end Sketch

theorem Graph.length_parameters (g : Graph) :
    g.parameters.length = g.symbols.toList.countP Symbol.isParameter := by
  have hsnd : g.symbols.entries.map (·.2) = g.symbols.toList :=
    map_snd_zip (by simp [Arena.ids, Arena.size, Arena.toList])
  unfold parameters
  rw [length_map, ← hsnd, countP_map, countP_eq_length_filter]
  rfl

namespace Build

variable {k : Sketch}

/-- A symbol is defined that there was none of. -/
theorem define_makes {f : Method → Method} (hnew : y.name ∉ ys.map (·.name))
    (hf : ∀ m, m.Shows (k.withSymbols ys) → f m = m.defineSymbol y.name y.ty y.kind) :
    Makes (modify f) (k.withSymbols ys) fun _ k' => k' = k.withSymbols (ys ++ [y]) := by
  intro m hm
  have hlookup : m.graph.lookup y.name = none := by
    have hm' : m.graph.lookup y.name = (k.withSymbols ys).lookup y.name := by
      unfold Graph.lookup Sketch.lookup
      rw [hm.symbols]
    rw [hm', lookup_withSymbols]
    refine findIdx?_eq_none_iff.2 fun z hz => beq_eq_false_iff_ne.2 fun heq => hnew ?_
    exact heq ▸ mem_map_of_mem hz
  have hdefine : m.defineSymbol y.name y.ty y.kind =
      { m with graph := { m.graph with symbols := (m.graph.symbols.alloc y).2 } } := by
    unfold defineSymbol define
    rw [hlookup]
  have hbuilds : Builds .plain ⟨m, k.loose, []⟩ ⟨f m, k.loose, []⟩ :=
    hf m hm ▸ (Step.quiet (m.quiet_define y.name y.ty y.kind) (.inr rfl) (.inl rfl)).builds
  have hready := hbuilds.ready rfl hm.ready
  refine ⟨(), f m, k.withSymbols (ys ++ [y]), rfl, ⟨?_, hready⟩, rfl⟩
  rw [hf m hm, hdefine]
  refine ⟨hm.count, fun b => ?_, hm.builders, hm.values, ?_, hm.returnType⟩
  · exact (stream_congr rfl fun _ _ _ _ => rfl).trans (hm.stream b)
  · show (m.graph.symbols.alloc y).2 = _
    rw [hm.symbols]
    simp [alloc, ofList]

theorem defineReturnType_makes (ty : Ty) :
    Makes (modify (·.defineReturnType ty)) k fun _ k' => k' = k.withReturnType ty := by
  intro m hm
  have hquiet : m.Quiet (m.defineReturnType ty) :=
    ⟨rfl, rfl, rfl, rfl, rfl, fun _ _ h => h, fun _ _ h => h⟩
  have hbuilds : Builds .plain ⟨m, k.loose, []⟩ ⟨m.defineReturnType ty, k.loose, []⟩ :=
    (Step.quiet hquiet (.inr rfl) (.inl rfl)).builds
  refine ⟨(), _, k.withReturnType ty, rfl, ⟨⟨hm.count, fun b => ?_, hm.builders, hm.values,
    hm.symbols, rfl⟩, hbuilds.ready rfl hm.ready⟩, rfl⟩
  exact (stream_congr rfl fun _ _ _ _ => rfl).trans (hm.stream b)

end Build

namespace Structured

/-- The symbols of declared names, the first of which is the `n`-th symbol that there is. -/
def declared (kind : Nat → SymbolKind) : Nat → Decls → List Symbol
  | _, [] => []
  | n, (x, ty) :: ds => ⟨x, ty, kind n⟩ :: declared kind (n + 1) ds

/-- The symbols of a program, in the order of their declaration. -/
def Program.symbols (p : Program) : List Symbol :=
  declared .parameter 0 p.params ++ declared (fun _ => .localVar) p.params.length p.locals

variable {kind : Nat → SymbolKind}

theorem map_name_declared (n : Nat) (ds : Decls) :
    (declared kind n ds).map (·.name) = ds.map (·.1) := by
  induction ds generalizing n with
  | nil => rfl
  | cons d ds ih => exact congrArg (d.1 :: ·) (ih (n + 1))

theorem length_declared (n : Nat) (ds : Decls) : (declared kind n ds).length = ds.length := by
  induction ds generalizing n with
  | nil => rfl
  | cons d ds ih => exact congrArg (· + 1) (ih (n + 1))

theorem mem_declared {ds : Decls} (h : y ∈ declared kind n ds) :
    ∃ i < ds.length, y.kind = kind (n + i) := by
  induction ds generalizing n with
  | nil => cases h
  | cons d ds ih =>
    rcases mem_cons.1 h with rfl | h
    · exact ⟨0, zero_lt_succ _, rfl⟩
    · obtain ⟨i, hi, hy⟩ := ih h
      refine ⟨i + 1, succ_lt_succ hi, hy.trans (congrArg kind ?_)⟩
      omega

/-- Names are declared one behind the other. -/
theorem names_makes (kind : Nat → SymbolKind) {f : String × Ty → Method → Method}
    {P : List Symbol → Prop} {k : Sketch} (hf : ∀ {ys d m}, P ys → m.Shows (k.withSymbols ys) →
      f d m = m.defineSymbol d.1 d.2 (kind ys.length))
    (hP : ∀ {ys x ty}, P ys → P (ys ++ [⟨x, ty, kind ys.length⟩])) (ds : Decls)
    (hys : P ys) (hnodup : (ys.map (·.name) ++ ds.map (·.1)).Nodup) :
    Build.Makes (ds.forM fun d => modify (f d)) (k.withSymbols ys)
      fun _ k' => k' = k.withSymbols (ys ++ declared kind ys.length ds) := by
  induction ds generalizing ys with
  | nil =>
    refine .pure ?_
    rw [declared, append_nil]
  | cons d ds ih =>
    obtain ⟨x, ty⟩ := d
    have hx : x ∉ ys.map (·.name) := fun hx =>
      (nodup_append.1 hnodup).2.2 x hx x mem_cons_self rfl
    refine (Build.define_makes (y := ⟨x, ty, kind ys.length⟩) hx fun m hm => hf hys hm).bind ?_
    rintro - _ rfl
    refine (ih (hP hys) ?_).imp ?_
    · rw [map_append, append_assoc]
      exact hnodup
    · rintro - _ rfl
      rw [append_assoc, length_append]
      rfl

/-- The parameters and the locals of a program become its symbols. -/
theorem Program.declares_makes (p : Program) (hp : (p.decls.map (·.1)).Nodup)
    {use : Build Unit} {Q : Unit → Sketch → Prop}
    (huse : Build.Makes use ((Sketch.blank.withSymbols p.symbols).withReturnType p.result) Q) :
    Build.Makes (do
      p.params.forM fun (x, ty) => modify (·.defineParameter x ty)
      p.locals.forM fun (x, ty) => modify (·.defineLocal x ty)
      modify (·.defineReturnType p.result)
      use) .blank Q := by
  rw [decls, map_append] at hp
  have hnone : ∀ y ∈ ([] : List Symbol), y.isParameter = true := fun _ h => absurd h not_mem_nil
  have hparams := names_makes .parameter (k := .blank)
    (f := fun d m => m.defineParameter d.1 d.2) (P := fun ys => ∀ y ∈ ys, y.isParameter = true)
    (fun {ys d m} hys hm => by
      unfold defineParameter
      rw [length_parameters, hm.symbols]
      exact congrArg (m.defineSymbol d.1 d.2 <| .parameter ·) (countP_eq_length.2 hys))
    (fun {ys x ty} hys y hy => by
      rcases mem_append.1 hy with hy | hy
      · exact hys y hy
      · rw [mem_singleton.1 hy]
        rfl)
    p.params hnone (nodup_append.1 hp).1
  refine hparams.bind ?_
  rintro - _ rfl
  refine (names_makes (fun _ => .localVar) (f := fun d m => m.defineLocal d.1 d.2)
    (P := fun _ => True) (fun _ _ => rfl) (fun _ => trivial) p.locals trivial ?_).bind ?_
  · rw [nil_append, map_name_declared]
    exact hp
  rintro - _ rfl
  refine (Build.defineReturnType_makes p.result).bind ?_
  rintro - _ rfl
  rw [nil_append, length_declared]
  exact huse

theorem map_declared (n : Nat) (ds : Decls) :
    (declared kind n ds).map (fun y => (y.name, y.ty)) = ds := by
  induction ds generalizing n with
  | nil => rfl
  | cons d ds ih => exact congrArg (d :: ·) (ih (n + 1))

theorem Program.map_symbols (p : Program) :
    p.symbols.map (fun y => (y.name, y.ty)) = p.decls := by
  rw [symbols, map_append, map_declared, map_declared, decls]

/-! ## The start of a run -/

/-- The type of a name is that of the first symbol of the name. -/
theorem lookup_symbols (ys : List Symbol) (x : String) :
    (ys.map fun y => (y.name, y.ty)).lookup x =
      ((ys.findIdx? (·.name == x)).bind (ys[·]?)).map (·.ty) := by
  induction ys with
  | nil => rfl
  | cons y ys ih => grind

/-- The first symbol of a name starts with the scalar that the name starts with. -/
theorem initial_declared (locals : Decls) {x : String} {s : Nat} (params : Decls)
    (before args : List Scalar) (hargs : args.length = params.length)
    (hs : (declared .parameter before.length params ++
      declared (fun _ => .localVar) n locals).findIdx? (·.name == x) = some s)
    (hy : (declared .parameter before.length params ++
      declared (fun _ => .localVar) n locals)[s]? = some y) :
    y.initial (before ++ args) = .ok ((((params.map (·.1)).zip args).lookup x).getD
      (.zero ((locals.lookup x).getD .void))) := by
  induction params generalizing before args s with
  | nil =>
    rw [declared, nil_append] at hs hy
    have hty : locals.lookup x = some y.ty := by grind [lookup_symbols, map_declared]
    obtain ⟨i, -, hkind⟩ := mem_declared (mem_of_getElem? hy)
    rw [hty]
    unfold Symbol.initial
    rw [hkind]
    rfl
  | cons d params ih =>
    obtain ⟨a, args, rfl⟩ : ∃ a rest, args = a :: rest := by
      cases args with
      | nil => cases hargs
      | cons a rest => exact ⟨a, rest, rfl⟩
    obtain ⟨x0, ty⟩ := d
    rw [declared, cons_append, findIdx?_cons] at hs
    rw [map_cons, zip_cons_cons, lookup_cons]
    by_cases hx : x = x0
    · rw [if_pos (beq_iff_eq.2 hx.symm)] at hs
      cases hs
      cases hy
      rw [beq_iff_eq.2 hx]
      unfold Symbol.initial
      dsimp only
      rw [getElem?_append_right le_rfl, Nat.sub_self]
      rfl
    · rw [if_neg (mt beq_iff_eq.1 (Ne.symm hx))] at hs
      obtain ⟨s, hs', rfl⟩ := Option.map_eq_some_iff.1 hs
      rw [beq_eq_false_iff_ne.2 hx, append_cons]
      have hlength : (before ++ [a]).length = before.length + 1 := length_append
      rw [← hlength] at hs'
      refine ih (before ++ [a]) args (Nat.succ.inj hargs) hs' ?_
      rw [hlength]
      exact hy

/-- The parameters are the symbols that take arguments. -/
theorem Program.countP_symbols (p : Program) :
    p.symbols.countP Symbol.isParameter = p.params.length := by
  grind [mem_declared, Symbol.isParameter, symbols, countP_eq_length, countP_eq_zero,
    length_declared]

/-- Every symbol of a program has a scalar to start with. -/
theorem Program.exists_initial (p : Program)
    (hargs : args.length = p.params.length) (hy : y ∈ p.symbols) : ∃ a, y.initial args = .ok a := by
  unfold Symbol.initial
  rcases mem_append.1 hy with hy | hy
  · obtain ⟨i, hi, hkind⟩ := mem_declared hy
    rw [hkind, Nat.zero_add]
    dsimp only
    rw [getElem?_eq_getElem (hargs ▸ hi)]
    exact ⟨_, rfl⟩
  · obtain ⟨i, -, hkind⟩ := mem_declared hy
    rw [hkind]
    exact ⟨_, rfl⟩

end Structured

/-! ## The locals of a machine -/

/-- Symbols that have scalars to start with, beside these scalars. -/
abbrev Started (args : List Scalar) : List (SymbolId × Symbol) → List (SymbolId × Scalar) → Prop :=
  List.Forall₂ fun e p => p.1 = e.1 ∧ e.2.initial args = .ok p.2

theorem started_run (h : ∀ s y, (s, y) ∈ es → ∃ a, y.initial args = .ok a) :
    ∃ ps, (es.mapM fun (i, s) => return (i, ← s.initial args) : Except Fault _) = .ok ps ∧
      Started args es ps := by
  induction es with
  | nil => exact ⟨[], rfl, .nil⟩
  | cons e es ih =>
    obtain ⟨s, y⟩ := e
    obtain ⟨a, ha⟩ := h s y mem_cons_self
    obtain ⟨ps, hps, hall⟩ := ih fun s y he => h s y (mem_cons_of_mem _ he)
    refine ⟨(s, a) :: ps, ?_, .cons ⟨rfl, ha⟩ hall⟩
    rw [mapM_cons, hps]
    dsimp only
    rw [ha]
    rfl

theorem Started.lookup {ps : List (SymbolId × Scalar)} (h : Started args es ps) {s : SymbolId}
    {a : Scalar} (hy : (s, y) ∈ es) (honly : ∀ z, (s, z) ∈ es → z = y)
    (ha : y.initial args = .ok a) : Bindings.lookup s ps = some a := by
  induction h with
  | nil => cases hy
  | @cons e p es ps hep _ ih => grind [Bindings.lookup]

/-- If every symbol has a scalar to start with, a run starts with these. -/
theorem Graph.initialLocals_run {g : Graph}
    (h : ∀ s y, g.symbols.get? s = some y → ∃ a, y.initial args = .ok a) :
    ∃ locals, g.initialLocals args = .ok locals ∧
      ∀ s y a, g.symbols.get? s = some y → y.initial args = .ok a →
        locals.get? s = some a := by
  obtain ⟨ps, hps, hall⟩ := started_run fun s y he => h s y (mem_entries.1 he)
  refine ⟨⟨ps⟩, ?_, fun s y a hy ha => ?_⟩
  · unfold initialLocals
    rw [hps]
    rfl
  · refine hall.lookup (mem_entries.2 hy) (fun z hz => ?_) ha
    exact some.inj ((mem_entries.1 hz).symm.trans hy)

namespace Structured

/-! ## Building and running -/

/-- The machine at the start of a run agrees with the variables at the start of the program. -/
theorem Program.agrees_start (p : Program) (ev : Evaluator)
    (hargs : args.length = p.params.length) (hF : F.symbols = .ofList p.symbols)
    (hsymbols : ev.graph.symbols = F.symbols) (hvalues : ev.graph.values = F.values) :
    ∃ locals, ev.graph.initialLocals args = .ok locals ∧
      Agrees F p.decls (p.start args) (ev.start locals) := by
  have hget : ∀ s, ev.graph.symbols.get? s = p.symbols[s]? := fun s => by
    rw [hsymbols, hF]
    exact getElem?_toArray ..
  have hinitial : ∀ s y, ev.graph.symbols.get? s = some y → ∃ a, y.initial args = .ok a :=
    fun s y hy => p.exists_initial hargs (mem_of_getElem? ((hget s).symm.trans hy))
  obtain ⟨locals, hrun, hlocals⟩ := initialLocals_run hinitial
  refine ⟨locals, hrun, fun {x ty s} _ hs => ?_, ?_⟩
  · have hs' : p.symbols.findIdx? (·.name == x) = some s := by
      rw [← hs, Sketch.lookup, hF]
      exact (findIdx?_toArray ..).symm
    obtain ⟨hlt, -⟩ := findIdx?_eq_some_iff_getElem.1 hs'
    have hy : p.symbols[s]? = some p.symbols[s] := getElem?_eq_getElem hlt
    refine hlocals s _ _ ((hget s).trans hy) ?_
    exact initial_declared p.locals p.params [] args hargs hs' hy
  · grind [Evaluator.start]

/-- Building a well-typed program succeeds and gives its code to the body of the method. -/
theorem Program.build_makes (p : Program) (hp : p.wellTyped = true) (early : Stmt → Bool) :
    Build.Makes (p.build early) .blank fun _ F => F.symbols = .ofList p.symbols ∧ F.loose = [] ∧
      (∀ c < F.count, c ≠ Method.root → F.placed c = true) ∧
      Structured.Holds F Method.root (p.body.Code F p.decls fun _ => False) := by
  simp only [wellTyped, Bool.and_eq_true, decide_eq_true_eq] at hp
  refine p.declares_makes hp.1 ?_
  have hdeclared : Declared p.decls
      ((blank.withSymbols p.symbols).withReturnType p.result) := by
    intro x ty hx
    rw [← p.map_symbols, lookup_symbols, map_eq_some_iff] at hx
    obtain ⟨y, hy, hty⟩ := hx
    obtain ⟨s, hs, hy⟩ := bind_eq_some_iff.1 hy
    refine ⟨s, y, (blank.lookup_withSymbols ..).trans hs, ?_, hty⟩
    exact (getElem?_toArray ..).trans hy
  refine (p.body.build_draws early hdeclared rfl zero_lt_one hp.2).imp ?_
  rintro - F ⟨ts, hadds, hcode⟩
  refine ⟨hadds.symbols, hadds.loose, fun c hc hroot => ?_, ts, ?_, ?_⟩
  · exact hadds.fresh c hc (one_le_iff_ne_zero.2 hroot)
  · rw [hadds.stream _ zero_lt_one, hadds.entry _ zero_lt_one, only_self]
    rfl
  · exact hcode F _ ⟨fun _ _ _ => rfl, fun _ _ => rfl, fun _ _ h => h, rfl⟩ fun _ h => h.elim

/-- A graph that runs the code of a program ends as the program does. -/
theorem Program.arrives_answer (p : Program) (hp : p.wellTyped = true) {ev : Evaluator}
    {live : BuilderId → Prop} {locals : Bindings SymbolId Scalar}
    {r : Result} (hg : ev.graph.Executes F live) (hentry : F.entry Method.root = Graph.entry)
    (hexit : F.exit Method.root = Graph.exit)
    (hcode : Structured.Holds F Method.root (p.body.Code F p.decls fun _ => False))
    (hagree : Agrees F p.decls (p.start args) (ev.start locals))
    (hruns : Runs p.decls (.stmt p.body) (p.start args) r) :
    ∃ c σ, ev.graph.Arrives ev.hosts ((Graph.entry, 0), ev.start locals) c ∧
      ev.graph.Ends ev.hosts c (r.answer, σ) := by
  simp only [wellTyped, Bool.and_eq_true, decide_eq_true_eq] at hp
  have hreach : Reaches ev.graph ev.hosts F p.decls (fun _ => False) _ _ _ r :=
    body_simulated hg hg.root (hruns.simulated hg) hcode hp.2 hagree
  rw [hentry, hexit] at hreach
  cases r with
  | done ρ =>
    obtain ⟨σ, harr, -, -⟩ := hreach
    exact ⟨_, σ, harr, .exit⟩
  | returned v => exact hreach
  | divided => exact hreach

/-- A program is built, connected and run: the run has the answer of the program for every limit
    that is large enough, and for a smaller one it has the same answer or meets its limit. -/
theorem Program.build_preserves (p : Program) (hp : p.wellTyped = true) (early : Stmt → Bool)
    (name : String) (config : Config) :
    ∃ m c m', (p.build early).run.run (Method.new name config) = .ok (.ok (), m) ∧
      Build.connect.run.run m = .ok (c, m') ∧
      ∀ (hosts : Bindings String HostFn) (memory : Memory) (args : List Scalar) (r : Result),
        args.length = p.params.length → Runs p.decls (.stmt p.body) (p.start args) r →
        ∃ n, ∀ limit,
          let answer := (Evaluator.run { graph := m'.graph, hosts, limit, memory } args).map (·.1)
          (n ≤ limit → answer = .ok r.answer) ∧
          (limit < n → answer = .ok r.answer ∨ answer = .ok (.error (.stepLimit limit))) := by
  obtain ⟨_, m, F, hbuild, hm, hF, hloose, hplaced, hcode⟩ :=
    p.build_makes hp early _ (Method.shows_new name config)
  obtain ⟨c, m', hconnect, hlayout, hg⟩ := hm.connect hloose hplaced
  refine ⟨m, c, m', hbuild, hconnect, fun hosts memory args r hargs hruns => ?_⟩
  let ev : Evaluator := { graph := m'.graph, hosts, memory }
  obtain ⟨locals, hlocals, hagree⟩ := p.agrees_start ev hargs hF hg.symbols hg.values
  obtain ⟨c, σ, harr, hends⟩ :=
    p.arrives_answer hp hg hm.root.1 hm.root.2 hcode hagree hruns
  have hparams : args.length = ev.graph.parameters.length := by
    rw [hargs, Graph.length_parameters, hg.symbols, hF]
    exact p.countP_symbols.symm
  obtain ⟨n, hn⟩ := ev.run_of_arrives hlayout hparams hlocals harr hends
  refine ⟨n, fun limit => ⟨fun hle => ?_, fun hlt => ?_⟩⟩
  · exact congrArg (Except.map (·.1)) ((hn limit).1 hle)
  · obtain ⟨ev', h | h⟩ := (hn limit).2 hlt
    · exact .inl (congrArg (Except.map (·.1)) h)
    · exact .inr (congrArg (Except.map (·.1)) h)

/-- The sum of the numbers below the argument. -/
def sumBelow : Program where
  params := [("n", .int32)]
  locals := [("sum", .int32), ("i", .int32)]
  result := .int32
  body := .seq
    (.forLoop true "i" (.const .int32 0) (.var "n") (.const .int32 1)
      (.assign "sum" (.binary .add (.var "sum") (.var "i"))))
    (.ret (some (.var "sum")))

/-- Two rounds of a counting loop and the return behind it. -/
theorem sumBelow_preserves :
    ∃ m c m', (sumBelow.build fun _ => true).run.run (Method.new "f" {}) = .ok (.ok (), m) ∧
      Build.connect.run.run m = .ok (c, m') ∧ ∃ n, ∀ limit, n ≤ limit →
        (Evaluator.run { graph := m'.graph, limit } [.int 2]).map (·.1) =
          .ok (.ok (some (.int 1))) := by
  obtain ⟨m, c, m', hbuild, hconnect, hrun⟩ :=
    sumBelow.build_preserves (by decide) (fun _ => true) "f" {}
  have hruns : Runs sumBelow.decls (.stmt sumBelow.body) (sumBelow.start [.int 2])
      (.returned (some (.int 1))) :=
    .seq (.forLoop rfl rfl rfl
      (.rounds (by decide) (.assign rfl) (.rounds (by decide) (.assign rfl)
        (.roundsStop (by decide))))) (.ret (by decide))
  obtain ⟨n, hn⟩ := hrun .empty .empty [.int 2] _ rfl hruns
  exact ⟨m, c, m', hbuild, hconnect, n, fun limit => (hn limit).1⟩

end Structured
end MethodGraph
