import MethodGraph.Proofs.Suited
/-!
  Asking for functions that are not known.

  The first call to a function that is not known makes its name count as asked for, also if there is
  no resolver that could be asked; a resolver that is installed later is then never asked for it.
  Only what a method knows of functions matters here (`Method.SameDirectory`), and of all requests
  only calls of functions, definitions of functions and new resolvers change it
  (`Request.directory`).

  Main statement: a call asks the resolver exactly if there is one, the function is not known, the
  name was not passed to a resolver before and no earlier call of it met neither a signature nor a
  resolver (`Build.call_consults_iff`).
-/

namespace MethodGraph

open List Bindings

variable {s : Signature} {g : String}

variable {m m1 m' : Method} {f : String} {r : Request} {rs : List Request}

/-! ## What a method knows of functions -/

/-- The same is known of functions. -/
structure Method.SameDirectory (m m' : Method) : Prop where
  functions : m'.functions = m.functions
  resolver : m'.resolver = m.resolver
  requested : m'.requested = m.requested
  asked : m'.asked = m.asked

namespace Method

theorem SameDirectory.refl (m : Method) : m.SameDirectory m := ⟨rfl, rfl, rfl, rfl⟩

theorem SameDirectory.trans (h : m.SameDirectory m1) (h' : m1.SameDirectory m') :
    m.SameDirectory m' :=
  ⟨h'.functions.trans h.functions, h'.resolver.trans h.resolver, h'.requested.trans h.requested,
    h'.asked.trans h.asked⟩

/-- Emission has nothing to do with what is known of functions. -/
theorem Emitted.directory (h : m.Emitted m') : m.SameDirectory m' := by
  rw [h.rest]
  exact ⟨rfl, rfl, rfl, rfl⟩

theorem directory_noted (m : Method) (b target : BuilderId) :
    m.SameDirectory (m.noted b target) := by
  unfold noted
  split <;> exact ⟨rfl, rfl, rfl, rfl⟩

theorem directory_enqueued (m : Method) (b : BuilderId) : m.SameDirectory (m.enqueued b) := by
  unfold enqueued
  split <;> exact ⟨rfl, rfl, rfl, rfl⟩

theorem directory_dequeued (m : Method) : m.SameDirectory m.dequeued := by
  unfold dequeued
  split <;> exact ⟨rfl, rfl, rfl, rfl⟩

end Method

namespace Request

/-- What a request does to what is known of functions. -/
def inform : Request → Method → Method
  | call (.function _ name _), m => m.request name
  | call (.defineFunction s), m => m.defineFunction s
  | call (.setResolver resolver), m => m.setResolver resolver
  | _, m => m

theorem directory_aside (c : Call) (m : Method) :
    ((call c).inform m).SameDirectory (c.aside m) := by
  cases c with
  | nextBytecode => exact m.directory_dequeued
  | appendBytecode b => exact m.directory_enqueued b
  | addSuccessor b target | addFallThrough b target | bytecodeGoto b target
  | bytecodeIfCmp b _ target _ _ | bytecodeIfCmpZero b _ target _ =>
    exact (m.directory_noted b target).trans (Method.directory_enqueued _ target)
  | _ => exact ⟨rfl, rfl, rfl, rfl⟩

/-- What is known of functions after a request. -/
theorem directory (h : r.apply m = .ok m') : (r.inform m).SameDirectory m' := by
  obtain ⟨a, h⟩ := apply_eq_ok.1 h
  cases r with
  | call c => exact (directory_aside c m).trans (Call.emitted h).directory
  | connect =>
    rcases Build.connect_cases h with ⟨-, -, rfl⟩ | ⟨-, layout, m1, g, w, hrun, -, rfl, -⟩
    · exact .refl _
    · have hemits : m.Emitted m1 := Emit.within_connectBuilders _ _ _ hrun
      obtain ⟨hfunctions, hresolver, hrequested, hasked⟩ := hemits.directory
      exact ⟨hfunctions, hresolver, hrequested, hasked⟩

end Request

/-! ## Asking for a function -/

namespace Method

/-- The function is not known and was not asked for. -/
def Lacks (m : Method) (f : String) : Prop := m.functions.get? f = none ∧ f ∉ m.requested

instance : Decidable (m.Lacks f) := inferInstanceAs (Decidable (_ ∧ _))

/-- Asking for a function does nothing if it is known or was asked for.  Otherwise the name counts
    as asked for, and the resolver, if there is one, is asked. -/
theorem request_eq (m : Method) (f : String) : m.request f =
    if m.Lacks f then
      { m with
        requested := m.requested ++ [f]
        asked := if m.resolver.isSome then m.asked ++ [f] else m.asked
        functions := (m.resolver.bind (· f)).elim m.functions (m.functions.insert f) }
    else m := by
  have hlacks : m.Lacks f ↔ (m.functions.contains f || m.requested.contains f) = false := by
    simp [Lacks, Bindings.contains]
  unfold request
  by_cases h : m.Lacks f
  · rw [if_pos h, hlacks.1 h]
    cases hresolver : m.resolver with
    | none => rfl
    | some resolver => cases hanswer : resolver f <;> simp [hanswer]
  · rw [if_neg h, if_pos (eq_true_of_ne_false fun h' => h (hlacks.2 h'))]

theorem mem_requested_request : g ∈ (m.request f).requested ↔
    g ∈ m.requested ∨ g = f ∧ m.functions.get? f = none := by
  rw [request_eq]
  split
  · next h => simp [h.1]
  · grind [Lacks]

theorem asked_request (m : Method) (f : String) : (m.request f).asked =
    if m.resolver.isSome ∧ m.Lacks f then m.asked ++ [f] else m.asked := by grind [request_eq]

theorem functions_request (m : Method) (f g : String) : (m.request f).functions.get? g =
    if g = f ∧ m.Lacks f then m.resolver.bind (· f) else m.functions.get? g := by
  grind [request_eq, get?_insert, request, Lacks]

end Method

/-! ## Calls that nobody can answer -/

/-- The request calls the function when there is neither a signature of it nor a resolver. -/
def Request.misses (f : String) (m : Method) : Request → Bool
  | call (.function _ name _) =>
    decide (name = f) && (m.functions.get? f).isNone && m.resolver.isNone
  | _ => false

namespace Method

/-- Some request of a history calls the function when there is neither a signature of it nor a
    resolver. -/
def misses (f : String) (m : Method) : List Request → Bool
  | [] => false
  | r :: rs => r.misses f m || match r.apply m with
    | .error _ => false
    | .ok m1 => m1.misses f rs

theorem misses_cons (h : r.apply m = .ok m1) :
    m.misses f (r :: rs) = (r.misses f m || m1.misses f rs) := by
  rw [misses, h]

/-- No name was passed to a resolver twice, and a name counts as asked for if it was passed to one
    or is one of those that were lost. -/
structure Offered (lost : String → Prop) (m : Method) : Prop where
  nodup : m.asked.Nodup
  requested : ∀ f, f ∈ m.requested ↔ f ∈ m.asked ∨ lost f

namespace Offered

variable {lost : String → Prop}

theorem same (h : m.Offered lost) (hdirectory : m.SameDirectory m') : m'.Offered lost := by
  refine ⟨?_, fun f => ?_⟩
  · rw [hdirectory.asked]
    exact h.nodup
  · rw [hdirectory.requested, hdirectory.asked]
    exact h.requested f

theorem request (h : m.Offered lost) (name : String) : (m.request name).Offered fun f =>
    lost f ∨ name = f ∧ m.functions.get? f = none ∧ m.resolver = none := by
  have hasked := m.asked_request name
  refine ⟨?_, fun f => ?_⟩
  · grind [Lacks, h.requested, h.nodup]
  · grind [mem_requested_request, request, h.requested]

theorem apply (h : m.Offered lost) (hr : r.apply m = .ok m') :
    m'.Offered fun f => lost f ∨ r.misses f m = true := by
  refine same ?_ (Request.directory hr)
  have hother : (r.inform m).requested = m.requested → (r.inform m).asked = m.asked →
      (∀ f, r.misses f m = false) →
      (r.inform m).Offered fun f => lost f ∨ r.misses f m = true := by
    intro hrequested hasked hmisses
    refine ⟨hasked ▸ h.nodup, fun f => ?_⟩
    rw [hrequested, hasked, h.requested, hmisses]
    simp
  cases r with
  | connect => exact hother rfl rfl fun _ => rfl
  | call c =>
    cases c with
    | function b name args =>
      have hname := h.request name
      refine ⟨hname.nodup, fun f => (hname.requested f).trans ?_⟩
      show f ∈ (m.request name).asked ∨ _ ↔ f ∈ (m.request name).asked ∨ _
      simp [Request.misses, and_assoc]
    | _ => exact hother rfl rfl fun _ => rfl

theorem serve (h : m.Offered lost) (hrs : m.serve rs = .ok m') :
    m'.Offered fun f => lost f ∨ m.misses f rs = true := by
  induction rs generalizing m lost with
  | nil =>
    cases hrs
    exact ⟨h.nodup, fun f => by rw [h.requested]; simp [misses]⟩
  | cons r rs ih =>
    obtain ⟨m1, h1, hrs⟩ := serve_cons.1 hrs
    have hend := ih (h.apply h1) hrs
    refine ⟨hend.nodup, fun f => ?_⟩
    rw [hend.requested, misses_cons h1, Bool.or_eq_true, or_assoc]

theorem new (name : String) (config : Config) : (Method.new name config).Offered fun _ => False :=
  ⟨nodup_nil, fun f => by simp [Method.new]⟩

end Offered
end Method

/-! ## Signatures stay -/

/-- A signature stays unless the function is defined anew. -/
theorem Request.functions_kept (h : r.apply m = .ok m') (hg : m.functions.get? g = some s)
    (hr : ∀ s', r = .call (.defineFunction s') → s'.name ≠ g) : m'.functions.get? g = some s := by
  rw [(directory h).functions]
  cases r with
  | connect => exact hg
  | call c =>
    cases c with
    | function b name args =>
      show (m.request name).functions.get? g = some s
      rw [Method.functions_request, if_neg]
      · exact hg
      · rintro ⟨rfl, hlacks⟩
        cases hlacks.1.symm.trans hg
    | defineFunction s' =>
      show (m.functions.insert s'.name s').get? g = some s
      rw [get?_insert, if_neg (hr s' rfl)]
      exact hg
    | _ => exact hg

theorem Method.serve_functions_kept (h : m.serve rs = .ok m') (hg : m.functions.get? g = some s)
    (hrs : ∀ s', .call (.defineFunction s') ∈ rs → s'.name ≠ g) : m'.functions.get? g = some s := by
  induction rs generalizing m with
  | nil =>
    cases h
    exact hg
  | cons r rs ih => grind [serve_cons, Request.functions_kept]

/-! ## Calls -/

namespace Build

variable {b : BuilderId} {args : List ValueId} {a : Except BuildError (Option ValueId)}

/-- What is answered for a name: its signature after it was asked for, if there is one then. -/
theorem resolve_answer {a : Except BuildError Signature}
    (h : (resolve f).run.run m = .ok (a, m')) :
    a = .error (.unresolvedFunction f) ∧ (m.request f).functions.get? f = none ∨
      ∃ s, a = .ok s ∧ (m.request f).functions.get? f = some s := by
  rcases bind_eq_ok.1 h with ⟨_, m1, h1, h⟩ | ⟨e, m1, h1, -⟩
  · cases h1
    rcases bind_eq_ok.1 h with ⟨_, _, h2, h⟩ | ⟨e, m2, h2, -⟩
    · cases h2
      cases hfind : (m.request f).functions.get? f with
      | none =>
        rw [hfind] at h
        exact .inl ⟨(throw_eq_ok.1 h).1.symm, rfl⟩
      | some s =>
        rw [hfind] at h
        exact .inr ⟨s, (pure_eq_ok.1 h).1.symm, rfl⟩
    · cases h2
  · cases h1

/-- What is emitted does not fail. -/
theorem lift_answers {α β : Type} {x : Emit α} {g : α → β} {e : BuildError}
    (h : (do let v ← liftM x; return g v : Build β).run.run m = .ok (.error e, m')) : False := by
  grind [bind_eq_ok, pure_eq_ok, lift_eq_ok]

/-- A call changes what is known of functions by asking for the function, and fails exactly if
    nothing is known of it then. -/
theorem call_answer (h : (call b f args).run.run m = .ok (a, m')) :
    (m.request f).SameDirectory m' ∧
      (a = .error (.unresolvedFunction f) ↔ m'.functions.get? f = none) := by
  have hdirectory : (m.request f).SameDirectory m' :=
    Method.Emitted.directory (call_within (R := Method.Emitted) h)
  refine ⟨hdirectory, ?_⟩
  rw [hdirectory.functions]
  rcases bind_eq_ok.1 h with ⟨s, m1, hs, hrest⟩ | ⟨e, m1, hs, ha⟩
  · -- a function that is known is called, which does not fail
    rcases resolve_answer hs with ⟨herror, -⟩ | ⟨s', hok, hfind⟩
    · cases herror
    · cases hok
      refine ⟨fun herror => ?_, fun hnone => ?_⟩
      · subst herror
        by_cases hlength : args.length ≠ s.params.length
        · rw [if_pos hlength] at hrest
          rcases bind_eq_ok.1 hrest with ⟨_, _, hthrow, -⟩ | ⟨_, _, hthrow, -⟩ <;> cases hthrow
        · rw [if_neg hlength] at hrest
          by_cases hvoid : s.returnType = .void
          · rw [if_pos hvoid] at hrest
            exact (lift_answers hrest).elim
          · rw [if_neg hvoid] at hrest
            exact (lift_answers hrest).elim
      · cases hnone.symm.trans hfind
  · grind [resolve_answer]

/-- A call asks the resolver exactly if there is one, the function is not known, its name was never
    passed to a resolver, and no earlier call of it met neither a signature nor a resolver; the
    answer of the resolver becomes the signature.  No name is passed to a resolver twice.  The call
    fails exactly if the function is not known then, and what is known stays until the function is
    defined anew. -/
theorem call_consults_iff {name : String} {config : Config}
    (hrs : (Method.new name config).serve rs = .ok m)
    (h : (call b f args).run.run m = .ok (a, m')) :
    (m'.asked = m.asked ++ [f] ↔ m.resolver.isSome = true ∧ m.functions.get? f = none ∧
      f ∉ m.asked ∧ (Method.new name config).misses f rs = false) ∧
    (m'.asked = m.asked ++ [f] ∧ m'.functions.get? f = m.resolver.bind (· f) ∨
      m'.asked = m.asked ∧ m'.functions.get? f = m.functions.get? f) ∧
    m'.asked.Nodup ∧
    (a = .error (.unresolvedFunction f) ↔ m'.functions.get? f = none) ∧
    ∀ g s, m.functions.get? g = some s → ∀ rs' n, m.serve rs' = .ok n →
      (∀ s', .call (.defineFunction s') ∈ rs' → s'.name ≠ g) → n.functions.get? g = some s := by
  have hoffered := (Method.Offered.new name config).serve hrs
  obtain ⟨hdirectory, hanswer⟩ := call_answer h
  have hlacks : m.Lacks f ↔ m.functions.get? f = none ∧ f ∉ m.asked ∧
      (Method.new name config).misses f rs = false := by
    rw [Method.Lacks, hoffered.requested]
    simp
  have hasked : m'.asked = if m.resolver.isSome ∧ m.Lacks f then m.asked ++ [f] else m.asked :=
    hdirectory.asked.trans (m.asked_request f)
  have hfunctions : m'.functions.get? f =
      if f = f ∧ m.Lacks f then m.resolver.bind (· f) else m.functions.get? f := by
    rw [hdirectory.functions]
    exact m.functions_request f f
  refine ⟨?_, ?_, ?_, hanswer, fun g s hg rs' n hn hrs' => Method.serve_functions_kept hn hg hrs'⟩
  · rw [hasked, ← hlacks]
    split
    · next hyes => exact ⟨fun _ => hyes, fun _ => rfl⟩
    · next hno => exact ⟨fun heq => absurd heq (by simp), fun hyes => absurd hyes hno⟩
  · by_cases hm : m.Lacks f
    · rw [if_pos ⟨rfl, hm⟩] at hfunctions
      cases hresolver : m.resolver with
      | none =>
        rw [hresolver] at hfunctions
        exact .inr ⟨hasked.trans (if_neg (by simp [hresolver])), hfunctions.trans hm.1.symm⟩
      | some resolver =>
        rw [hresolver] at hfunctions
        exact .inl ⟨hasked.trans (if_pos ⟨by rw [hresolver]; rfl, hm⟩), hfunctions⟩
    · exact .inr ⟨hasked.trans (if_neg fun h' => hm h'.2),
        hfunctions.trans (if_neg fun h' => hm h'.2)⟩
  · rw [hdirectory.asked]
    exact (hoffered.request f).nodup

/-- A case of it: a resolver that knows one function is asked for another one first. -/
theorem call_consults_known : ∃ m a m', (Method.new "m" {}).serve
      [.call (.setResolver fun n => if n = "f" then some ⟨"f", .int32, [], none⟩ else none),
        .call (.function 0 "g" [])] = .ok m ∧
    (call 0 "f" []).run.run m = .ok (a, m') ∧ m'.asked = ["g", "f"] := by
  have hruns : ∃ m a m', (Method.new "m" {}).serve
        [.call (.setResolver fun n => if n = "f" then some ⟨"f", .int32, [], none⟩ else none),
          .call (.function 0 "g" [])] = .ok m ∧
      (call 0 "f" []).run.run m = .ok (a, m') ∧ m.resolver.isSome = true ∧
      m.functions.get? "f" = none ∧ m.asked = ["g"] := ⟨_, _, _, rfl, rfl, rfl, rfl, rfl⟩
  obtain ⟨m, a, m', hserve, hcall, hresolver, hunknown, hasked⟩ := hruns
  have hconsults := (call_consults_iff hserve hcall).1.2 ⟨hresolver, hunknown, by simp [hasked], rfl⟩
  exact ⟨m, a, m', hserve, hcall, by rw [hconsults, hasked]; rfl⟩

/-- A function is called before there is a resolver.  The resolver that is installed then knows it,
    but is not asked for it, and the call fails. -/
theorem call_never_consults : ∃ m a m', (Method.new "m" {}).serve
      [.call (.function 0 "f" []), .call (.setResolver fun n => some ⟨n, .int32, [], none⟩)] =
        .ok m ∧
    m.resolver.isSome = true ∧ m.functions.get? "f" = none ∧ m.asked = [] ∧
    (call 0 "f" []).run.run m = .ok (a, m') ∧ m'.asked = [] ∧
    a = .error (.unresolvedFunction "f") :=
  ⟨_, _, _, rfl, rfl, rfl, rfl, rfl, rfl, rfl⟩

end Build
end MethodGraph
