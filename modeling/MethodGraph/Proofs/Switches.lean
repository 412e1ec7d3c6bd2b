import MethodGraph.Proofs.Operations
import MethodGraph.Proofs.Texts
/-!
  Runs through a switch.

  The arms of a switch stand in its sequence one behind the other, then the default, and then an
  empty builder that is behind the switch.  An arm that falls through is the code of its case; any
  other arm is a builder around the code, with a jump behind it to the end.  So from the end of an
  arm control comes to the next one or to the end, and what is run for a number is read off the
  cases (`SwitchCase.taken`).
-/

namespace MethodGraph

open List Method

variable {m m₁ m₂ m' : Method} {b p done : BuilderId} {d e : Builder} {z : BlockId} {F : Sketch}
  {cases : List SwitchCase} {c : SwitchCase} {arms : List SwitchArm} {a : SwitchArm} {g : Graph}
  {hosts : Bindings String HostFn} {σ σ' τ : Machine} {q r : BlockId × Nat} {pre ts : List Token}
  {cs : List BuilderId}

/-! ## What is run -/

namespace SwitchCase

/-- The code that runs from a case on, up to the first one that does not fall through. -/
def onward (default : BuilderId) : List (SwitchCase × BuilderId) → List BuilderId
  | [] => [default]
  | (c, code) :: rest => code :: if c.falls then onward default rest else []

/-- The code that runs for a number: from the first case with this number on, or else the
    default. -/
def taken (default : BuilderId) (cases : List (SwitchCase × BuilderId)) (n : Int64) :
    List BuilderId :=
  onward default (cases.dropWhile (·.1.value != n))

end SwitchCase

/-- Each builder in turn comes back, and the next one runs from where it came back. -/
def Method.ComeBack (m : Method) (g : Graph) (hosts : Bindings String HostFn) :
    List BuilderId → Machine → Machine → Prop
  | [], σ, σ' => σ = σ'
  | c :: cs, σ, σ' => ∃ e τ, m.builder? c = some e ∧
      g.Arrives hosts ((e.entry, 0), σ) ((e.exit, 0), τ) ∧ m.ComeBack g hosts cs τ σ'

/-- Control gets from one place to another through the builders, each of which is entered and
    comes back in turn.  The machine is left alone in between. -/
def Method.Passes (m : Method) (g : Graph) (hosts : Bindings String HostFn) (r : BlockId × Nat)
    (σ' : Machine) : List BuilderId → BlockId × Nat → Machine → Prop
  | [], q, σ => σ = σ' ∧ g.Slides hosts σ q r
  | c :: cs, q, σ => ∃ e τ, m.builder? c = some e ∧ g.Slides hosts σ q (e.entry, 0) ∧
      g.Arrives hosts ((e.entry, 0), σ) ((e.exit, 0), τ) ∧ m.Passes g hosts r σ' cs (e.exit, 0) τ

theorem Method.Passes.head {q' : BlockId × Nat} (h : m.Passes g hosts r σ' cs q σ)
    (hslide : g.Slides hosts σ q' q) : m.Passes g hosts r σ' cs q' σ := by
  cases cs with
  | nil => exact ⟨h.1, hslide.trans h.2⟩
  | cons c cs =>
    obtain ⟨e, τ, he, hto, hrest⟩ := h
    exact ⟨e, τ, he, hslide.trans hto, hrest⟩

theorem Method.Passes.tail {r' : BlockId × Nat} (h : m.Passes g hosts r σ' cs q σ)
    (hslide : g.Slides hosts σ' r r') : m.Passes g hosts r' σ' cs q σ := by
  induction cs generalizing q σ with
  | nil =>
    obtain ⟨rfl, hto⟩ := h
    exact ⟨rfl, hto.trans hslide⟩
  | cons c cs ih =>
    obtain ⟨e, τ, he, hto, hback, hrest⟩ := h
    exact ⟨e, τ, he, hto, hback, ih hrest⟩

/-! ## The code of a switch -/

/-- The arm of a case: its code, or a builder around the code with a jump behind it. -/
def SwitchCase.Armed (m : Method) (done : BlockId) (c : SwitchCase) (a : SwitchArm) : Prop :=
  a.value = c.value ∧ ∃ f, m.builder? a.arm = some f ∧ f.entry = a.entry ∧
    if c.falls then a.arm = a.code
    else ∃ ts, Operation.Emits ⟨.goto, [], none, [done]⟩ ts ∧
      [.label a.entry, .child a.code] ++ ts <+: m.stream a.arm

theorem SwitchCase.Armed.mono (h : c.Armed m z a) (hs : Draft.Sound ⟨m, [], []⟩)
    (hbuilds : Builds .full ⟨m, [], []⟩ ⟨m', [], []⟩) : c.Armed m' z a := by
  obtain ⟨hvalue, f, hf, hentry, hcode⟩ := h
  obtain ⟨f', hf', hff⟩ := hbuilds.below.builders _ f hf
  refine ⟨hvalue, f', hf', hff.entry.trans hentry, ?_⟩
  split at hcode
  · next hfalls => rwa [if_pos hfalls]
  · next hfalls =>
    obtain ⟨ts, hts, hprefix⟩ := hcode
    rw [if_neg hfalls]
    exact ⟨ts, hts, hprefix.trans (hbuilds.stream_prefix hs a.arm)⟩

namespace Emit

end Emit

/-! ## Runs through a switch -/

/-- From the entry of an arm control comes to its code, and from there behind the arm or behind
    the switch. -/
theorem SwitchCase.Armed.slides (hosts : Bindings String HostFn) (σ τ : Machine)
    (ha : c.Armed m z a) (ht : m.Told m' F) (hb : m'.graph.Live F b)
    (hts : F.Stands b pre (.child a.arm :: ts)) (he : m.builder? a.code = some e) :
    m'.graph.Slides hosts σ (a.entry, 0) (e.entry, 0) ∧ m'.graph.Slides hosts τ (e.exit, 0)
      (if c.falls then F.spot (pre ++ [.child a.arm]) else (z, 0)) := by
  obtain ⟨-, f, hf, hentry, hcode⟩ := ha
  obtain ⟨hin, hout⟩ := ht.doors he
  split at hcode
  · next hfalls =>
    rw [hcode] at hf ⊢
    cases he.symm.trans hf
    rw [← hentry, if_pos hfalls, Sketch.spot_concat, ← hout]
    exact ⟨.refl, .refl⟩
  · next hfalls =>
    obtain ⟨us, hus, hprefix⟩ := hcode
    have hlive := ht.conducts.live_of_stands hb hts
    have hstands : F.Stands a.arm [.label a.entry] ([.child a.code] ++ us) :=
      ⟨by simp, hprefix.trans (ht.texts a.arm)⟩
    have hbegin : m'.graph.Slides hosts σ (F.spot [.label a.entry]) (F.entry a.code, 0) :=
      ht.conducts.slides_child hlive hstands
    obtain ⟨p, hto, hop, -⟩ := ht.conducts.arrives_op hosts τ hlive hstands.right hus
    rw [hin] at hbegin
    rw [Sketch.spot_concat] at hto
    rw [if_neg hfalls, ← hout]
    exact ⟨hbegin, hto.tail (.jump hop Exec.step_goto)⟩

/-- Where the dispatch of a switch sends control: to the first arm with the number, or else to the
    default. -/
def SwitchArm.target (default : BlockId) (arms : List SwitchArm) (n : Int64) : BlockId :=
  ((arms.find? (·.value == n)).map (·.entry)).getD default

/-- From the first of some arms control comes behind the switch, and from the one for a number. -/
theorem SwitchCase.passes {k : Builder} (harms : Forall₂ (Armed m e.entry) cases arms)
    (ht : m.Told m' F) (hb : m'.graph.Live F b) (hk : m.builder? p = some k)
    (he : m.builder? done = some e)
    (hts : F.Stands b pre (arms.map (.child ·.arm) ++ [.child p, .child done])) :
    (∀ {σ σ'}, m.ComeBack m'.graph hosts (onward p (cases.zip (arms.map (·.code)))) σ σ' →
      m.Passes m'.graph hosts (e.entry, 0) σ' (onward p (cases.zip (arms.map (·.code))))
        (F.spot pre) σ) ∧
    ∀ {n σ σ'}, m.ComeBack m'.graph hosts (taken p (cases.zip (arms.map (·.code))) n) σ σ' →
      m.Passes m'.graph hosts (e.entry, 0) σ' (taken p (cases.zip (arms.map (·.code))) n)
        (SwitchArm.target k.entry arms n, 0) σ := by
  induction harms generalizing pre with
  | nil =>
    have hts' : F.Stands b pre ([.child p] ++ [.child done]) := hts
    have hdefault : ∀ {σ σ'}, m.ComeBack m'.graph hosts [p] σ σ' →
        m.Passes m'.graph hosts (e.entry, 0) σ' [p] (k.entry, 0) σ := by
      rintro σ _ ⟨k', τ, hk', hback, rfl⟩
      cases hk.symm.trans hk'
      have hlast : m'.graph.Slides hosts τ (F.spot (pre ++ [.child p])) (F.entry done, 0) :=
        ht.conducts.slides_child hb hts'.right
      rw [Sketch.spot_concat, (ht.doors he).1] at hlast
      refine ⟨k, τ, hk, .refl, hback, rfl, ?_⟩
      rw [← (ht.doors hk).2]
      exact hlast
    refine ⟨fun hback => (hdefault hback).head ?_, hdefault⟩
    rw [← (ht.doors hk).1]
    exact ht.conducts.slides_child hb hts
  | @cons c a cases arms ha harms ih =>
    have hts' : F.Stands b pre ([.child a.arm] ++ (arms.map (.child ·.arm) ++ _)) := hts
    obtain ⟨hon, hpick⟩ := ih hts'.right
    have hhere : ∀ {σ σ'}, m.ComeBack m'.graph hosts
        (onward p ((c, a.code) :: cases.zip (arms.map (·.code)))) σ σ' →
        m.Passes m'.graph hosts (e.entry, 0) σ'
          (onward p ((c, a.code) :: cases.zip (arms.map (·.code)))) (a.entry, 0) σ := by
      rintro σ σ' ⟨f, τ, hf, hback, hthen⟩
      obtain ⟨hto, hfrom⟩ := ha.slides hosts σ τ ht hb hts hf
      refine ⟨f, τ, hf, hto, hback, ?_⟩
      split at hfrom
      · next hfalls =>
        rw [if_pos hfalls] at hthen ⊢
        exact (hon hthen).head hfrom
      · next hfalls =>
        rw [if_neg hfalls] at hthen ⊢
        exact ⟨hthen, hfrom⟩
    obtain ⟨hvalue, f, hf, hentry, -⟩ := ha
    refine ⟨fun hback => (hhere hback).head ?_, fun {n σ σ'} hback => ?_⟩
    · rw [← hentry, ← (ht.doors hf).1]
      exact ht.conducts.slides_child hb hts
    · unfold taken SwitchArm.target at *
      by_cases hn : c.value = n
      · simp [hn, hvalue] at hback ⊢
        exact hhere hback
      · simp [hn, hvalue] at hback ⊢
        exact hpick hback

end MethodGraph
