import Mathlib.Data.List.Induction
import MethodGraph.Graph.Dominators
import MethodGraph.Proofs.Postorder
/-!
  The dominator tree.

  Two things are known of the tree at any time.  What dominates a block is above it (`Sound`), and
  this because from the block above another one there is a path down on which no number is greater:
  a dominator further up cannot be on it, so it dominates the block above as well.  On the other
  hand, after `k` sweeps nothing is above a block that a path of at most `k` blocks avoids
  (`Exact`).  Paths need not be longer than the graph is large, so after that many sweeps what is
  above a block are its dominators, and the next sweep finds nothing to change.

  `Meets`, `MeetsAll` and `Settles` are the loops of the construction without a bound on their
  rounds.  They come to an end because numbers grow on the way up.
-/

namespace MethodGraph

open List Option Graph

variable {g : Graph} {o : Order} {t t' : DomTree} {a b c d p x y : BlockId} {k j : Nat}
  {st : DomTree × Bool}

namespace Graph

/-! ## Paths that avoid a block -/

/-- A path from the entry to a block, last block first. -/
inductive Trail (g : Graph) : BlockId → List BlockId → Prop where
  | entry : Trail g entry [entry]
  | step {a b : BlockId} {xs : List BlockId} : Trail g a xs → b ∈ g.succsOf a → Trail g b (b :: xs)

/-- A block is reachable, and every path to it passes through `a`. -/
def Dominates (g : Graph) (a b : BlockId) : Prop :=
  g.Reaches b ∧ ∀ xs, Trail g b xs → a ∈ xs

/-- A path of at most `k` blocks that avoids `c`. -/
def Avoids (g : Graph) (c : BlockId) (k : Nat) (x : BlockId) : Prop :=
  ∃ xs, Trail g x xs ∧ c ∉ xs ∧ xs.length ≤ k

namespace Trail

variable {xs : List BlockId}

theorem reaches (h : Trail g x xs) : g.Reaches x := by
  induction h with
  | entry => exact .entry
  | step _ hb ih => exact .step ih hb

theorem mem_self (h : Trail g x xs) : x ∈ xs := by
  cases h <;> exact mem_cons_self

theorem upTo (h : Trail g x xs) (hy : y ∈ xs) : ∃ ys, Trail g y ys ∧ ys.Sublist xs := by
  induction h with
  | entry =>
    cases mem_singleton.1 hy
    exact ⟨_, .entry, .refl _⟩
  | step h hb ih =>
    rcases mem_cons.1 hy with rfl | hy
    · exact ⟨_, .step h hb, .refl _⟩
    · obtain ⟨ys, hys, hsub⟩ := ih hy
      exact ⟨ys, hys, hsub.cons _⟩

/-- A path may leave out its circles. -/
theorem nodup (h : Trail g x xs) : ∃ ys, Trail g x ys ∧ ys ⊆ xs ∧ ys.Nodup := by
  induction h with
  | entry => exact ⟨_, .entry, fun _ h => h, by simp⟩
  | @step a b xs _ hb ih =>
    obtain ⟨ys, hys, hsub, hnodup⟩ := ih
    by_cases hmem : b ∈ ys
    · grind [hys.upTo]
    · exact ⟨b :: ys, .step hys hb, cons_subset_cons b hsub,
        nodup_cons.2 ⟨hmem, hnodup⟩⟩

end Trail

theorem Reaches.trail (h : g.Reaches x) : ∃ xs, Trail g x xs := by
  induction h with
  | entry => exact ⟨_, .entry⟩
  | step _ hb ih =>
    obtain ⟨_, hxs⟩ := ih
    exact ⟨_, .step hxs hb⟩

theorem Dominates.of_succ (h : g.Dominates a b) (hp : g.Reaches p) (hb : b ∈ g.succsOf p)
    (hne : a ≠ b) : g.Dominates a p :=
  ⟨hp, fun _ hxs => (mem_cons.1 (h.2 _ (.step hxs hb))).resolve_left hne⟩

namespace Avoids

theorem mono (h : g.Avoids c j x) (hle : j ≤ k) : g.Avoids c k x := by
  obtain ⟨xs, hxs, hc, hlen⟩ := h
  exact ⟨xs, hxs, hc, Nat.le_trans hlen hle⟩

theorem pred (h : g.Avoids c k b) (hb : b ≠ entry) :
    ∃ p, b ∈ g.succsOf p ∧ g.Avoids c (k - 1) p ∧ c ≠ b := by
  obtain ⟨xs, hxs, hc, hlen⟩ := h
  cases hxs with
  | entry => exact absurd rfl hb
  | @step p _ xs hxs hedge => grind [Avoids]

theorem not_zero : ¬ g.Avoids c 0 x := by
  rintro ⟨xs, hxs, -, hlen⟩
  cases hxs <;> cases hlen

/-- A path that passes through `b` avoids on its way there what it avoids at all. -/
theorem through (h : g.Avoids c k x) (b : BlockId) : g.Avoids b k x ∨ g.Avoids c k b := by
  obtain ⟨xs, hxs, hc, hlen⟩ := h
  by_cases hb : b ∈ xs
  · grind [Avoids, hxs.upTo]
  · exact .inl ⟨xs, hxs, hb, hlen⟩

theorem size (h : g.Avoids c k x) (hp : g.Paired) : g.Avoids c g.blocks.size x := by
  obtain ⟨xs, hxs, hc, -⟩ := h
  obtain ⟨ys, hys, hsub, hnodup⟩ := hxs.nodup
  refine ⟨ys, hys, fun hmem => hc (hsub hmem), hp.length_le hnodup fun y hy => ?_⟩
  obtain ⟨zs, hzs, -⟩ := hys.upTo hy
  exact hzs.reaches

end Avoids

/-- A path down from `d` on which all numbers are less than that of `d`. -/
inductive Low (g : Graph) (o : Order) (d : BlockId) : BlockId → Prop where
  | refl : Low g o d d
  | step {x b : BlockId} : Low g o d x → b ∈ g.succsOf x → o.number b < o.number d → Low g o d b

namespace Low

theorem trans (h : Low g o c b) (h' : Low g o b x) (hle : o.number b ≤ o.number c) :
    Low g o c x := by
  induction h' with
  | refl => exact h
  | step _ hedge hlt ih => exact .step ih hedge (Nat.lt_of_lt_of_le hlt hle)

theorem dominates (h : Low g o b x) (hb : g.Reaches b) (ha : o.number b < o.number a)
    (hdom : g.Dominates a x) : g.Dominates a b := by
  suffices h : ∀ x, Low g o b x → g.Reaches x ∧ (g.Dominates a x → g.Dominates a b) from
    (h x ‹_›).2 hdom
  intro x h
  induction h with
  | refl => exact ⟨hb, id⟩
  | step _ hedge hlt ih =>
    refine ⟨.step ih.1 hedge, fun hdom => ih.2 (hdom.of_succ ih.1 hedge ?_)⟩
    rintro rfl
    omega

end Low
end Graph

namespace DomTree

/-! ## The way up -/

/-- `a` is met on the way up from a block. -/
inductive Above (t : DomTree) (a : BlockId) : BlockId → Prop where
  | refl : Above t a a
  | up {b d : BlockId} : t.parent? b = some d → Above t a d → Above t a b

theorem Above.trans (h : t.Above a b) (h' : t.Above b c) : t.Above a c := by
  induction h' with
  | refl => exact h
  | up hd _ ih => exact .up hd ih

theorem parent?_of_ne (hb : b ≠ Graph.entry) : t.parent? b = t.get? b := if_neg hb

/-- A tree in the course of the construction. -/
structure Sound (g : Graph) (o : Order) (t : DomTree) : Prop where
  size : t.idom.items.size = g.blocks.size
  entry : t.get? Graph.entry = some Graph.entry
  reaches {b d : BlockId} : t.get? b = some d → g.Reaches b
  parent {b d : BlockId} : t.parent? b = some d →
    (t.get? d).isSome ∧ o.number b < o.number d ∧ g.Low o d b
  dominators {a b : BlockId} : (t.get? b).isSome → g.Dominates a b → t.Above a b

namespace Sound

theorem reaches_of_isSome (h : Sound g o t) (hb : (t.get? b).isSome) : g.Reaches b :=
  h.reaches (some_get hb).symm

theorem above (h : Sound g o t) (ha : t.Above a b) (hb : (t.get? b).isSome) :
    (t.get? a).isSome ∧ g.Low o a b ∧ (a = b ∨ o.number b < o.number a) := by
  induction ha with
  | refl => exact ⟨hb, .refl, .inl rfl⟩
  | up hd _ ih =>
    obtain ⟨hsome, hlt, hlow⟩ := h.parent hd
    obtain ⟨ha, hlow', hor⟩ := ih hsome
    refine ⟨ha, hlow'.trans hlow ?_, .inr ?_⟩ <;> rcases hor with rfl | hor <;> omega

theorem reaches_of_parent? (h : Sound g o t) (hd : t.parent? b = some d) : g.Reaches b := by
  unfold parent? at hd
  split at hd
  · cases hd
  · exact h.reaches hd

theorem antisymm (h : Sound g o t) (hab : t.Above a b) (hba : t.Above b a)
    (hb : (t.get? b).isSome) : a = b := by
  have habove := @h.above
  grind

theorem above_entry (h : t.Above a Graph.entry) : a = Graph.entry := by
  cases h with
  | refl => rfl
  | up hd _ => cases hd

end Sound

/-! ## Meets -/

/-- The walk of two blocks up the tree until they meet. -/
inductive Meets (t : DomTree) (o : Order) : BlockId → BlockId → BlockId → Prop where
  | met (a : BlockId) : Meets t o a a a
  | left {a b c d : BlockId} : o.number a < o.number b → t.get? a = some d → Meets t o d b c →
      Meets t o a b c
  | right {a b c d : BlockId} : o.number b < o.number a → t.get? b = some d → Meets t o a d c →
      Meets t o a b c

/-- The meet of some blocks, one after the other, of which those without a dominator are left
    out. -/
inductive MeetsAll (t : DomTree) (o : Order) :
    List BlockId → Option BlockId → Option BlockId → Prop where
  | nil (acc : Option BlockId) : MeetsAll t o [] acc acc
  | skip {p : BlockId} {ps : List BlockId} {acc r : Option BlockId} : t.get? p = none →
      MeetsAll t o ps acc r → MeetsAll t o (p :: ps) acc r
  | first {p : BlockId} {ps : List BlockId} {r : Option BlockId} : (t.get? p).isSome →
      MeetsAll t o ps (some p) r → MeetsAll t o (p :: ps) none r
  | next {p a c : BlockId} {ps : List BlockId} {r : Option BlockId} : (t.get? p).isSome →
      Meets t o p a c → MeetsAll t o ps (some c) r → MeetsAll t o (p :: ps) (some a) r

theorem Sound.parent?_of_lt (h : Sound g o t) (ho : o.Fits g) (ha : (t.get? a).isSome)
    (hb : (t.get? b).isSome) (hlt : o.number a < o.number b) : ∃ d, t.get? a = some d ∧
      t.parent? a = some d := by
  obtain ⟨d, hd⟩ := isSome_iff_exists.1 ha
  refine ⟨d, hd, (parent?_of_ne ?_).trans hd⟩
  rintro rfl
  exact Nat.not_le_of_lt hlt (ho.number_le_entry (h.reaches_of_isSome hb))

theorem Sound.meets (h : Sound g o t) (ho : o.Fits g) (fuel : Nat) (ha : (t.get? a).isSome)
    (hb : (t.get? b).isSome) (hfuel : 2 * g.blocks.size ≤ fuel + o.number a + o.number b) :
    Meets t o a b (t.meet o fuel a b) := by
  induction fuel generalizing a b with
  | zero =>
    have := ho.number_lt (h.reaches_of_isSome ha)
    have := ho.number_lt (h.reaches_of_isSome hb)
    omega
  | succ fuel ih =>
    rw [meet]
    split
    · next heq =>
      subst heq
      exact .met a
    · next hne =>
      split
      · next hlt =>
        obtain ⟨d, hd, hparent⟩ := h.parent?_of_lt ho ha hb hlt
        obtain ⟨hsome, hup, -⟩ := h.parent hparent
        rw [hd]
        exact .left hlt hd (ih hsome hb (by omega))
      · next hnot =>
        have hlt : o.number b < o.number a := by
          refine Nat.lt_of_le_of_ne (Nat.le_of_not_lt hnot) fun heq => hne ?_
          exact ho.number_inj (h.reaches_of_isSome ha) (h.reaches_of_isSome hb) heq.symm
        obtain ⟨d, hd, hparent⟩ := h.parent?_of_lt ho hb ha hlt
        obtain ⟨hsome, hup, -⟩ := h.parent hparent
        rw [hd]
        exact .right hlt hd (ih ha hsome (by omega))

/-- What is above a meet is above both sides. -/
theorem Sound.above_meet (h : Sound g o t) (ho : o.Fits g) (hm : Meets t o a b c)
    (ha : (t.get? a).isSome) (hb : (t.get? b).isSome) :
    (t.get? c).isSome ∧ ∀ x, t.Above x c ↔ t.Above x a ∧ t.Above x b := by
  -- climbing on one side loses only a block that is not above the other
  have hclimb : ∀ {a b d x}, (t.get? a).isSome → (t.get? b).isSome → o.number a < o.number b →
      t.get? a = some d → (t.get? d).isSome ∧
        (t.Above x d ∧ t.Above x b ↔ t.Above x a ∧ t.Above x b) := by
    intro a b d x ha hb hlt hd
    obtain ⟨d', hd', hparent⟩ := h.parent?_of_lt ho ha hb hlt
    cases hd.symm.trans hd'
    refine ⟨(h.parent hparent).1, fun hx => ⟨.up hparent hx.1, hx.2⟩, fun hx => ⟨?_, hx.2⟩⟩
    cases hx.1 with
    | refl =>
      rcases (h.above hx.2 hb).2.2 with rfl | hlt' <;> omega
    | up hd'' hx =>
      cases hparent.symm.trans hd''
      exact hx
  induction hm with
  | met a => exact ⟨ha, fun x => (and_self_iff).symm⟩
  | left hlt hd _ ih =>
    obtain ⟨hc, hiff⟩ := ih (hclimb (x := 0) ha hb hlt hd).1 hb
    exact ⟨hc, fun x => (hiff x).trans (hclimb ha hb hlt hd).2⟩
  | right hlt hd _ ih =>
    obtain ⟨hc, hiff⟩ := ih ha (hclimb (x := 0) hb ha hlt hd).1
    exact ⟨hc, fun x => (hiff x).trans (and_comm.trans ((hclimb hb ha hlt hd).2.trans and_comm))⟩

theorem Sound.meetsAll (h : Sound g o t) (ho : o.Fits g) (ps : List BlockId)
    (acc : Option BlockId) (hacc : ∀ a ∈ acc, (t.get? a).isSome) :
    MeetsAll t o ps acc (t.meetAll o (2 * g.blocks.size) ps acc) ∧
      (∀ d ∈ t.meetAll o (2 * g.blocks.size) ps acc, (t.get? d).isSome ∧
        ∀ x, t.Above x d ↔
          (∀ a ∈ acc, t.Above x a) ∧ ∀ p ∈ ps, (t.get? p).isSome → t.Above x p) ∧
      (t.meetAll o (2 * g.blocks.size) ps acc = none →
        acc = none ∧ ∀ p ∈ ps, t.get? p = none) := by
  induction ps generalizing acc with
  | nil =>
    refine ⟨.nil acc, fun d hd => ⟨hacc d hd, fun x => ?_⟩, fun hnone => ⟨hnone, nofun⟩⟩
    simp [show acc = some d from hd]
  | cons p ps ih =>
    unfold meetAll
    cases hp : t.get? p with
    | none =>
      obtain ⟨hmeets, hsome, hnone⟩ := ih acc hacc
      refine ⟨.skip hp hmeets, fun d hd => ?_, fun h => ?_⟩
      · simpa [hp] using hsome d hd
      · simpa [hp] using hnone h
    | some e =>
      have hp' : (t.get? p).isSome := isSome_of_eq_some hp
      cases acc with
      | none =>
        obtain ⟨hmeets, hsome, hnone⟩ := ih (some p) fun a ha => some.inj ha ▸ hp'
        refine ⟨.first hp' hmeets, fun d hd => ?_, fun h => absurd (hnone h).1 nofun⟩
        simpa [hp] using hsome d hd
      | some a =>
        have ha := hacc a rfl
        have hmeet := h.meets ho (2 * g.blocks.size) hp' ha (by omega)
        obtain ⟨hc, hiff⟩ := h.above_meet ho hmeet hp' ha
        obtain ⟨hmeets, hsome, hnone⟩ := ih (some _) fun b hb => some.inj hb ▸ hc
        refine ⟨.next hp' hmeet hmeets, fun d hd => ?_, fun h => absurd (hnone h).1 nofun⟩
        have := hsome d hd
        simpa [hp, hiff, and_left_comm, and_assoc] using this

/-! ## One block -/

/-- The dominator of `b` becomes `d`, the meet of its predecessors in the tree so far. -/
structure Refines (g : Graph) (o : Order) (t : DomTree) (b d : BlockId) (t' : DomTree) :
    Prop where
  sound : Sound g o t
  size : t'.idom.items.size = t.idom.items.size
  get (x : BlockId) : t'.get? x = if b = x then some d else t.get? x
  ne : b ≠ Graph.entry
  meet : (t.get? d).isSome ∧
    ∀ x, t.Above x d ↔ ∀ p, b ∈ g.succsOf p → (t.get? p).isSome → t.Above x p
  pred : ∃ p, b ∈ g.succsOf p ∧ (t.get? p).isSome ∧ o.number b < o.number p

/-- What is above a block after `k` sweeps is on all paths to it of at most `k` blocks. -/
def Exact (g : Graph) (t : DomTree) (k : Nat) (b : BlockId) : Prop :=
  ∀ c, g.Avoids c k b → (t.get? b).isSome ∧ ¬ t.Above c b

namespace Refines

variable (h : Refines g o t b d t')

include h

theorem parent? (x : BlockId) :
    t'.parent? x = if b = x then some d else t.parent? x := by grind [parent?, h.ne, h.get]

theorem isSome (hx : (t.get? x).isSome) : (t'.get? x).isSome := by
  rw [h.get]
  split
  · rfl
  · exact hx

theorem low : o.number b < o.number d ∧ g.Low o d b := by
  obtain ⟨p, hp, hsome, hlt⟩ := h.pred
  obtain ⟨-, hlow, hor⟩ := h.sound.above ((h.meet.2 d).1 .refl p hp hsome) hsome
  have hd : o.number b < o.number d := by
    rcases hor with rfl | hor
    · exact hlt
    · exact Nat.lt_trans hlt hor
  exact ⟨hd, .step hlow hp hd⟩

theorem not_above : ¬ t.Above b d := by
  intro hb
  have hlt := h.low.1
  rcases (h.sound.above hb h.meet.1).2.2 with rfl | hlt' <;> omega

theorem of_above (hc : t'.Above c x) :
    t.Above c x ∨ t.Above b x ∧ t.Above c d := by
  induction hc with
  | refl => exact .inl .refl
  | @up x e he _ ih =>
    rw [h.parent?] at he
    split at he
    · next hx =>
      cases hx
      cases he
      exact .inr ⟨.refl, ih.resolve_right fun hb => h.not_above hb.1⟩
    · exact ih.imp (.up he) fun hb => ⟨.up he hb.1, hb.2⟩

theorem above (hc : t.Above c x) :
    t'.Above c x ∨ t'.Above b x ∧ t.Above b x ∧ t.Above c b := by
  induction hc with
  | refl => exact .inl .refl
  | @up x e he hc ih =>
    by_cases hx : b = x
    · subst hx
      exact .inr ⟨.refl, .refl, .up he hc⟩
    · have he' : t'.parent? x = some e := by rw [h.parent?, if_neg hx, he]
      exact ih.imp (.up he') fun hb => ⟨.up he' hb.1, .up he hb.2.1, hb.2.2⟩

theorem reaches : g.Reaches b := by
  obtain ⟨p, hp, hsome, -⟩ := h.pred
  exact .step (h.sound.reaches_of_isSome hsome) hp

/-- What dominates the block itself dominates all its predecessors. -/
theorem above_of_dominates (ha : g.Dominates a b) :
    t'.Above a b := by
  by_cases hab : a = b
  · subst hab
    exact .refl
  · have had : t.Above a d := (h.meet.2 a).2 fun p hp hsome => h.sound.dominators hsome
      (ha.of_succ (h.sound.reaches_of_isSome hsome) hp hab)
    refine .up (by rw [h.parent?, if_pos rfl]) ((h.above had).resolve_right fun hb => ?_)
    exact h.not_above hb.2.1

theorem sound' : Sound g o t' where
  size := h.size.trans h.sound.size
  entry := by rw [h.get, if_neg h.ne, h.sound.entry]
  reaches {x e} he := by grind [h.get, h.reaches, h.sound.reaches]
  parent {x e} he := by
    have hparent := @h.parent?
    have hisSome := @h.isSome
    have hmeet := @h.meet
    have hlow := @h.low
    have hparent' := @h.sound.parent
    grind
  dominators {a x} hx ha := by
    by_cases hbx : b = x
    · subst hbx
      exact h.above_of_dominates ha
    · rw [h.get, if_neg hbx] at hx
      rcases h.above (h.sound.dominators hx ha) with hax | ⟨hbx', hold, hab⟩
      · exact hax
      · -- the way down from `b` avoids `a`, so that `a` dominates `b` too
        obtain ⟨hb, hlow, -⟩ := h.sound.above hold hx
        rcases (h.sound.above hab hb).2.2 with rfl | hlt
        · exact hbx'
        · exact (h.above_of_dominates (hlow.dominates h.reaches hlt ha)).trans hbx'

theorem not_above_of_avoids (hk : ∀ p, Exact g t k p)
    (hc : g.Avoids c (k + 1) b) : c ≠ b ∧ ¬ t.Above c d := by
  obtain ⟨p, hp, hav, hne⟩ := hc.pred h.ne
  obtain ⟨hsome, hnot⟩ := hk p c hav
  exact ⟨hne, fun hcd => hnot ((h.meet.2 c).1 hcd p hp hsome)⟩

theorem exact_self (hk : ∀ p, Exact g t k p) :
    Exact g t' (k + 1) b := by
  intro c hc
  obtain ⟨hne, hnot⟩ := h.not_above_of_avoids hk hc
  refine ⟨by rw [h.get, if_pos rfl]; rfl, fun hcb => ?_⟩
  cases hcb with
  | refl => exact hne rfl
  | up he hcd => grind [h.parent?, h.of_above]

theorem exact_other (hk : ∀ p, Exact g t k p) (hj : j ≤ k + 1) (hx : Exact g t j x) :
    Exact g t' j x := by
  intro c hc
  obtain ⟨hsome, hnot⟩ := hx c hc
  refine ⟨h.isSome hsome, fun hcx => ?_⟩
  rcases h.of_above hcx with hcx | ⟨hbx, hcd⟩
  · exact hnot hcx
  · rcases hc.through b with hb | hcb
    · exact (hx b hb).2 hbx
    · exact (h.not_above_of_avoids hk (hcb.mono hj)).2 hcd

end Refines

/-! ## Sweeps -/

/-- A sweep in which every meet comes to an end. -/
def Sweeps (g : Graph) (o : Order) (t : DomTree) : Prop :=
  ∀ l b r, o.rpo = l ++ b :: r → b ≠ Graph.entry →
    MeetsAll (l.foldl (refine g o) (t, false)).1 o (g.predsOf b) none
      ((l.foldl (refine g o) (t, false)).1.meetAll o (2 * g.blocks.size) (g.predsOf b) none)

/-- Sweeps one after the other up to one that changes nothing. -/
inductive Settles (g : Graph) (o : Order) : DomTree → DomTree → Prop where
  | stop {t t' : DomTree} : Sweeps g o t → sweep g o t = (t', false) → Settles g o t t'
  | again {t t' t'' : DomTree} : Sweeps g o t → sweep g o t = (t', true) → Settles g o t' t'' →
      Settles g o t t''

theorem refine_unchanged (h : (refine g o st b).2 = false) :
    refine g o st b = st := by grind [refine]

theorem foldl_refine_unchanged (l : List BlockId) (h : (l.foldl (refine g o) st).2 = false) :
    l.foldl (refine g o) st = st := by
  induction l generalizing st with
  | nil => rfl
  | cons b l ih => grind [refine_unchanged]

theorem set_get (t : DomTree) (b d x : BlockId) :
    (⟨t.idom.set b (some d)⟩ : DomTree).get? x = if b = x then some d else t.get? x :=
  SideTable.getD_set ..

theorem set_size (hb : b < t.idom.items.size) :
    (t.idom.set b (some d)).items.size = t.idom.items.size := by
  simp [SideTable.set, SideTable.reach, hb]

variable (h : Sound g o t) (hg : g.Paired) (ho : o.Fits g)

include h hg ho in
/-- The turn of a block with a predecessor that is done. -/
theorem Sound.refines (hb : b ≠ Graph.entry) (hp : b ∈ g.succsOf p) (hsome : (t.get? p).isSome)
    (hlt : o.number b < o.number p) :
    ∃ d, MeetsAll t o (g.predsOf b) none (some d) ∧
      t.meetAll o (2 * g.blocks.size) (g.predsOf b) none = some d ∧
      Refines g o t b d ⟨t.idom.set b (some d)⟩ := by
  obtain ⟨hmeets, hmeet, hnone⟩ := h.meetsAll ho (g.predsOf b) none nofun
  cases hd : t.meetAll o (2 * g.blocks.size) (g.predsOf b) none with
  | none =>
    rw [(hnone hd).2 p (hg.mem_preds.1 hp)] at hsome
    cases hsome
  | some d =>
    obtain ⟨hdsome, hiff⟩ := hmeet d hd
    refine ⟨d, hd ▸ hmeets, rfl, h, set_size ?_, set_get t b d, hb, ⟨hdsome, fun x => ?_⟩,
      p, hp, hsome, hlt⟩
    · rw [h.size]
      exact hg.lt_size hp
    · grind [hg.mem_preds]

theorem refine_eq (st : DomTree × Bool) (hb : b ≠ Graph.entry)
    (hd : st.1.meetAll o (2 * g.blocks.size) (g.predsOf b) none = some d) :
    refine g o st b =
      if st.1.get? b = some d then st else (⟨st.1.idom.set b (some d)⟩, true) := by
  rw [refine, if_neg hb, hd]

theorem Refines.keep (h : Refines g o t b d t') (hd : t.get? b = some d) :
    Refines g o t b d t := by
  refine ⟨h.sound, rfl, fun x => ?_, h.ne, h.meet, h.pred⟩
  split
  · next hx => rw [← hx, hd]
  · rfl

/-- A tree in the course of a sweep, of which the blocks of `l` have had their turn. -/
structure Swept (g : Graph) (o : Order) (k : Nat) (l : List BlockId) (t : DomTree) : Prop where
  sound : Sound g o t
  exact (x : BlockId) : Exact g t k x
  done {x : BlockId} : x ∈ l → (t.get? x).isSome ∧ Exact g t (k + 1) x

include h hg ho in
theorem Swept.upTo (hk : ∀ x, Exact g t k x) (l r : List BlockId) (hrpo : o.rpo = l ++ r) :
    Swept g o k l (l.foldl (refine g o) (t, false)).1 := by
  induction l using reverseRecOn generalizing r with
  | nil => exact ⟨h, hk, nofun⟩
  | append_singleton l b ih =>
    rw [append_assoc] at hrpo
    have hl := ih _ hrpo
    rw [foldl_append, foldl_cons, foldl_nil]
    by_cases hb : b = entry
    · rw [refine, if_pos hb]
      refine ⟨hl.sound, hl.exact, fun hx => ?_⟩
      rcases mem_append.1 hx with hx | hx
      · exact hl.done hx
      · rw [mem_singleton.1 hx, hb, hl.sound.entry]
        refine ⟨rfl, fun c hc => ⟨by rw [hl.sound.entry]; rfl, fun habove => ?_⟩⟩
        obtain ⟨xs, hxs, hnot, -⟩ := hc
        exact hnot (Sound.above_entry habove ▸ hxs.mem_self)
    · obtain ⟨p, hp, hpb⟩ := (ho.parent hrpo).resolve_left hb
      obtain ⟨d, -, hd, href⟩ := hl.sound.refines hg ho hb hpb (hl.done hp).1
        (ho.number_lt_of_mem hrpo hp)
      obtain ⟨t', ht', href⟩ : ∃ t', (refine g o (l.foldl (refine g o) (t, false)) b).1 = t' ∧
          Refines g o (l.foldl (refine g o) (t, false)).1 b d t' := by grind [refine_eq, href.keep]
      rw [ht']
      refine ⟨href.sound', fun x => href.exact_other hl.exact (Nat.le_succ k) (hl.exact x),
        fun hx => ?_⟩
      rcases mem_append.1 hx with hx | hx
      · exact ⟨href.isSome (hl.done hx).1, href.exact_other hl.exact (Nat.le_refl _) (hl.done hx).2⟩
      · grind [href.get, href.exact_self, hl.exact]

include h hg ho in
theorem Sound.sweep (hk : ∀ x, Exact g t k x) :
    Sweeps g o t ∧ Sound g o (sweep g o t).1 ∧ ∀ x, Exact g (sweep g o t).1 (k + 1) x := by
  have hall := Swept.upTo h hg ho hk o.rpo [] (append_nil _).symm
  refine ⟨fun l b r hrpo hb => ?_, hall.sound, fun x c hc => ?_⟩
  · exact ((Swept.upTo h hg ho hk l _ hrpo).sound.meetsAll ho _ none nofun).1
  · obtain ⟨xs, hxs, -⟩ := id hc
    exact (hall.done (ho.mem.2 hxs.reaches)).2 c hc

/-! ## The tree at the end -/

/-- If no path is too long, what is above a block are its dominators. -/
theorem Sound.above_iff (h : Sound g o t) (hk : ∀ k x, Exact g t k x) (hb : (t.get? b).isSome) :
    t.Above a b ↔ g.Dominates a b := by
  refine ⟨fun ha => ⟨h.reaches_of_isSome hb, fun xs hxs => ?_⟩, h.dominators hb⟩
  by_contra hnot
  exact (hk xs.length b a ⟨xs, hxs, hnot, Nat.le_refl _⟩).2 ha

theorem Exact.isSome (hk : ∀ k x, Exact g t k x) (hg : g.Paired) (hb : g.Reaches b) :
    (t.get? b).isSome := by
  obtain ⟨xs, hxs⟩ := hb.trail
  refine (hk xs.length b g.blocks.size ⟨xs, hxs, fun hmem => ?_, Nat.le_refl _⟩).1
  obtain ⟨ys, hys, -⟩ := hxs.upTo hmem
  exact Nat.lt_irrefl _ (hg.reaches_lt hys.reaches)

theorem Above.strict (h : t.Above a b) (hne : a ≠ b) : ∃ d, t.parent? b = some d ∧ t.Above a d := by
  cases h with
  | refl => exact absurd rfl hne
  | up hd h => exact ⟨_, hd, h⟩

/-- In a tree that is exact a block has the dominator that it would get. -/
theorem Refines.get?_eq (h : Refines g o t b d t') (hg : g.Paired)
    (hk : ∀ k x, Exact g t k x) : t.get? b = some d := by
  have hk' : ∀ k x, Exact g t' k x :=
    fun k x => h.exact_other (hk k) (Nat.le_succ k) (hk k x)
  have hd : t'.parent? b = some d := by rw [h.parent?, if_pos rfl]
  have hb := Exact.isSome hk hg h.reaches
  obtain ⟨e, he⟩ := isSome_iff_exists.1 hb
  have he' : t.parent? b = some e := (parent?_of_ne h.ne).trans he
  obtain ⟨hesome, hbe, -⟩ := h.sound.parent he'
  have hiff : ∀ a, t.Above a b ↔ t'.Above a b := fun a =>
    (h.sound.above_iff hk hb).trans (h.sound'.above_iff hk' (h.isSome hb)).symm
  have hbd := h.low.1
  obtain ⟨_, hup, hde⟩ := ((hiff d).2 (.up hd .refl)).strict (by rintro rfl; omega)
  cases he'.symm.trans hup
  obtain ⟨_, hup, hed⟩ := ((hiff e).1 (.up he' .refl)).strict (by rintro rfl; omega)
  cases hd.symm.trans hup
  rcases (h.sound.above hde hesome).2.2 with rfl | hlt
  · exact he
  · rcases (h.sound'.above hed (h.isSome h.meet.1)).2.2 with rfl | hlt'
    · exact he
    · omega

include h hg ho in
theorem Sound.foldl_refine (hk : ∀ k x, Exact g t k x) (l r : List BlockId) (hrpo : o.rpo = l ++ r)
    :
    l.foldl (refine g o) (t, false) = (t, false) := by
  induction l using reverseRecOn generalizing r with
  | nil => rfl
  | append_singleton l b ih =>
    rw [append_assoc] at hrpo
    rw [foldl_append, foldl_cons, foldl_nil, ih _ hrpo]
    by_cases hb : b = Graph.entry
    · rw [refine, if_pos hb]
    · obtain ⟨p, hp, hpb⟩ := (ho.parent hrpo).resolve_left hb
      have hreaches : g.Reaches p := ho.mem.1 (by simp [hrpo, hp])
      obtain ⟨d, -, hd, href⟩ := h.refines hg ho hb hpb (Exact.isSome hk hg hreaches)
        (ho.number_lt_of_mem hrpo hp)
      rw [refine_eq _ hb hd, if_pos (href.get?_eq hg hk)]

theorem Exact.of_size (hg : g.Paired) (h : ∀ x, Exact g t g.blocks.size x) (k : Nat)
    (x : BlockId) : Exact g t k x := fun c hc => h x c (hc.size hg)

include h hg ho in
/-- There are at most as many sweeps as blocks that change anything. -/
theorem Sound.settles (hk : ∀ x, Exact g t k x) (fuel : Nat) (hle : k ≤ g.blocks.size)
    (hfuel : g.blocks.size < fuel + k) :
    Settles g o t (settle g o fuel t) ∧ Sound g o (settle g o fuel t) ∧
      ∀ k x, Exact g (settle g o fuel t) k x := by
  induction fuel generalizing t k with
  | zero => omega
  | succ fuel ih =>
    obtain ⟨hsweeps, hsound, hexact⟩ := h.sweep hg ho hk
    cases hchanged : (DomTree.sweep g o t).2 with
    | false =>
      -- nothing changes, so the tree is exact for longer and longer paths
      have hsame : DomTree.sweep g o t = (t, false) := foldl_refine_unchanged _ hchanged
      have hall : ∀ j x, Exact g t (k + j) x := by
        intro j
        induction j with
        | zero => exact hk
        | succ j ihj =>
          have := (h.sweep hg ho ihj).2.2
          rwa [hsame] at this
      have hsettle : settle g o (fuel + 1) t = t := by
        rw [settle, hsame]
        rfl
      rw [hsettle]
      exact ⟨.stop hsweeps hsame, h, fun j x c hc => hall j x c (hc.mono (Nat.le_add_left j k))⟩
    | true =>
      have hlt : k < g.blocks.size := by
        refine Nat.lt_of_le_of_ne hle ?_
        rintro rfl
        have := h.foldl_refine hg ho (Exact.of_size hg hk) o.rpo [] (append_nil _).symm
        have hfalse : (DomTree.sweep g o t).2 = false := congrArg Prod.snd this
        rw [hchanged] at hfalse
        cases hfalse
      have hsettle : settle g o (fuel + 1) t = settle g o fuel (DomTree.sweep g o t).1 := by
        rw [settle]
        exact if_pos hchanged
      rw [hsettle]
      obtain ⟨hsettles, hrest⟩ := ih hsound hexact hlt (by omega)
      exact ⟨.again hsweeps (Prod.ext rfl hchanged) hsettles, hrest⟩

theorem Sound.isAbove_iff (h : Sound g o t) (ho : o.Fits g) (fuel : Nat)
    (hfuel : ∀ d, t.parent? b = some d → g.blocks.size ≤ fuel + o.number b) :
    t.isAbove a fuel b = true ↔ ∃ d, t.parent? b = some d ∧ t.Above a d := by
  induction fuel generalizing b with
  | zero =>
    refine iff_of_false Bool.false_ne_true ?_
    rintro ⟨d, hd, -⟩
    have := hfuel d hd
    have := ho.number_lt (h.reaches_of_parent? hd)
    omega
  | succ fuel ih =>
    unfold isAbove
    cases hd : t.parent? b with
    | none => exact iff_of_false Bool.false_ne_true (by rintro ⟨d, hd, -⟩; cases hd)
    | some d =>
      have hup := (h.parent hd).2.1
      have hlow := hfuel d hd
      rw [Bool.or_eq_true, decide_eq_true_eq, ih (b := d) fun e he => by omega]
      constructor
      · rintro (rfl | ⟨e, he, hae⟩)
        · exact ⟨d, rfl, .refl⟩
        · exact ⟨d, rfl, .up he hae⟩
      · rintro ⟨_, hd', had⟩
        cases hd'
        by_cases hne : a = d
        · exact .inl hne.symm
        · exact .inr (had.strict hne)

section

variable (h : Sound g o t) (hg : g.Paired) (ho : o.Fits g) (hk : ∀ k x, Exact g t k x)

include h hg ho hk in
theorem Sound.dominates_iff : t.dominates a b = true ↔ g.Dominates a b := by
  unfold dominates
  split
  · next hab =>
    subst hab
    exact ⟨fun ha => ⟨h.reaches_of_isSome ha, fun _ hxs => hxs.mem_self⟩,
      fun ha => Exact.isSome hk hg ha.1⟩
  · next hab =>
    rw [h.isAbove_iff ho _ fun _ _ => by rw [h.size]; exact Nat.le_add_right _ _]
    constructor
    · rintro ⟨d, hd, had⟩
      exact (h.above_iff hk (Exact.isSome hk hg (h.reaches_of_parent? hd))).1 (.up hd had)
    · exact fun ha => ((h.above_iff hk (Exact.isSome hk hg ha.1)).2 ha).strict hab

include h hg hk in
theorem Sound.parent?_eq_none : t.parent? b = none ↔ b = Graph.entry ∨ ¬ g.Reaches b := by
  constructor
  · grind [parent?_of_ne, Exact.isSome]
  · rintro (rfl | hb)
    · rfl
    · exact eq_none_iff_forall_not_mem.2 fun d hd => hb (h.reaches_of_parent? hd)

include h hg hk in
theorem Sound.parent?_eq_some : t.parent? b = some d ↔ g.Dominates d b ∧ d ≠ b ∧
    ∀ a, g.Dominates a b → a ≠ b → g.Dominates a d := by
  have hiff : ∀ {a b}, g.Reaches b → (t.Above a b ↔ g.Dominates a b) :=
    fun hb => h.above_iff hk (Exact.isSome hk hg hb)
  have hup : ∀ {b d}, t.parent? b = some d → g.Dominates d b ∧ d ≠ b ∧
      ∀ a, g.Dominates a b → a ≠ b → g.Dominates a d := by
    intro b d hd
    have hb := h.reaches_of_parent? hd
    obtain ⟨hsome, hlt, -⟩ := h.parent hd
    refine ⟨(hiff hb).1 (.up hd .refl), by rintro rfl; omega, fun a ha hne => ?_⟩
    obtain ⟨_, hd', had⟩ := ((hiff hb).2 ha).strict hne
    cases hd.symm.trans hd'
    exact (h.above_iff hk hsome).1 had
  refine ⟨hup, ?_⟩
  rintro ⟨hdom, hne, hall⟩
  obtain ⟨e, he, hde⟩ := ((hiff hdom.1).2 hdom).strict hne
  obtain ⟨hdom', hne', -⟩ := hup he
  have hed := h.dominators (h.above hde (h.parent he).1).1 (hall e hdom' hne')
  rw [h.antisymm hde hed (h.parent he).1, he]

end

end DomTree

/-- The tree that the construction begins with. -/
def DomTree.start (n : Nat) : DomTree :=
  ⟨(SideTable.filled n).set Graph.entry (some Graph.entry)⟩

theorem DomTree.get?_start (n : Nat) (b : BlockId) :
    (DomTree.start n).get? b = if Graph.entry = b then some Graph.entry else none := by
  grind [SideTable.getD_set, SideTable.getD_filled, DomTree.get?, DomTree.start]

theorem DomTree.sound_start (hg : g.Paired) : Sound g o (.start g.blocks.size) where
  size := by
    refine (set_size (t := ⟨SideTable.filled g.blocks.size⟩) ?_).trans ?_ <;>
      simp [SideTable.filled, hg.nonempty]
  entry := get?_start ..
  reaches {b d} hd := by
    rw [get?_start] at hd
    split at hd
    · next hb => exact hb ▸ .entry
    · cases hd
  parent {b d} hd := by grind [parent?, get?_start]
  dominators {a b} hb ha := by
    rw [get?_start] at hb
    split at hb
    · next heq =>
      subst heq
      rw [mem_singleton.1 (ha.2 _ .entry)]
      exact .refl
    · cases hb

/-- Sweeping comes to an end, with a tree in which exactly the dominators of a block are above it. -/
theorem Graph.Paired.settles_domTree (hg : g.Paired) :
    DomTree.Settles g g.order (.start g.blocks.size) (g.domTree g.order) ∧
      DomTree.Sound g g.order (g.domTree g.order) ∧
      ∀ k x, DomTree.Exact g (g.domTree g.order) k x :=
  (DomTree.sound_start hg).settles hg hg.fits (k := 0)
    (fun _ _ hc => absurd hc Graph.Avoids.not_zero) _ (Nat.zero_le _)
    (Nat.lt_succ_of_le (Nat.le_mul_of_pos_left _ hg.nonempty))

theorem Graph.Paired.dominates_domTree (hg : g.Paired) :
    (g.domTree g.order).dominates a b = true ↔ g.Dominates a b :=
  hg.settles_domTree.2.1.dominates_iff hg hg.fits hg.settles_domTree.2.2

/-- The order of the blocks and the dominator tree are found in finitely many steps.  The tree
    tells which blocks dominate which, and has for each reachable block but the entry the one
    dominator of it that all its other dominators dominate. -/
theorem Graph.Edged.domTree_dominates (h : g.Edged) :
    Walks g [entry] (BitSet.withCapacity g.blocks.size, []) (g.order.seen, g.order.rpo) ∧
      DomTree.Settles g g.order (.start g.blocks.size) (g.domTree g.order) ∧
      (∀ a b, (g.domTree g.order).dominates a b = true ↔ g.Dominates a b) ∧
      (∀ b, (g.domTree g.order).parent? b = none ↔ b = entry ∨ ¬ g.Reaches b) ∧
      ∀ b d, (g.domTree g.order).parent? b = some d ↔ g.Dominates d b ∧ d ≠ b ∧
        ∀ a, g.Dominates a b → a ≠ b → g.Dominates a d := by
  have hg := h.paired
  obtain ⟨hsettles, hs, hk⟩ := hg.settles_domTree
  exact ⟨hg.walks_order, hsettles, fun _ _ => hg.dominates_domTree,
    fun _ => hs.parent?_eq_none hg hk, fun _ _ => hs.parent?_eq_some hg hk⟩

/-- Blocks 2 and 3 lead to each other and are both entered from outside, and 2 leads to the exit
    by an exceptional edge.  Nothing leads to block 4. -/
def knotted : Except Fault Graph := do
  let g ← (Graph.new "knotted").newBlock.2.newBlock.2.newBlock.2.addEdge 0 2
  let g ← g.addEdge 0 3
  let g ← g.addEdge 2 3
  let g ← g.addEdge 3 2
  let g ← g.addEdge 4 3
  let g ← g.addEdge 3 1
  g.addHandlerEdge 2 1

/-- A case of it: a path to the exit may leave out either block, so only the entry dominates it
    besides itself. -/
theorem domTree_dominates_knotted : ∃ g, knotted = .ok g ∧ g.Edged ∧
    (g.domTree g.order).parent? Graph.exit = some 0 ∧ g.Dominates 0 Graph.exit ∧
    ¬ g.Dominates 2 Graph.exit ∧ ¬ g.Dominates 3 Graph.exit ∧ ¬ g.Reaches 4 := by
  have hedged : ∀ g, knotted = .ok g → g.Edged := by
    have hedge : ∀ {g : Graph} x y, g.Edged → x < g.blocks.size → y < g.blocks.size →
        ((g.modifyBlock x (·.addSucc y)).modifyBlock y (·.addPred x)).Edged :=
      fun _ _ h hx hy => .edge h (Emit.updateBlocks_eq_ok.2 ⟨hx, hy, rfl⟩)
    intro g hg
    cases hg
    refine .handler (hedge 3 1 (hedge 4 3 (hedge 3 2 (hedge 2 3 (hedge 0 3 (hedge 0 2 (.block
      (.block (.block (.new _)))) ?_ ?_) ?_ ?_) ?_ ?_) ?_ ?_) ?_ ?_) ?_ ?_)
      (Emit.updateBlocks_eq_ok.2 ⟨?_, ?_, rfl⟩) <;> decide
  have hcheck : passes knotted (fun g => decide (
      (g.domTree g.order).parent? Graph.exit = some 0 ∧
      (g.domTree g.order).dominates 0 Graph.exit = true ∧
      (g.domTree g.order).dominates 2 Graph.exit = false ∧
      (g.domTree g.order).dominates 3 Graph.exit = false ∧
      (g.domTree g.order).parent? 4 = none)) = true := by decide +kernel
  obtain ⟨g, hg, hexit, h₀, h₂, h₃, h₄⟩ := of_passes_decide hcheck
  obtain ⟨-, -, hdom, hnone, -⟩ := (hedged g hg).domTree_dominates
  refine ⟨g, hg, hedged g hg, hexit, (hdom 0 _).1 h₀, fun h => ?_, fun h => ?_, ?_⟩
  · exact Bool.false_ne_true (h₂.symm.trans ((hdom 2 _).2 h))
  · exact Bool.false_ne_true (h₃.symm.trans ((hdom 3 _).2 h))
  · exact ((hnone 4).1 h₄).resolve_left (by decide)

end MethodGraph
