import Mathlib.Logic.Relation

/-!
# Trans — transition specs, reachable states, invariants

The small part of a TLA-style toolbox the developments above use: a spec is a
pair `Init`/`Next`, its reachable states are an inductive predicate, and every
safety theorem is an instance of one induction. `under` takes only the steps of a
labelled relation that meet a side condition, so that "every run whose steps all
meet `P`" is again a spec.
-/

namespace Trans

universe u v

/-- A state predicate. -/
abbrev StatePred (σ : Type u) := σ → Prop

/-- An action: a relation between the state before and the state after. -/
abbrev Action (σ : Type u) := σ → σ → Prop

/-- A specification `Init ∧ □[Next]`. -/
structure Spec (σ : Type u) where
  Init : StatePred σ
  Next : Action σ

namespace Spec

variable {σ : Type u} {τ : Type v}

/-- The states some finite run of the spec ends in. -/
inductive Reachable (S : Spec σ) : σ → Prop where
  | init {s : σ} : S.Init s → Reachable S s
  | step {s s' : σ} : Reachable S s → S.Next s s' → Reachable S s'

/-- Invariant induction: what holds initially and is kept by every step holds
in every reachable state. -/
theorem invariant {S : Spec σ} (inv : StatePred σ)
    (hinit : ∀ s, S.Init s → inv s)
    (hstep : ∀ s s', S.Next s s' → inv s → inv s') {s : σ} (h : S.Reachable s) : inv s := by
  induction h with
  | init hs => exact hinit _ hs
  | step _ hnext ih => exact hstep _ _ hnext ih

/-- The runs of a labelled step relation in which every step meets `P`. -/
def under {α : Type v} (init : StatePred σ) (step : α → Action σ) (P : σ → α → Prop) : Spec σ where
  Init := init
  Next := fun s s' => ∃ a, P s a ∧ step a s s'

end Spec

/-! ## Steps made of smaller steps -/

/-- What every small step keeps, a sequence of small steps keeps. -/
theorem preserved_of_star {σ : Type u} {r : Action σ} (inv : StatePred σ)
    (hstep : ∀ s s', r s s' → inv s → inv s') {s s' : σ}
    (h : Relation.ReflTransGen r s s') (hs : inv s) : inv s' := by
  induction h with
  | refl => exact hs
  | tail _ hlast ih => exact hstep _ _ hlast ih

/-- Runs whose steps lower a measure come to an end. -/
theorem acc_of_measure {σ : Type u} {r : Action σ} (inv : StatePred σ) (measure : σ → Nat)
    (hstep : ∀ s s', r s s' → inv s → inv s' ∧ measure s' < measure s) {s : σ} (hs : inv s) :
    Acc (fun s' s => r s s') s := by
  induction hm : measure s using Nat.strongRecOn generalizing s with
  | ind m ih =>
      refine Acc.intro s fun s' hr => ?_
      rcases hstep s s' hr hs with ⟨hs', hlt⟩
      exact ih (measure s') (hm ▸ hlt) hs' rfl

end Trans
