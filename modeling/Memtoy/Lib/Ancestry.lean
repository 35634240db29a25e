import Mathlib.Logic.Function.Basic
import Mathlib.Logic.Relation

/-!
# Ancestry — parents that are never forgotten

A tree given by the parent of each node. Nodes may stop being there, but a parent stays a
parent; so what is below a node does not change when others come and go.
-/

namespace Ancestry

universe u

variable {α : Type u} {parent : α → Option α} {a b c g n : α}

/-- `b` is `a` or descends from it. -/
def Below (parent : α → Option α) (a b : α) : Prop :=
  Relation.ReflTransGen (fun a b => parent b = some a) a b

theorem Below.refl (parent : α → Option α) (a : α) : Below parent a a :=
  Relation.ReflTransGen.refl

theorem Below.trans (hab : Below parent a b) (hbc : Below parent b c) : Below parent a c :=
  Relation.ReflTransGen.trans hab hbc

theorem Below.child (hab : Below parent a b) (hc : parent c = some b) : Below parent a c :=
  Relation.ReflTransGen.tail hab hc

/-- A node is below another through its parent. -/
theorem below_iff : Below parent a b ↔ a = b ∨ ∃ g, parent b = some g ∧ Below parent a g := by
  constructor
  · intro h
    rcases Relation.ReflTransGen.cases_tail h with h | ⟨g, hag, hg⟩
    · exact .inl h.symm
    · exact .inr ⟨g, hg, hag⟩
  · rintro (rfl | ⟨g, hg, hag⟩)
    · exact Below.refl parent a
    · exact hag.child hg

/-- Of two nodes above the same one, one is above the other. -/
theorem Below.total (hac : Below parent a c) (hbc : Below parent b c) :
    Below parent a b ∨ Below parent b a := by
  induction hac with
  | refl => exact .inr hbc
  | tail hag hg ih =>
      rcases below_iff.mp hbc with rfl | ⟨g', hg', hbg⟩
      · exact .inl (Relation.ReflTransGen.tail hag hg)
      · rw [hg, Option.some.injEq] at hg'
        exact ih (hg' ▸ hbg)

/-- Between a node and one below it that is there, the first that is there: its parent is
not, if the parent of the upper node is not. -/
theorem exists_top (alive : α → Prop) (hab : Below parent a b) (hb : alive b)
    (ha : ∀ g, parent a = some g → ¬ alive g) :
    ∃ t, Below parent a t ∧ Below parent t b ∧ alive t ∧ ∀ g, parent t = some g → ¬ alive g := by
  induction hab with
  | refl => exact ⟨a, Below.refl parent a, Below.refl parent a, hb, ha⟩
  | tail hag hg ih =>
      rename_i g b
      by_cases hlive : alive g
      · rcases ih hlive with ⟨t, hat, htg, ht⟩
        exact ⟨t, hat, htg.child hg, ht⟩
      · refine ⟨b, Relation.ReflTransGen.tail hag hg, Below.refl parent b, hb, ?_⟩
        intro g' hg'
        rw [hg, Option.some.injEq] at hg'
        exact hg' ▸ hlive

section Update

variable [DecidableEq α] (hfresh : ∀ b, parent b ≠ some n)
include hfresh

omit [DecidableEq α] in
theorem eq_of_below_fresh (hnb : Below parent n b) : b = n := by
  induction hnb with
  | refl => rfl
  | tail _ hg ih => exact absurd (ih ▸ hg) (hfresh _)

/-- A new node is above no other. -/
theorem below_update (hb : b ≠ n) (v : Option α) :
    Below (Function.update parent n v) a b ↔ Below parent a b := by
  constructor
  · intro h
    induction h with
    | refl => exact Below.refl parent a
    | tail hag hg ih =>
        rename_i g b
        rw [Function.update_of_ne hb] at hg
        exact (ih fun heq => hfresh b (heq ▸ hg)).child hg
  · intro h
    induction h with
    | refl => exact Below.refl _ a
    | tail hag hg ih =>
        rename_i g b
        refine (ih fun heq => hfresh b (heq ▸ hg)).child ?_
        rw [Function.update_of_ne hb]
        exact hg

/-- A new node is below its parent and what that is below. -/
theorem below_update_self (hg : g ≠ n) :
    Below (Function.update parent n (some g)) a n ↔ a = n ∨ Below parent a g := by
  rw [below_iff, Function.update_self]
  simp only [Option.some.injEq, exists_eq_left', below_update hfresh hg]

end Update

/-- Where parents are older, what is below a node is not older. -/
theorem Below.le {parent : Nat → Option Nat} {a b : Nat}
    (hold : ∀ n g, parent n = some g → g < n) (hab : Below parent a b) : a ≤ b := by
  induction hab with
  | refl => exact Nat.le_refl a
  | tail _ hg ih => exact Nat.le_of_lt (Nat.lt_of_le_of_lt ih (hold _ _ hg))

end Ancestry
