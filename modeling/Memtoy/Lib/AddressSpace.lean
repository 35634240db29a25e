import Mathlib.Data.Set.Basic
import Mathlib.Logic.Function.Basic

/-!
# AddressSpace — who has which addresses

A `Space` tells of each address whose it is. Areas are put into it over what is there, and
taken out again; a book of areas, one for each owner, says what should be where. `AtMost`
means that nobody has more than the book says, `Tiles` that everybody has exactly that. The
first is kept by all changes, the second as long as no area is put over another.
-/

namespace AddressSpace

universe u v

/-- Whose an address is, if it is anyone's. -/
abbrev Space (α : Type u) (ο : Type v) := α → Option ο

section Changes

variable {α : Type u} {ο : Type v} (m : Space α ο)

/-- The area goes to `o`, or to nobody, whoever had it. -/
def put (area : Set α) [DecidablePred (· ∈ area)] (o : Option ο) : Space α ο :=
  fun a => if a ∈ area then o else m a

/-- Whatever `o` has is given back. -/
def drop [DecidableEq ο] (o : ο) : Space α ο := fun a => if m a = some o then none else m a

variable {m}

theorem put_of_mem {area : Set α} [DecidablePred (· ∈ area)] {o : Option ο} {a : α}
    (h : a ∈ area) : put m area o a = o := if_pos h

theorem put_of_not_mem {area : Set α} [DecidablePred (· ∈ area)] {o : Option ο} {a : α}
    (h : a ∉ area) : put m area o a = m a := if_neg h

theorem drop_eq_some [DecidableEq ο] {o q : ο} {a : α} :
    drop m o a = some q ↔ m a = some q ∧ q ≠ o := by
  unfold drop
  by_cases h : m a = some o
  · rw [if_pos h, h]
    constructor
    · rintro ⟨⟩
    · rintro ⟨heq, hne⟩
      exact absurd (Option.some.inj heq).symm hne
  · rw [if_neg h]
    constructor
    · intro hq
      refine ⟨hq, ?_⟩
      rintro rfl
      exact h hq
    · exact fun hq => hq.1

end Changes

/-! ## A book of areas -/

section Books

variable {α : Type u} {ο : Type v} {m : Space α ο} {areas : ο → Set α}

/-- Nobody has an address outside of its area. -/
def AtMost (m : Space α ο) (areas : ο → Set α) : Prop := ∀ a o, m a = some o → a ∈ areas o

/-- Everybody has exactly its area. -/
def Tiles (m : Space α ο) (areas : ο → Set α) : Prop := ∀ a o, m a = some o ↔ a ∈ areas o

theorem Tiles.atMost (h : Tiles m areas) : AtMost m areas := fun a o => (h a o).mp

/-- Two areas share no address. -/
theorem Tiles.disjoint (h : Tiles m areas) {o q : ο} (hne : o ≠ q) :
    ∀ a ∈ areas o, a ∉ areas q := by
  intro a ho hq
  have heq : some o = some q := ((h a o).mpr ho).symm.trans ((h a q).mpr hq)
  exact hne (Option.some.inj heq)

theorem tiles_empty : Tiles (fun _ => none : Space α ο) (fun _ => ∅) :=
  fun _ _ => iff_of_false (by simp) (Set.notMem_empty _)

variable [DecidableEq ο] {area : Set α} [DecidablePred (· ∈ area)] {o : ο}

theorem AtMost.put (h : AtMost m areas) (hnone : areas o = ∅) :
    AtMost (put m area (some o)) (Function.update areas o area) := by
  intro a q hq
  by_cases ha : a ∈ area
  · rw [put_of_mem ha, Option.some.injEq] at hq
    rw [← hq, Function.update_self]
    exact ha
  · rw [put_of_not_mem ha] at hq
    have hne : q ≠ o := by
      rintro rfl
      have hmem := h a q hq
      rw [hnone] at hmem
      exact hmem
    rw [Function.update_of_ne hne]
    exact h a q hq

/-- An area is taken out with everything that is in it. -/
theorem AtMost.clear (h : AtMost m areas) (harea : areas o = area) :
    AtMost (AddressSpace.put m area none) (Function.update areas o ∅) := by
  intro a q hq
  by_cases ha : a ∈ area
  · rw [put_of_mem ha] at hq
    cases hq
  · rw [put_of_not_mem ha] at hq
    have hmem := h a q hq
    have hne : q ≠ o := by
      rintro rfl
      exact ha (harea ▸ hmem)
    rw [Function.update_of_ne hne]
    exact hmem

omit [DecidablePred (· ∈ area)] in
theorem AtMost.drop (h : AtMost m areas) : AtMost (drop m o) (Function.update areas o ∅) := by
  intro a q hq
  rw [drop_eq_some] at hq
  rw [Function.update_of_ne hq.2]
  exact h a q hq.1

/-- A new area is put where nothing is, or the book is wrong from then on. -/
theorem Tiles.put_iff (h : Tiles m areas) (hnone : areas o = ∅) :
    Tiles (put m area (some o)) (Function.update areas o area) ↔
      ∀ q, q ≠ o → ∀ a ∈ area, a ∉ areas q := by
  constructor
  · intro hput q hne
    have hdisj := hput.disjoint hne.symm
    rw [Function.update_self, Function.update_of_ne hne] at hdisj
    exact hdisj
  · intro hdisj a q
    by_cases ha : a ∈ area
    · rw [put_of_mem ha, Option.some.injEq]
      by_cases hq : q = o
      · rw [hq, Function.update_self]
        exact iff_of_true rfl ha
      · rw [Function.update_of_ne hq]
        exact iff_of_false (Ne.symm hq) (hdisj q hq a ha)
    · rw [put_of_not_mem ha, h a q]
      by_cases hq : q = o
      · rw [hq, Function.update_self, hnone]
        exact iff_of_false (Set.notMem_empty a) ha
      · rw [Function.update_of_ne hq]

theorem Tiles.clear (h : Tiles m areas) (harea : areas o = area) :
    Tiles (AddressSpace.put m area none) (Function.update areas o ∅) := by
  intro a q
  by_cases ha : a ∈ area
  · rw [put_of_mem ha]
    by_cases hq : q = o
    · rw [hq, Function.update_self]
      exact iff_of_false (by simp) (Set.notMem_empty a)
    · rw [Function.update_of_ne hq]
      exact iff_of_false (by simp)
        (h.disjoint (Ne.symm hq) a (harea ▸ ha))
  · rw [put_of_not_mem ha, h a q]
    by_cases hq : q = o
    · rw [hq, Function.update_self, harea]
      exact iff_of_false ha (Set.notMem_empty a)
    · rw [Function.update_of_ne hq]

omit [DecidablePred (· ∈ area)] in
theorem Tiles.drop (h : Tiles m areas) : Tiles (drop m o) (Function.update areas o ∅) := by
  intro a q
  rw [drop_eq_some, h a q]
  by_cases hq : q = o
  · rw [hq, Function.update_self]
    exact iff_of_false (fun hc => hc.2 rfl) (Set.notMem_empty a)
  · rw [Function.update_of_ne hq]
    exact and_iff_left hq

/-- What one step does to the space and the book; `P` says that it takes nothing from
anybody. -/
inductive Change (m : Space α ο) (areas : ο → Set α) :
    Prop → Space α ο → (ο → Set α) → Prop where
  | still : Change m areas True m areas
  | place {area : Set α} [DecidablePred (· ∈ area)] {o : ο} : areas o = ∅ →
      Change m areas (∀ q, q ≠ o → ∀ a ∈ area, a ∉ areas q) (put m area (some o))
        (Function.update areas o area)
  | clear {area : Set α} [DecidablePred (· ∈ area)] {o : ο} : areas o = area →
      Change m areas True (put m area none) (Function.update areas o ∅)
  | drop {o : ο} : Change m areas True (drop m o) (Function.update areas o ∅)

variable {P : Prop} {m' : Space α ο} {areas' : ο → Set α}

omit [DecidablePred (· ∈ area)] in
theorem AtMost.change (h : AtMost m areas) (hchange : Change m areas P m' areas') :
    AtMost m' areas' := by
  cases hchange with
  | still => exact h
  | place hnone => exact h.put hnone
  | clear harea => exact h.clear harea
  | drop => exact h.drop

omit [DecidablePred (· ∈ area)] in
theorem Tiles.change_iff (h : Tiles m areas) (hchange : Change m areas P m' areas') :
    Tiles m' areas' ↔ P := by
  cases hchange with
  | still => exact iff_of_true h trivial
  | place hnone => exact h.put_iff hnone
  | clear harea => exact iff_of_true (h.clear harea) trivial
  | drop => exact iff_of_true h.drop trivial

end Books

end AddressSpace
