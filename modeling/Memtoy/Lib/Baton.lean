import Memtoy.Lib.Ancestry

/-!
# Baton — one turn, handed down a tree and back

Nodes of a tree take part in a turn: one above another waits for the child through which
the turn went down. Then all who take part are on one path, and at most one of them does
not wait. The rules below say how the turn may move.
-/

namespace Baton

open Ancestry

universe u

variable {α : Type u} {parent : α → Option α} {part part' : α → Prop} {waits waits' : α → α → Prop}
  {a b c n : α}

/-- Who takes part is on one path, and each but the last waits for the next one on it. -/
structure OnePath (parent : α → Option α) (part : α → Prop) (waits : α → α → Prop) : Prop where
  total : ∀ a b, part a → part b → Below parent a b ∨ Below parent b a
  down : ∀ a b, part a → part b → a ≠ b → Below parent a b →
    ∃ c, parent c = some a ∧ Below parent c b ∧ waits a c

namespace OnePath

/-- Nobody below one who does not wait takes part. -/
theorem last (h : OnePath parent part waits) (ha : part a) (hfree : ∀ c, ¬ waits a c)
    (hb : part b) : Below parent b a := by
  rcases h.total a b ha hb with hab | hba
  · by_cases heq : a = b
    · exact heq ▸ Below.refl parent a
    · rcases h.down a b ha hb heq hab with ⟨c, -, -, hwait⟩
      exact absurd hwait (hfree c)
  · exact hba

theorem none_below (h : OnePath parent part waits) (ha : part a) (hfree : ∀ c, ¬ waits a c)
    (hab : Below parent a b) (hne : a ≠ b) : ¬ part b := by
  intro hb
  rcases h.down a b ha hb hne hab with ⟨c, -, -, hwait⟩
  exact hfree c hwait

/-- Two who do not wait are the same. -/
theorem unique (h : OnePath parent part waits)
    (hanti : ∀ a b, Below parent a b → Below parent b a → a = b) (ha : part a) (hb : part b)
    (hfreea : ∀ c, ¬ waits a c) (hfreeb : ∀ c, ¬ waits b c) : a = b :=
  hanti a b (h.last hb hfreeb ha) (h.last ha hfreea hb)

/-- Some stop taking part; whoever waited still waits. -/
theorem shrink (h : OnePath parent part waits) (hpart : ∀ a, part' a → part a)
    (hwaits : ∀ a c, part' a → waits a c → waits' a c) : OnePath parent part' waits' where
  total := fun a b ha hb => h.total a b (hpart a ha) (hpart b hb)
  down := by
    intro a b ha hb hne hab
    rcases h.down a b (hpart a ha) (hpart b hb) hne hab with ⟨c, hc, hcb, hwait⟩
    exact ⟨c, hc, hcb, hwaits a c ha hwait⟩

/-- The last one hands the turn to a child and waits. -/
theorem pass (h : OnePath parent part waits) (ha : part a) (hfree : ∀ c, ¬ waits a c)
    (hc : parent c = some a) (hpart : ∀ b, part' b → part b ∨ b = c) (hwait : waits' a c)
    (hanti : ∀ a b, Below parent a b → Below parent b a → a = b)
    (hwaits : ∀ b d, waits b d → waits' b d) : OnePath parent part' waits' := by
  have hac : Below parent a c := (Below.refl parent a).child hc
  have habove : ∀ b, part' b → b ≠ c → Below parent b a := by
    intro b hb hne
    exact h.last ha hfree ((hpart b hb).resolve_right hne)
  constructor
  · intro b d hb hd
    by_cases hbc : b = c
    · by_cases hdc : d = c
      · exact .inl (by rw [hbc, hdc]; exact Below.refl parent c)
      · exact .inr (hbc ▸ (habove d hd hdc).trans hac)
    · by_cases hdc : d = c
      · exact .inl (hdc ▸ (habove b hb hbc).trans hac)
      · exact h.total b d ((hpart b hb).resolve_right hbc) ((hpart d hd).resolve_right hdc)
  · intro b d hb hd hne hbd
    by_cases hbc : b = c
    · -- below the child nobody takes part
      by_cases hdc : d = c
      · exact absurd (hbc.trans hdc.symm) hne
      · have hda := habove d hd hdc
        exact absurd (hanti d b (hda.trans (hbc ▸ hac)) hbd).symm hne
    · have hb' := (hpart b hb).resolve_right hbc
      by_cases hdc : d = c
      · by_cases hba : b = a
        · exact ⟨c, by rw [hba, hc], hdc ▸ Below.refl parent c, by rw [hba]; exact hwait⟩
        · rcases h.down b a hb' ha hba (habove b hb hbc) with ⟨x, hx, hxa, hw⟩
          exact ⟨x, hx, hdc ▸ hxa.trans hac, hwaits b x hw⟩
      · rcases h.down b d hb' ((hpart d hd).resolve_right hdc) hne hbd with ⟨x, hx, hxd, hw⟩
        exact ⟨x, hx, hxd, hwaits b x hw⟩

/-- When nobody is left below one who waited, it need not wait any more. -/
theorem back (h : OnePath parent part waits) (hpart : ∀ b, part' b → part b)
    (hnone : ∀ b, part' b → Below parent a b → b = a)
    (hwaits : ∀ b c, b ≠ a → waits b c → waits' b c) : OnePath parent part' waits' where
  total := fun b d hb hd => h.total b d (hpart b hb) (hpart d hd)
  down := by
    intro b d hb hd hne hbd
    by_cases hba : b = a
    · exact absurd (hba.trans (hnone d hd (hba ▸ hbd)).symm) hne
    · rcases h.down b d (hpart b hb) (hpart d hd) hne hbd with ⟨c, hc, hcd, hwait⟩
      exact ⟨c, hc, hcd, hwaits b c hba hwait⟩

/-- Nobody but one takes part. -/
theorem single (hpart : ∀ b, part b → b = a) : OnePath parent part waits where
  total := fun b d hb hd => .inl (by rw [hpart b hb, hpart d hd]; exact Below.refl parent a)
  down := fun b d hb hd hne _ => absurd ((hpart b hb).trans (hpart d hd).symm) hne

/-- The tree gets a node that does not take part. -/
theorem grow [DecidableEq α] (h : OnePath parent part waits) (hfresh : ∀ b, parent b ≠ some n)
    (hn : parent n = none) (hpart : ∀ b, part b → b ≠ n) (v : Option α) :
    OnePath (Function.update parent n v) part waits where
  total := by
    intro a b ha hb
    rw [below_update hfresh (hpart b hb), below_update hfresh (hpart a ha)]
    exact h.total a b ha hb
  down := by
    intro a b ha hb hne hab
    rw [below_update hfresh (hpart b hb)] at hab
    rcases h.down a b ha hb hne hab with ⟨c, hc, hcb, hwait⟩
    have hcn : c ≠ n := by
      intro heq
      rw [heq, hn] at hc
      cases hc
    refine ⟨c, by rw [Function.update_of_ne hcn, hc], ?_, hwait⟩
    rw [below_update hfresh (hpart b hb)]
    exact hcb

end OnePath

end Baton
