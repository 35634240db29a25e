import Mathlib.Data.List.Basic

/-!
# Reader — a stream read to its end

A reader takes something off a stream, or finds it at its end. One that takes at least one
byte with every call comes to the end (`Consumes`), and what it gets on the way is `reads`.
-/

namespace Reader

universe u v

variable {α : Type u} {β : Type v} (next : List β → Option (α × List β))

/-- What the calls of a reader get; `fuel` bounds their number. -/
def readsFrom : (fuel : Nat) → List β → List α
  | 0, _ => []
  | fuel + 1, s =>
      match next s with
      | none => []
      | some (a, rest) => a :: readsFrom fuel rest

/-- All of them: there are no more calls than bytes. -/
def reads (s : List β) : List α := readsFrom next s.length s

/-- Every call takes something off the stream. -/
def Consumes : Prop :=
  ∀ (s : List β) (a : α) (rest : List β), next s = some (a, rest) → rest.length < s.length

variable {next}

/-- More fuel than bytes changes nothing. -/
theorem readsFrom_fuel (h : Consumes next) : ∀ {fuel fuel' : Nat} {s : List β},
    s.length ≤ fuel → s.length ≤ fuel' → readsFrom next fuel s = readsFrom next fuel' s := by
  have hzero : ∀ {fuel : Nat} {s : List β}, s.length ≤ 0 → readsFrom next fuel s = [] := by
    intro fuel s hs
    cases fuel with
    | zero => rfl
    | succ fuel =>
        rcases hr : next s with _ | ⟨a, rest⟩
        · simp only [readsFrom, hr]
        · have hlt := h _ _ _ hr
          omega
  intro fuel
  induction fuel with
  | zero => exact fun hs _ => (hzero hs).trans (hzero hs).symm
  | succ fuel ih =>
      intro fuel' s hs hs'
      cases fuel' with
      | zero => exact (hzero hs').trans (hzero hs').symm
      | succ fuel' =>
          simp only [readsFrom]
          rcases hr : next s with _ | ⟨a, rest⟩
          · rfl
          · have hlt := h _ _ _ hr
            exact congrArg (a :: ·) (ih (by omega) (by omega))

/-- What is read, from the first call on. -/
theorem reads_cons (h : Consumes next) {s rest : List β} {a : α}
    (hr : next s = some (a, rest)) : reads next s = a :: reads next rest := by
  have hlt := h _ _ _ hr
  obtain ⟨n, hn⟩ : ∃ n, s.length = n + 1 := ⟨s.length - 1, by omega⟩
  rw [reads, hn]
  simp only [readsFrom, hr]
  exact congrArg (a :: ·) (readsFrom_fuel h (by omega) (Nat.le_refl _))

/-- Induction along the calls. -/
theorem reads_induction (h : Consumes next) {P : List β → Prop}
    (hend : ∀ s, next s = none → P s)
    (hcall : ∀ s a rest, next s = some (a, rest) → P rest → P s) (s : List β) : P s := by
  induction hn : s.length using Nat.strongRecOn generalizing s with
  | ind n ih =>
      rcases hr : next s with _ | ⟨a, rest⟩
      · exact hend s hr
      · have hlt := h _ _ _ hr
        exact hcall s a rest hr (ih rest.length (by omega) rest rfl)

theorem reads_end {s : List β} (hr : next s = none) : reads next s = [] := by
  unfold reads
  cases hn : s.length with
  | zero => rfl
  | succ n => simp only [readsFrom, hr]

end Reader
