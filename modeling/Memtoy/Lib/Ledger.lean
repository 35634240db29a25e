import Mathlib.Data.List.Induction
import Mathlib.Logic.Function.Basic

/-!
# Ledger — who holds what, replayed from a log

A log of acquisitions and releases, each made under a key. A key holds at most
one thing at a time; `replay` runs the log and fails at the first event that
does not fit: an acquisition under a key that already holds something, or a
release of something the key does not hold. A log that replays pairs every
acquisition with at most one release and every release with exactly one
acquisition (`Paired`).
-/

namespace Ledger

universe u v

/-- One entry of the log. -/
inductive Event (κ : Type u) (υ : Type v) where
  | acquire (k : κ) (x : υ)
  | release (k : κ) (x : υ)
deriving DecidableEq

variable {κ : Type u} {υ : Type v}

def Event.key : Event κ υ → κ
  | .acquire k _ => k
  | .release k _ => k

variable [DecidableEq κ] [DecidableEq υ]

/-- What is held after one event, or `none` when the event does not fit. -/
def step (held : κ → Option υ) : Event κ υ → Option (κ → Option υ)
  | .acquire k x => if held k = none then some (Function.update held k (some x)) else none
  | .release k x => if held k = some x then some (Function.update held k none) else none

/-- What is held after a log. -/
def replay : (κ → Option υ) → List (Event κ υ) → Option (κ → Option υ)
  | held, [] => some held
  | held, e :: es => (step held e).bind fun held' => replay held' es

theorem replay_append (held : κ → Option υ) (es es' : List (Event κ υ)) :
    replay held (es ++ es') = (replay held es).bind fun held' => replay held' es' := by
  induction es generalizing held with
  | nil => rfl
  | cons e es ih =>
      rw [List.cons_append, replay, replay, Option.bind_assoc]
      exact congrArg _ (funext fun held' => ih held')

/-- A log followed by more entries. -/
theorem replay_append_of_eq {held held' : κ → Option υ} {es es' : List (Event κ υ)}
    (h : replay held es = some held') : replay held (es ++ es') = replay held' es' := by
  rw [replay_append, h, Option.bind_some]

@[simp] theorem replay_nil (held : κ → Option υ) : replay held [] = some held := rfl

theorem replay_acquire {held : κ → Option υ} {k : κ} (x : υ) (h : held k = none) :
    replay held [.acquire k x] = some (Function.update held k (some x)) := by
  simp [replay, step, h]

theorem replay_release {held : κ → Option υ} {k : κ} {x : υ} (h : held k = some x) :
    replay held [.release k x] = some (Function.update held k none) := by
  simp [replay, step, h]

/-- An event under another key does not matter to a key. -/
theorem step_of_ne {held held' : κ → Option υ} {e : Event κ υ} {k : κ}
    (h : step held e = some held') (hne : e.key ≠ k) : held' k = held k := by
  cases e with
  | acquire k' x =>
      simp only [step] at h
      split at h
      · cases h
        exact Function.update_of_ne (Ne.symm hne) _ _
      · cases h
  | release k' x =>
      simp only [step] at h
      split at h
      · cases h
        exact Function.update_of_ne (Ne.symm hne) _ _
      · cases h

/-- The only event that fits a key that holds `x` is its release. -/
theorem step_held {held held' : κ → Option υ} {e : Event κ υ} {x : υ}
    (h : step held e = some held') (hx : held e.key = some x) : e = .release e.key x := by
  cases e with
  | acquire k y =>
      simp only [Event.key] at hx
      simp [step, hx] at h
  | release k y =>
      simp only [Event.key] at hx ⊢
      simp only [step] at h
      split at h
      · next hy =>
        rw [hx] at hy
        rw [Option.some.inj hy]
      · cases h

/-- The only event that leaves its key holding `x` is the acquisition of `x`. -/
theorem step_holds {held held' : κ → Option υ} {e : Event κ υ} {x : υ}
    (h : step held e = some held') (hx : held' e.key = some x) : e = .acquire e.key x := by
  cases e with
  | acquire k y =>
      simp only [step] at h
      split at h
      · cases h
        simp only [Event.key, Function.update_self] at hx ⊢
        rw [Option.some.inj hx]
      · cases h
  | release k y =>
      simp only [step] at h
      split at h
      · cases h
        simp [Event.key] at hx
      · cases h

/-- What a key holds is released by the key's next event, or still held at the
end. -/
theorem follow {k : κ} {x : υ} : ∀ (es : List (Event κ υ)) {held held' : κ → Option υ},
    replay held es = some held' → held k = some x →
    (held' k = some x ∧ ∀ e ∈ es, e.key ≠ k) ∨
      ∃ mid rest, es = mid ++ .release k x :: rest ∧ ∀ e ∈ mid, e.key ≠ k
  | [], held, held', h, hx => by
      cases h
      exact Or.inl ⟨hx, by simp⟩
  | e :: es, held, held', h, hx => by
      obtain ⟨held₁, hstep, hrest⟩ := Option.bind_eq_some_iff.mp h
      by_cases hk : e.key = k
      · subst hk
        exact Or.inr ⟨[], es, by rw [List.nil_append, ← step_held hstep hx], by simp⟩
      · have hx₁ : held₁ k = some x := by rw [step_of_ne hstep hk, hx]
        rcases follow es hrest hx₁ with ⟨hend, hno⟩ | ⟨mid, rest, rfl, hno⟩
        · exact Or.inl ⟨hend, List.forall_mem_cons.mpr ⟨hk, hno⟩⟩
        · exact Or.inr ⟨e :: mid, rest, rfl, List.forall_mem_cons.mpr ⟨hk, hno⟩⟩

/-- What a key holds it acquired with its last event, or held from the start. -/
theorem precede {k : κ} {x : υ} {init held : κ → Option υ} (es : List (Event κ υ))
    (h : replay init es = some held) (hx : held k = some x) :
    (init k = some x ∧ ∀ e ∈ es, e.key ≠ k) ∨
      ∃ pre mid, es = pre ++ .acquire k x :: mid ∧ ∀ e ∈ mid, e.key ≠ k := by
  induction es using List.reverseRecOn generalizing held with
  | nil =>
      cases h
      exact Or.inl ⟨hx, by simp⟩
  | append_singleton es e ih =>
      rw [replay_append] at h
      obtain ⟨held₁, hpre, hlast⟩ := Option.bind_eq_some_iff.mp h
      obtain ⟨held₂, hstep, hnil⟩ := Option.bind_eq_some_iff.mp hlast
      cases hnil
      -- the last event is the key's own, or the key held `x` before it
      by_cases hk : e.key = k
      · subst hk
        exact Or.inr ⟨es, [], by rw [← step_holds hstep hx], by simp⟩
      · have hsnoc : ∀ {l : List (Event κ υ)}, (∀ e' ∈ l, e'.key ≠ k) →
            ∀ e' ∈ l ++ [e], e'.key ≠ k := by
          intro l hl e' he'
          rcases List.mem_append.mp he' with hm | hm
          · exact hl e' hm
          · rw [List.mem_singleton.mp hm]
            exact hk
        rw [step_of_ne hstep hk] at hx
        rcases ih hpre hx with ⟨hinit, hno⟩ | ⟨pre, mid, rfl, hno⟩
        · exact Or.inl ⟨hinit, hsnoc hno⟩
        · exact Or.inr ⟨pre, mid ++ [e], by simp, hsnoc hno⟩

/-- Acquisitions and releases are in one-to-one correspondence, up to what is
held at the end. -/
structure Paired (es : List (Event κ υ)) (held : κ → Option υ) : Prop where
  /-- After an acquisition the key's next event is its release; there is none
  only when the thing is still held at the end. -/
  acquired : ∀ pre k x post, es = pre ++ .acquire k x :: post →
    (held k = some x ∧ ∀ e ∈ post, e.key ≠ k) ∨
      ∃ mid rest, post = mid ++ .release k x :: rest ∧ ∀ e ∈ mid, e.key ≠ k
  /-- Before a release the key's last event is the acquisition. -/
  released : ∀ pre k x post, es = pre ++ .release k x :: post →
    ∃ pre' mid, pre = pre' ++ .acquire k x :: mid ∧ ∀ e ∈ mid, e.key ≠ k

theorem paired_of_replay {es : List (Event κ υ)} {held : κ → Option υ}
    (h : replay (fun _ => none) es = some held) : Paired es held where
  acquired := by
    rintro pre k x post rfl
    rw [replay_append] at h
    obtain ⟨held₁, -, hrest⟩ := Option.bind_eq_some_iff.mp h
    obtain ⟨held₂, hstep, hpost⟩ := Option.bind_eq_some_iff.mp hrest
    refine follow post hpost ?_
    simp only [step] at hstep
    split at hstep
    · cases hstep
      rw [Function.update_self]
    · cases hstep
  released := by
    rintro pre k x post rfl
    rw [replay_append] at h
    obtain ⟨held₁, hpre, hrest⟩ := Option.bind_eq_some_iff.mp h
    obtain ⟨held₂, hstep, -⟩ := Option.bind_eq_some_iff.mp hrest
    have hx : held₁ k = some x := by
      simp only [step] at hstep
      split at hstep
      · assumption
      · cases hstep
    rcases precede pre hpre hx with ⟨hinit, -⟩ | hacq
    · cases hinit
    · exact hacq

end Ledger
