import Memtoy.Command.Handlers

/-!
# Command.Goes — how commands end

`Goes m w s a s'` says that `m` goes on with the value `a` in the state `s'`. Its rules
take a handler that succeeded apart, one call after the other. `Yields` says of a handler
how it ends, whichever way that is.
-/

namespace Memtoy

open CString

/-! ## Rules -/

namespace Cmd

variable {α β : Type} {w : World} {s s' : Shell}

/-- `m` goes on with the value `a` in the state `s'`. -/
def Goes (m : Cmd α) (w : World) (s : Shell) (a : α) (s' : Shell) : Prop :=
  ∃ cs, m w s = ⟨.next a, s', cs⟩

theorem goes_bind {m : Cmd α} {f : α → Cmd β} {b : β} :
    Goes (m >>= f) w s b s' ↔ ∃ a s₁, Goes m w s a s₁ ∧ Goes (f a) w s₁ b s' := by
  show Goes (andThen m f) w s b s' ↔ _
  unfold Goes andThen
  rcases m w s with ⟨a | e, s₁, cs⟩
  · rcases hf : f a w s₁ with ⟨b' | e, s₂, cs'⟩
    · constructor
      · rintro ⟨cs'', heq⟩
        simp only [hf] at heq
        cases heq
        exact ⟨a, s₁, ⟨cs, rfl⟩, cs', hf⟩
      · rintro ⟨a', s₁', ⟨cs₁, heq⟩, cs₂, heq'⟩
        cases heq
        rw [hf] at heq'
        cases heq'
        exact ⟨cs ++ cs', by simp only [hf]⟩
    · -- what follows has ended
      constructor
      · rintro ⟨cs'', heq⟩
        simp only [hf] at heq
        cases heq
      · rintro ⟨a', s₁', ⟨cs₁, heq⟩, cs₂, heq'⟩
        cases heq
        rw [hf] at heq'
        cases heq'
  · constructor
    · rintro ⟨cs', heq⟩
      cases heq
    · rintro ⟨a, s₁', ⟨cs', heq⟩, -⟩
      cases heq

theorem goes_next {a a' : α} : Goes (next a) w s a' s' ↔ a' = a ∧ s' = s := by
  constructor
  · rintro ⟨cs, heq⟩
    cases heq
    exact ⟨rfl, rfl⟩
  · rintro ⟨rfl, rfl⟩
    exact ⟨[], rfl⟩

theorem goes_pure {a a' : α} : Goes (pure a) w s a' s' ↔ a' = a ∧ s' = s := goes_next

theorem goes_world {a : World} : Goes world w s a s' ↔ a = w ∧ s' = s := by
  constructor
  · rintro ⟨cs, heq⟩
    cases heq
    exact ⟨rfl, rfl⟩
  · rintro ⟨rfl, rfl⟩
    exact ⟨[], rfl⟩

theorem goes_shell {a : Shell} : Goes shell w s a s' ↔ a = s ∧ s' = s := by
  constructor
  · rintro ⟨cs, heq⟩
    cases heq
    exact ⟨rfl, rfl⟩
  · rintro ⟨rfl, rfl⟩
    exact ⟨[], rfl⟩

theorem not_goes_stop {e : Ending} {a : α} : ¬ Goes (stop e) w s a s' := by
  rintro ⟨cs, heq⟩
  cases heq

theorem goes_orError {r : Option α × List Complaint} {a : α} :
    Goes (orError r) w s a s' ↔ r.1 = some a ∧ s' = s := by
  rcases r with ⟨_ | a', cs⟩
  · constructor
    · rintro ⟨cs', heq⟩
      cases heq
    · rintro ⟨heq, -⟩
      cases heq
  · constructor
    · rintro ⟨cs', heq⟩
      cases heq
      exact ⟨rfl, rfl⟩
    · rintro ⟨heq, rfl⟩
      cases heq
      exact ⟨cs, rfl⟩

theorem goes_callSegmentRange {name : CStr} {r : Option Range} :
    Goes (callSegmentRange name) w s r s' ↔ r = (segmentRange s.table.g name).1 ∧
      s' = { s with table := s.table.exec (.get name) (Op.ok_get name) } := by
  constructor
  · rintro ⟨cs, heq⟩
    cases heq
    exact ⟨rfl, rfl⟩
  · rintro ⟨rfl, rfl⟩
    exact ⟨[], rfl⟩

theorem goes_segment {op : Op} {hok : op.Ok} {u : Unit} :
    Goes (segment op hok) w s u s' ↔ op.answer s.table.g = .ok ∧
      s' = { s with table := s.table.exec op hok } := by
  rw [segment, goes_bind]
  constructor
  · rintro ⟨ok, s₁, ⟨cs, heq⟩, hrest⟩
    unfold callSegment at heq
    cases hans : op.answer s.table.g <;> simp only [hans] at heq <;> cases heq
    · exact absurd hrest not_goes_stop
    · exact ⟨rfl, (goes_next.mp hrest).2⟩
  · rintro ⟨hans, rfl⟩
    refine ⟨true, _, ⟨[], ?_⟩, goes_next.mpr ⟨rfl, rfl⟩⟩
    simp only [callSegment, hans]

/-! ## Every ending -/

/-- `m` ends in a way and in a state that satisfy `Q`. -/
def Yields (m : Cmd α) (w : World) (s : Shell) (Q : Flow α → Shell → Prop) : Prop :=
  Q (m w s).flow (m w s).shell

/-- What follows a part that went on, or the ending of the part. -/
def Then (f : α → Cmd β) (w : World) (Q : Flow β → Shell → Prop) : Flow α → Shell → Prop
  | .next a, s => Yields (f a) w s Q
  | .stop e, s => Q (.stop e) s

@[simp] theorem then_next {a : α} {f : α → Cmd β} {Q : Flow β → Shell → Prop} :
    Then f w Q (.next a) s ↔ Yields (f a) w s Q := Iff.rfl

@[simp] theorem then_stop {e : Ending} {f : α → Cmd β} {Q : Flow β → Shell → Prop} :
    Then f w Q (.stop e) s ↔ Q (.stop e) s := Iff.rfl

@[simp] theorem yields_bind {m : Cmd α} {f : α → Cmd β} {Q : Flow β → Shell → Prop} :
    Yields (m >>= f) w s Q ↔ Yields m w s (Then f w Q) := by
  show Yields (andThen m f) w s Q ↔ _
  unfold Yields andThen
  rcases m w s with ⟨a | e, s₁, cs⟩
  · exact Iff.rfl
  · exact Iff.rfl

@[simp] theorem yields_next {a : α} {Q : Flow α → Shell → Prop} :
    Yields (next a) w s Q ↔ Q (.next a) s := Iff.rfl

@[simp] theorem yields_pure {a : α} {Q : Flow α → Shell → Prop} :
    Yields (pure a) w s Q ↔ Q (.next a) s := Iff.rfl

@[simp] theorem yields_world {Q : Flow World → Shell → Prop} :
    Yields world w s Q ↔ Q (.next w) s := Iff.rfl

@[simp] theorem yields_shell {Q : Flow Shell → Shell → Prop} :
    Yields shell w s Q ↔ Q (.next s) s := Iff.rfl

@[simp] theorem yields_setShell {s' : Shell} {Q : Flow Unit → Shell → Prop} :
    Yields (setShell s') w s Q ↔ Q (.next ()) s' := Iff.rfl

@[simp] theorem yields_stop {e : Ending} {Q : Flow α → Shell → Prop} :
    Yields (stop e) w s Q ↔ Q (.stop e) s := Iff.rfl

@[simp] theorem yields_cmdError {Q : Flow α → Shell → Prop} :
    Yields cmdError w s Q ↔ Q (.stop (.ret .error)) s := Iff.rfl

@[simp] theorem yields_complain {cs : List Complaint} {Q : Flow Unit → Shell → Prop} :
    Yields (complain cs) w s Q ↔ Q (.next ()) s := Iff.rfl

theorem yields_ite {P : Prop} [Decidable P] {m m' : Cmd α} {Q : Flow α → Shell → Prop} :
    Yields (if P then m else m') w s Q ↔
      (P → Yields m w s Q) ∧ (¬ P → Yields m' w s Q) := by
  by_cases hP : P <;> simp [hP]

@[simp] theorem yields_orError {r : Option α × List Complaint} {Q : Flow α → Shell → Prop} :
    Yields (orError r) w s Q ↔
      (∀ a, r.1 = some a → Q (.next a) s) ∧ (r.1 = none → Q (.stop (.ret .error)) s) := by
  rcases r with ⟨_ | a, cs⟩
  · simp [Yields, orError]
  · simp [Yields, orError]

@[simp] theorem yields_callSegmentRange {name : CStr} {Q : Flow (Option Range) → Shell → Prop} :
    Yields (callSegmentRange name) w s Q ↔ Q (.next (segmentRange s.table.g name).1)
      { s with table := s.table.exec (.get name) (Op.ok_get name) } := Iff.rfl

/-- A call of the segment API goes on with what it answers, or does not return. -/
@[simp] theorem yields_callSegment {op : Op} {hok : op.Ok} {Q : Flow Bool → Shell → Prop} :
    Yields (callSegment op hok) w s Q ↔
      (op.answer s.table.g = .ok → Q (.next true) { s with table := s.table.exec op hok }) ∧
      (op.answer s.table.g = .err → Q (.next false) { s with table := s.table.exec op hok }) ∧
      (op.answer s.table.g = .sigfpe → Q (.stop .crash) { s with table := s.table.exec op hok }) ∧
      (op.answer s.table.g = .running → Q (.stop .hangs) { s with table := s.table.exec op hok }) := by
  unfold Yields callSegment
  cases op.answer s.table.g <;> simp

end Cmd

open Cmd

/-! ## The openings -/

variable {w : World} {s s' : Shell}

theorem goes_required {args argName : CStr} {u : Unit}
    (h : Goes (required args argName) w s u s') : s' = s := by
  unfold required at h
  obtain ⟨sh, s₁, hsh, herr⟩ := goes_bind.mp h
  exact (goes_orError.mp herr).2.trans (goes_shell.mp hsh).2

theorem goes_takeSegName {args : CStr} {r : CStr × CStr}
    (h : Goes (takeSegName args) w s r s') : r = nextToken (skipBlanks args) ∧ s' = s := by
  unfold takeSegName takeArg at h
  simp only [goes_bind, goes_pure] at h
  obtain ⟨u, s₁, hreq, hr, rfl⟩ := h
  exact ⟨hr, goes_required hreq⟩

theorem goes_takeSize {args : CStr} {r : Word × CStr} (h : Goes (takeSize args) w s r s') :
    r.2 = (nextToken args).2 ∧
      (getScaledValue s.table.g.pagesize (nextToken args).1 "size".toList).1 = some r.1 ∧ s' = s := by
  unfold takeSize at h
  obtain ⟨u, s₁, hreq, hrest⟩ := goes_bind.mp h
  obtain rfl := goes_required hreq
  obtain ⟨sh, s₂, hsh, hrest'⟩ := goes_bind.mp hrest
  obtain ⟨rfl, rfl⟩ := goes_shell.mp hsh
  obtain ⟨length, s₃, herr, hpure⟩ := goes_bind.mp hrest'
  obtain ⟨hsize, rfl⟩ := goes_orError.mp herr
  obtain ⟨rfl, rfl⟩ := goes_pure.mp hpure
  exact ⟨rfl, hsize, rfl⟩

@[simp] theorem yields_required {args argName : CStr} {Q : Flow Unit → Shell → Prop} :
    Yields (required args argName) w s Q ↔
      (args ≠ [] → Q (.next ()) s) ∧ (args = [] → Q (.stop (.ret .error)) s) := by
  rw [required, yields_bind, yields_shell]
  show Yields (orError _) w s Q ↔ _
  rw [yields_orError]
  by_cases hargs : args = []
  · simp [requiredArg, hargs]
  · simp [requiredArg, hargs, Unique.forall_iff]

end Memtoy
