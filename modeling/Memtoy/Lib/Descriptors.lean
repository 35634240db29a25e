import Mathlib.Logic.Function.Basic

/-!
# Descriptors — tables of open files

A descriptor table says what each descriptor refers to. What matters to other processes is
which files a table holds open at all; that is changed by `closeFd` only if no other
descriptor refers to the same file.
-/

namespace Descriptors

universe u

/-- What the descriptors refer to, those that are open. -/
abbrev Table (E : Type u) := Nat → Option E

variable {E : Type u} {t : Table E} {fd fd' newfd : Nat} {e e' e₀ : E}

/-- An `open`, or one end of a `pipe`, that got this descriptor. -/
def openFd (t : Table E) (fd : Nat) (e : E) : Table E := Function.update t fd (some e)

/-- `close(fd)` -/
def closeFd (t : Table E) (fd : Nat) : Table E := Function.update t fd none

/-- `dup2(fd, newfd)` -/
def dup2 (t : Table E) (fd newfd : Nat) : Table E := Function.update t newfd (t fd)

/-- Some descriptor refers to it. -/
def Held (t : Table E) (e : E) : Prop := ∃ fd, t fd = some e

/-- At most one descriptor refers to it. -/
def Once (t : Table E) (e : E) : Prop := ∀ fd fd', t fd = some e → t fd' = some e → fd = fd'

/-! ## open -/

@[simp] theorem openFd_self : openFd t fd e fd = some e := Function.update_self ..

theorem openFd_of_ne (hne : fd' ≠ fd) : openFd t fd e fd' = t fd' := Function.update_of_ne hne ..

/-- Only free descriptors are given out. -/
theorem openFd_keeps (hfree : t fd = none) (h : t fd' = some e') :
    openFd t fd e fd' = some e' := by
  rw [openFd_of_ne, h]
  intro heq
  rw [heq, hfree] at h
  cases h

theorem held_openFd (h : Held (openFd t fd e) e') : e' = e ∨ Held t e' := by
  rcases h with ⟨fd', h⟩
  by_cases hfd : fd' = fd
  · rw [hfd, openFd_self, Option.some.injEq] at h
    exact .inl h.symm
  · rw [openFd_of_ne hfd] at h
    exact .inr ⟨fd', h⟩

theorem Held.opened (hfree : t fd = none) (h : Held t e') : Held (openFd t fd e) e' := by
  rcases h with ⟨fd', h⟩
  exact ⟨fd', openFd_keeps hfree h⟩

theorem Once.opened (h : Once t e') (hnew : e' = e → ¬ Held t e') : Once (openFd t fd e) e' := by
  intro a b ha hb
  by_cases hfda : a = fd <;> by_cases hfdb : b = fd
  · rw [hfda, hfdb]
  · -- the new file was not open before
    rw [hfda, openFd_self, Option.some.injEq] at ha
    rw [openFd_of_ne hfdb] at hb
    exact absurd ⟨b, hb⟩ (hnew ha.symm)
  · rw [hfdb, openFd_self, Option.some.injEq] at hb
    rw [openFd_of_ne hfda] at ha
    exact absurd ⟨a, ha⟩ (hnew hb.symm)
  · rw [openFd_of_ne hfda] at ha
    rw [openFd_of_ne hfdb] at hb
    exact h a b ha hb

/-! ## close -/

@[simp] theorem closeFd_self : closeFd t fd fd = none := Function.update_self ..

theorem closeFd_of_ne (hne : fd' ≠ fd) : closeFd t fd fd' = t fd' := Function.update_of_ne hne ..

/-- What is still open was open. -/
theorem of_closeFd (h : closeFd t fd fd' = some e) : t fd' = some e := by
  by_cases hfd : fd' = fd
  · rw [hfd, closeFd_self] at h
    cases h
  · rwa [closeFd_of_ne hfd] at h

/-- A descriptor that refers to another file is another one. -/
theorem closeFd_keeps (hfd : t fd = some e) (h : t fd' = some e') (hne : e' ≠ e) :
    closeFd t fd fd' = some e' := by
  rw [closeFd_of_ne, h]
  intro heq
  rw [heq, hfd, Option.some.injEq] at h
  exact hne h.symm

theorem held_closeFd (h : Held (closeFd t fd) e) : Held t e := by
  rcases h with ⟨fd', h⟩
  exact ⟨fd', of_closeFd h⟩

theorem Once.not_held (h : Once t e) (hfd : t fd = some e) : ¬ Held (closeFd t fd) e := by
  intro hheld
  rcases hheld with ⟨fd', hfd'⟩
  have heq := h fd' fd (of_closeFd hfd') hfd
  rw [heq, closeFd_self] at hfd'
  cases hfd'

theorem Once.closed (h : Once t e) : Once (closeFd t fd) e :=
  fun a b ha hb => h a b (of_closeFd ha) (of_closeFd hb)

/-- All that happened is that descriptors were closed, those of the files `es`. -/
structure Closes (t t' : Table E) (es : List E) : Prop where
  sub : ∀ fd e, t' fd = some e → t fd = some e
  keeps : ∀ fd e, t fd = some e → e ∉ es → t' fd = some e
  gone : ∀ e ∈ es, Once t e → ¬ Held t' e

namespace Closes

variable {t' : Table E} {es : List E}

theorem refl (t : Table E) : Closes t t [] where
  sub := fun _ _ h => h
  keeps := fun _ _ h _ => h
  gone := fun _ h => absurd h List.not_mem_nil

theorem close (h : Closes t t' es) (hfd : t' fd = some e) : Closes t (closeFd t' fd) (e :: es) where
  sub := fun fd' e' hfd' => h.sub fd' e' (of_closeFd hfd')
  keeps := by
    intro fd' e' hfd' hnot
    rw [List.mem_cons, not_or] at hnot
    exact closeFd_keeps hfd (h.keeps fd' e' hfd' hnot.2) hnot.1
  gone := by
    intro e' hmem honce
    have honce' : Once t' e' := fun a b ha hb => honce a b (h.sub a e' ha) (h.sub b e' hb)
    rcases List.mem_cons.mp hmem with rfl | hes
    · exact honce'.not_held hfd
    · exact fun hheld => h.gone e' hes honce (held_closeFd hheld)

/-- Two descriptors of different files. -/
theorem two (hfd : t fd = some e) (hfd' : t fd' = some e') (hne : e' ≠ e) :
    Closes t (closeFd (closeFd t fd) fd') [e', e] :=
  ((refl t).close hfd).close (closeFd_keeps hfd hfd' hne)

theorem held (h : Closes t t' es) (hheld : Held t' e) : Held t e := by
  rcases hheld with ⟨fd, hfd⟩
  exact ⟨fd, h.sub fd e hfd⟩

theorem still (h : Closes t t' es) (hheld : Held t e) (hnot : e ∉ es) : Held t' e := by
  rcases hheld with ⟨fd, hfd⟩
  exact ⟨fd, h.keeps fd e hfd hnot⟩

theorem once (h : Closes t t' es) (honce : Once t e) : Once t' e :=
  fun a b ha hb => honce a b (h.sub a e ha) (h.sub b e hb)

end Closes

/-! ## dup2 and close

Together they move a file from one descriptor to another. -/

theorem move_self (hne : newfd ≠ fd) (hfd : t fd = some e) :
    closeFd (dup2 t fd newfd) fd newfd = some e := by
  rw [closeFd_of_ne hne, dup2, Function.update_self, hfd]

theorem move_of_ne (hfd : fd' ≠ fd) (hto : fd' ≠ newfd) :
    closeFd (dup2 t fd newfd) fd fd' = t fd' := by
  rw [closeFd_of_ne hfd, dup2, Function.update_of_ne hto]

/-- The other files stay where they are, except the one that was at the target. -/
theorem move_keeps (hfd : t fd = some e) (hto : t newfd = some e₀) (h : t fd' = some e')
    (hne : e' ≠ e) (hne₀ : e' ≠ e₀) : closeFd (dup2 t fd newfd) fd fd' = some e' := by
  rw [move_of_ne, h]
  · intro heq
    rw [heq, hfd, Option.some.injEq] at h
    exact hne h.symm
  · intro heq
    rw [heq, hto, Option.some.injEq] at h
    exact hne₀ h.symm

theorem of_move (h : closeFd (dup2 t fd newfd) fd fd' = some e') :
    fd' = newfd ∧ t fd = some e' ∨ fd' ≠ newfd ∧ fd' ≠ fd ∧ t fd' = some e' := by
  by_cases hfd : fd' = fd
  · rw [hfd, closeFd_self] at h
    cases h
  · rw [closeFd_of_ne hfd] at h
    by_cases hto : fd' = newfd
    · rw [hto, dup2, Function.update_self] at h
      exact .inl ⟨hto, h⟩
    · rw [dup2, Function.update_of_ne hto] at h
      exact .inr ⟨hto, hfd, h⟩

theorem held_move (h : Held (closeFd (dup2 t fd newfd) fd) e') : Held t e' := by
  rcases h with ⟨fd', h⟩
  rcases of_move h with ⟨-, h⟩ | ⟨-, -, h⟩
  · exact ⟨fd, h⟩
  · exact ⟨fd', h⟩

theorem Held.moved (h : Held t e') (hne : newfd ≠ fd) (hfd : t fd = some e)
    (hto : t newfd = some e₀) (hne₀ : e' ≠ e₀) : Held (closeFd (dup2 t fd newfd) fd) e' := by
  by_cases heq : e' = e
  · rw [heq]
    exact ⟨newfd, move_self hne hfd⟩
  · rcases h with ⟨fd', h⟩
    exact ⟨fd', move_keeps hfd hto h heq hne₀⟩

/-- What was at the target is closed. -/
theorem Once.not_held_move (h : Once t e₀) (hfd : t fd = some e) (hto : t newfd = some e₀)
    (hne₀ : e₀ ≠ e) : ¬ Held (closeFd (dup2 t fd newfd) fd) e₀ := by
  intro hheld
  rcases hheld with ⟨fd', hfd'⟩
  rcases of_move hfd' with ⟨-, hsame⟩ | ⟨hother, -, hsame⟩
  · rw [hfd, Option.some.injEq] at hsame
    exact hne₀ hsame.symm
  · exact hother (h fd' newfd hsame hto)

theorem Once.moved (h : Once t e') : Once (closeFd (dup2 t fd newfd) fd) e' := by
  intro a b ha hb
  rcases of_move ha with ⟨hato, hafd⟩ | ⟨-, hafd, hat⟩ <;>
    rcases of_move hb with ⟨hbto, hbfd⟩ | ⟨-, hbfd, hbt⟩
  · rw [hato, hbto]
  · exact absurd (h b fd hbt hafd) hbfd
  · exact absurd (h a fd hat hbfd) hafd
  · exact h a b hat hbt

end Descriptors
