import Mathlib.Data.List.DropRight

/-!
# CString — C strings as lists of bytes

A C string is the list of its bytes before the terminating NUL; a byte is a
`Char`. The functions follow the C library's documented behaviour. `strcmp`
needs no definition: two strings compare equal exactly when the lists are equal.
-/

namespace CString

/-- The bytes of a NUL-terminated string, without the NUL. -/
abbrev CStr := List Char

/-! ## Spans -/

/-- A span ends where the first byte does not belong to it. -/
theorem takeWhile_append_stop {p : Char → Bool} {s rest : CStr} (hs : ∀ c ∈ s, p c = true)
    (hrest : ∀ c, rest.head? = some c → p c = false) : (s ++ rest).takeWhile p = s := by
  rw [List.takeWhile_append_of_pos hs]
  cases rest with
  | nil => simp
  | cons c rest => simp [hrest c rfl]

theorem dropWhile_append_stop {p : Char → Bool} {s rest : CStr} (hs : ∀ c ∈ s, p c = true)
    (hrest : ∀ c, rest.head? = some c → p c = false) : (s ++ rest).dropWhile p = rest := by
  rw [List.dropWhile_append_of_pos hs]
  cases rest with
  | nil => rfl
  | cons c rest => simp [hrest c rfl]

/-! ## `basename` -/

/-- POSIX `basename`: the last component of a path, trailing slashes ignored.
The empty string gives `"."`, a string of slashes gives `"/"`. -/
def basename (path : CStr) : CStr :=
  if path = [] then ['.']
  else
    let trimmed := path.rdropWhile (· = '/')
    if trimmed = [] then ['/'] else trimmed.rtakeWhile (· ≠ '/')

/-- What `basename` leaves in its argument: it cuts trailing slashes in place,
except from a path of slashes only. -/
def basenameEdit (path : CStr) : CStr :=
  let trimmed := path.rdropWhile (· = '/')
  if trimmed = [] then path else trimmed

/-- A second `basename` of the same buffer gives the same component. -/
theorem basename_basenameEdit (path : CStr) : basename (basenameEdit path) = basename path := by
  unfold basenameEdit
  by_cases ht : path.rdropWhile (· = '/') = []
  · simp [ht]
  · have hpath : path ≠ [] := by
      rintro rfl
      simp at ht
    simp [basename, ht, hpath, List.rdropWhile_idempotent]

/-- A name without slashes is its own `basename`. -/
theorem basename_of_no_slash {name : CStr} (hne : name ≠ []) (h : '/' ∉ name) :
    basename name = name := by
  have htrim : name.rdropWhile (· = '/') = name := by
    rw [List.rdropWhile_eq_self_iff]
    intro hl hlast
    have hmem := List.getLast_mem hl
    simp only [decide_eq_true_eq] at hlast
    exact h (hlast ▸ hmem)
  have htake : name.rtakeWhile (· ≠ '/') = name := by
    rw [List.rtakeWhile_eq_self_iff]
    intro c hc
    simpa using fun hcs : c = '/' => h (hcs ▸ hc)
  simp only [basename, hne, if_false, htrim, htake]

/-- The names that are their own `basename`. -/
theorem basename_eq_self_iff {name : CStr} (hne : name ≠ []) :
    basename name = name ↔ '/' ∉ name ∨ name = ['/'] := by
  constructor
  · intro heq
    unfold basename at heq
    rw [if_neg hne] at heq
    by_cases htrim : name.rdropWhile (· = '/') = []
    · rw [if_pos htrim] at heq
      exact Or.inr heq.symm
    · -- the last component has no slash
      rw [if_neg htrim] at heq
      refine Or.inl fun hmem => ?_
      rw [← heq] at hmem
      simpa using List.mem_rtakeWhile_imp hmem
  · rintro (hno | rfl)
    · exact basename_of_no_slash hne hno
    · rfl

/-! ## `fgets` -/

/-- The bytes one `fgets` takes from a stream, at most `n` of them: up to and
with the first newline; and what it leaves. -/
def takeLine : Nat → List Char → List Char × List Char
  | 0, s => ([], s)
  | _ + 1, [] => ([], [])
  | n + 1, c :: s =>
      if c = '\n' then ([c], s) else (c :: (takeLine n s).1, (takeLine n s).2)

/-- `fgets(buf, size, stream)`: `none` is NULL, at end of file. -/
def fgets (size : Nat) (stream : List Char) : Option (List Char × List Char) :=
  if stream = [] then none else some (takeLine (size - 1) stream)

theorem fgets_none {size : Nat} {stream : List Char} (h : fgets size stream = none) :
    stream = [] := by
  unfold fgets at h
  split at h
  · assumption
  · cases h

/-- What is taken and what is left make up the stream. -/
theorem takeLine_append (n : Nat) (s : List Char) : (takeLine n s).1 ++ (takeLine n s).2 = s := by
  induction n generalizing s with
  | zero => rfl
  | succ n ih =>
      cases s with
      | nil => rfl
      | cons c s =>
          simp only [takeLine]
          split
          · rfl
          · simp [ih s]

/-- A line that fits is taken whole. -/
theorem takeLine_fits {l : List Char} (hl : '\n' ∉ l) (rest : List Char) :
    ∀ {n : Nat}, l.length < n → takeLine n (l ++ '\n' :: rest) = (l ++ ['\n'], rest) := by
  induction l with
  | nil =>
      intro n hn
      obtain ⟨m, rfl⟩ := Nat.exists_eq_succ_of_ne_zero (by simpa using hn : 0 < n).ne'
      simp [takeLine]
  | cons c l ih =>
      intro n hn
      obtain ⟨m, rfl⟩ := Nat.exists_eq_succ_of_ne_zero (Nat.lt_of_le_of_lt (Nat.zero_le _) hn).ne'
      obtain ⟨hc, hl'⟩ : '\n' ≠ c ∧ '\n' ∉ l := by simpa using hl
      have hm : l.length < m := by simpa using hn
      simp [takeLine, Ne.symm hc, ih hl' hm]

/-- A line that does not fit is cut. -/
theorem takeLine_cut {l : List Char} (hl : '\n' ∉ l) (rest : List Char) :
    ∀ {n : Nat}, n ≤ l.length →
      takeLine n (l ++ '\n' :: rest) = (l.take n, l.drop n ++ '\n' :: rest) := by
  induction l with
  | nil =>
      intro n hn
      have hn0 : n = 0 := by simpa using hn
      subst hn0
      rfl
  | cons c l ih =>
      intro n hn
      cases n with
      | zero => rfl
      | succ n =>
          obtain ⟨hc, hl'⟩ : '\n' ≠ c ∧ '\n' ∉ l := by simpa using hl
          have hn' : n ≤ l.length := by simpa using hn
          simp [takeLine, Ne.symm hc, ih hl' hn']

theorem length_takeLine_le (n : Nat) (s : List Char) : (takeLine n s).1.length ≤ n := by
  induction n generalizing s with
  | zero => simp [takeLine]
  | succ n ih =>
      cases s with
      | nil => simp [takeLine]
      | cons c s =>
          simp only [takeLine]
          split
          · simp
          · simpa using ih s

/-- What stops an `fgets` is the newline, the size or the end of the stream. -/
theorem takeLine_stop (n : Nat) (s : List Char) :
    (takeLine n s).1.getLast? = some '\n' ∨ (takeLine n s).1.length = n ∨
      (takeLine n s).2 = [] := by
  induction n generalizing s with
  | zero => exact Or.inr (Or.inl rfl)
  | succ n ih =>
      cases s with
      | nil => exact Or.inr (Or.inr rfl)
      | cons c s =>
          simp only [takeLine]
          split
          · next hc => exact Or.inl (by simp [hc])
          · rcases ih s with hlast | hlen | hrest
            · exact Or.inl (by simp [List.getLast?_cons, hlast])
            · exact Or.inr (Or.inl (by simp [hlen]))
            · exact Or.inr (Or.inr hrest)

/-- One `fgets` takes at most one newline. -/
theorem count_takeLine (n : Nat) (s : List Char) : (takeLine n s).1.count '\n' ≤ 1 := by
  induction n generalizing s with
  | zero => simp [takeLine]
  | succ n ih =>
      cases s with
      | nil => simp [takeLine]
      | cons c s =>
          simp only [takeLine]
          split
          · next hc => simp [hc]
          · next hc => simpa [List.count_cons, hc] using ih s

/-! ## Strings in a buffer

A `char *` is an index into the bytes of its buffer; the string it points to ends
at the next NUL. Past the end of the buffer a read gives NUL. -/

def nul : Char := '\x00'

/-- The string at the start of some bytes. -/
def cstr (buf : List Char) : CStr := buf.takeWhile (· ≠ nul)

def byteAt (buf : List Char) (i : Nat) : Char := buf.getD i nul

/-- The string at index `i`. -/
def strAt (buf : List Char) (i : Nat) : CStr := cstr (buf.drop i)

def strspn (buf : List Char) (i : Nat) (accept : List Char) : Nat :=
  ((strAt buf i).takeWhile (· ∈ accept)).length

def strcspn (buf : List Char) (i : Nat) (reject : List Char) : Nat :=
  ((strAt buf i).takeWhile (· ∉ reject)).length

/-- A byte is the first of the string there, or the NUL at its end. -/
theorem byteAt_eq (buf : List Char) (i : Nat) : byteAt buf i = (strAt buf i).headD nul := by
  rw [byteAt, List.getD_eq_getElem?_getD, ← List.head?_drop, strAt, cstr]
  rcases buf.drop i with _ | ⟨c, l⟩
  · rfl
  · by_cases hc : c = nul
    · simp [hc]
    · simp [hc]

theorem ne_nul_of_mem {buf : List Char} {i : Nat} {c : Char} (h : c ∈ strAt buf i) : c ≠ nul := by
  simpa using List.mem_takeWhile_imp h

/-- What `all` finds of the bytes of a string; "for all `c`, if `c` is in `s`" is not decided
by looking at `s`. -/
theorem forall_mem_of_all {p : Char → Prop} [DecidablePred p] {s : CStr}
    (h : s.all (fun c => decide (p c)) = true) : ∀ c ∈ s, p c := by
  simpa using h

/-- Moving on within a string moves on in its bytes. -/
theorem cstr_drop (k : Nat) : ∀ l : List Char, k ≤ (cstr l).length → cstr (l.drop k) = (cstr l).drop k := by
  induction k with
  | zero => exact fun _ _ => rfl
  | succ k ih =>
      intro l hle
      cases l with
      | nil => rfl
      | cons c l =>
          by_cases hc : c = nul
          · simp [cstr, hc] at hle
          · have hcons : cstr (c :: l) = c :: cstr l := by simp [cstr, hc]
            rw [hcons, List.length_cons] at hle
            rw [hcons, List.drop_succ_cons, List.drop_succ_cons]
            exact ih l (by omega)

/-- A string behind the span of some bytes. -/
theorem strAt_strspn (buf : List Char) (i : Nat) (accept : List Char) :
    strAt buf (i + strspn buf i accept) = (strAt buf i).dropWhile (· ∈ accept) := by
  have hle : strspn buf i accept ≤ (cstr (buf.drop i)).length :=
    (List.takeWhile_prefix _).length_le
  rw [strAt, ← List.drop_drop, cstr_drop _ _ hle]
  show (strAt buf i).drop ((strAt buf i).takeWhile (· ∈ accept)).length = _
  calc (strAt buf i).drop ((strAt buf i).takeWhile (· ∈ accept)).length
      = ((strAt buf i).takeWhile (· ∈ accept) ++ (strAt buf i).dropWhile (· ∈ accept)).drop
          ((strAt buf i).takeWhile (· ∈ accept)).length := by rw [List.takeWhile_append_dropWhile]
    _ = (strAt buf i).dropWhile (· ∈ accept) := List.drop_left

/-- At index `i` stands the string `s`, with its NUL inside the buffer. -/
def Stands (buf : List Char) (i : Nat) (s : CStr) : Prop :=
  nul ∉ s ∧ ∃ slack, buf.drop i = s ++ nul :: slack

theorem cstr_eq {s : List Char} (h : nul ∉ s) : cstr s = s := by
  rw [cstr, List.takeWhile_eq_self_iff]
  intro c hc
  simpa using fun heq : c = nul => h (heq ▸ hc)

namespace Stands

variable {buf : List Char} {i : Nat} {s a b : CStr} {c : Char}

theorem of_append (h : nul ∉ s) (slack : List Char) : Stands (s ++ nul :: slack) 0 s :=
  ⟨h, slack, rfl⟩

theorem str (h : Stands buf i s) : strAt buf i = s := by
  obtain ⟨hs, slack, hbuf⟩ := h
  have hall : ∀ c ∈ s, decide (c ≠ nul) = true := by
    intro c hc
    simpa using fun heq : c = nul => hs (heq ▸ hc)
  rw [strAt, cstr, hbuf, List.takeWhile_append_of_pos hall]
  simp

theorem byte (h : Stands buf i s) : byteAt buf i = s.headD nul := by
  obtain ⟨-, slack, hbuf⟩ := h
  have hget : buf[i]? = (s ++ nul :: slack)[0]? := by
    rw [← hbuf, List.getElem?_drop, Nat.add_zero]
  rw [byteAt, List.getD_eq_getElem?_getD, hget]
  cases s <;> simp

theorem spn (h : Stands buf i s) (accept : List Char) :
    strspn buf i accept = (s.takeWhile (· ∈ accept)).length := by
  rw [strspn, h.str]

theorem cspn (h : Stands buf i s) (reject : List Char) :
    strcspn buf i reject = (s.takeWhile (· ∉ reject)).length := by
  rw [strcspn, h.str]

/-- A pointer moved over the first part points to the second. -/
theorem advance (h : Stands buf i (a ++ b)) : Stands buf (i + a.length) b := by
  obtain ⟨hs, slack, hbuf⟩ := h
  refine ⟨fun hb => hs (List.mem_append_right _ hb), slack, ?_⟩
  rw [← List.drop_drop, hbuf, List.append_assoc, List.drop_left]

/-- Writing a NUL between two strings cuts them apart, whatever byte was there. -/
theorem cut_at {slack : List Char} (ha : nul ∉ a) (hb : nul ∉ b)
    (hbuf : buf.drop i = a ++ c :: (b ++ nul :: slack)) :
    Stands (buf.set (i + a.length) nul) i a ∧
      Stands (buf.set (i + a.length) nul) (i + a.length + 1) b := by
  have hset : (buf.set (i + a.length) nul).drop i = a ++ nul :: (b ++ nul :: slack) := by
    rw [List.drop_set, if_neg (by omega), hbuf]
    simp
  refine ⟨⟨ha, _, hset⟩, hb, slack, ?_⟩
  rw [Nat.add_assoc, ← List.drop_drop, hset]
  simp [List.drop_append]

/-- Writing a NUL over a byte cuts the string in two. -/
theorem cut (h : Stands buf i (a ++ c :: b)) :
    Stands (buf.set (i + a.length) nul) i a ∧
      Stands (buf.set (i + a.length) nul) (i + a.length + 1) b := by
  obtain ⟨hs, slack, hbuf⟩ := h
  apply cut_at
  · exact fun ha => hs (List.mem_append_left _ ha)
  · exact fun hb => hs (List.mem_append_right _ (List.mem_cons_of_mem _ hb))
  · rw [hbuf, List.append_assoc]
    rfl

/-- Writing a byte in front of a string puts it there. -/
theorem push (h : Stands buf (i + 1) s) (hc : c ≠ nul) : Stands (buf.set i c) i (c :: s) := by
  obtain ⟨hs, slack, hbuf⟩ := h
  have hlt : i < buf.length := by
    have hlen := congrArg List.length hbuf
    simp only [List.length_drop, List.length_append, List.length_cons] at hlen
    omega
  refine ⟨by simp [hs, Ne.symm hc], slack, ?_⟩
  rw [List.drop_set, if_neg (Nat.lt_irrefl i), Nat.sub_self, List.drop_eq_getElem_cons hlt, hbuf]
  rfl

/-- A string with a newline written over its NUL, as bytes. -/
theorem newline (h : Stands buf i s) :
    ((buf.set (i + s.length) '\n').drop i).take (s.length + 1) = s ++ ['\n'] := by
  obtain ⟨-, slack, hbuf⟩ := h
  rw [List.drop_set, if_neg (by omega), hbuf]
  simp [List.take_append, List.take_of_length_le]

end Stands

end CString
