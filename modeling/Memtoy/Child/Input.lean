import Mathlib.Data.List.TakeDrop
import Memtoy.Lib.CString
import Memtoy.Lib.Reader

/-!
# Child.Input — reading command lines without a terminal

`readline_ni()` emulates readline(3) in batch mode and in children: `fgets` into
a buffer of `CMDBUFSZ` bytes, trailing newline cut off. The stream is what is
left of standard input; reading ends with the `exit(0)` at end of file.
-/

namespace Memtoy

open CString Reader

def cmdbufsz : Nat := 256

/-- `if (cmdline[cmdlen-1] == '\n') cmdline[--cmdlen] = '\0';` -/
def trimNewline (cmdline : CStr) : CStr :=
  if cmdline.getLast? = some '\n' then cmdline.dropLast else cmdline

/-- `readline_ni()`: the line and the rest of the stream, `none` at end of file. -/
def readlineNi (stream : List Char) : Option (CStr × List Char) :=
  (fgets (cmdbufsz - 1) stream).map fun r => (trimNewline (cstr r.1), r.2)

/-- The buffer `readline_ni` leaves: the line in `CMDBUFSZ` zeroed bytes. -/
def cmdBuffer (line : CStr) : List Char := line ++ List.replicate (cmdbufsz - line.length) nul

/-- The lines `process_commands` gets from a stream, in order; `fuel` bounds
their number. -/
def readLines : (fuel : Nat) → List Char → List CStr
  | 0, _ => []
  | fuel + 1, stream =>
      match readlineNi stream with
      | none => []
      | some (line, rest) => line :: readLines fuel rest

/-- All lines of a stream: every call takes at least one byte. -/
def commandLines (stream : List Char) : List CStr := readLines stream.length stream

/-- A stream of newline-terminated lines. -/
def streamOf (lines : List CStr) : List Char := lines.flatMap (· ++ ['\n'])

/-- The longest line that is read whole. -/
def maxLine : Nat := cmdbufsz - 3

/-! ## One line -/

@[simp] theorem trimNewline_append (l : CStr) : trimNewline (l ++ ['\n']) = l := by
  simp [trimNewline]

theorem trimNewline_of_not_mem {l : CStr} (h : '\n' ∉ l) : trimNewline l = l := by
  rw [trimNewline, if_neg]
  intro hlast
  exact h (List.mem_of_getLast? hlast)

/-- A line of at most `maxLine` bytes comes back whole. -/
theorem readlineNi_fits {l : CStr} (hnl : '\n' ∉ l) (hnul : nul ∉ l) (hlen : l.length ≤ maxLine)
    (rest : List Char) : readlineNi (l ++ '\n' :: rest) = some (l, rest) := by
  have hfit : l.length < cmdbufsz - 1 - 1 := by
    have hmax : maxLine = 253 := rfl
    have hsz : cmdbufsz = 256 := rfl
    omega
  have hnul' : nul ∉ l ++ ['\n'] := by
    rw [List.mem_append, List.mem_singleton]
    rintro (hmem | heq)
    · exact hnul hmem
    · exact absurd heq (by decide)
  simp only [readlineNi, fgets]
  rw [if_neg (by simp), takeLine_fits hnl rest hfit]
  simp [cstr_eq hnul']

/-- A longer line is cut, and the cut is not at its newline. -/
theorem readlineNi_cut {l : CStr} (hnl : '\n' ∉ l) (hnul : nul ∉ l) (hlen : maxLine < l.length)
    (rest : List Char) : readlineNi (l ++ '\n' :: rest) =
      some (l.take (maxLine + 1), l.drop (maxLine + 1) ++ '\n' :: rest) := by
  have hcut : cmdbufsz - 1 - 1 ≤ l.length := by
    have hmax : maxLine = 253 := rfl
    have hsz : cmdbufsz = 256 := rfl
    omega
  have hnl' : '\n' ∉ l.take (maxLine + 1) := fun hc => hnl (List.mem_of_mem_take hc)
  have hnul' : nul ∉ l.take (maxLine + 1) := fun hc => hnul (List.mem_of_mem_take hc)
  simp only [readlineNi, fgets]
  rw [if_neg (by simp), takeLine_cut hnl rest hcut]
  show some (trimNewline (cstr (l.take (maxLine + 1))), _) = _
  rw [cstr_eq hnul', trimNewline_of_not_mem hnl']
  rfl

/-! ## All lines -/

/-- Every call takes at least one byte of the stream. -/
theorem readlineNi_length {stream rest : List Char} {line : CStr}
    (h : readlineNi stream = some (line, rest)) : rest.length < stream.length := by
  simp only [readlineNi, fgets] at h
  split at h
  · cases h
  · next hne =>
    simp only [Option.map_some, Option.some.injEq, Prod.mk.injEq] at h
    obtain ⟨-, rfl⟩ := h
    have happ := congrArg List.length (takeLine_append (cmdbufsz - 1 - 1) stream)
    rw [List.length_append] at happ
    have htake : (takeLine (cmdbufsz - 1 - 1) stream).1 ≠ [] := by
      obtain ⟨c, s, rfl⟩ := List.exists_cons_of_ne_nil hne
      show (takeLine (253 + 1) (c :: s)).1 ≠ []
      simp only [takeLine]
      split <;> simp
    have hpos := List.length_pos_iff.mpr htake
    omega

theorem readlineNi_consumes : Consumes readlineNi := fun _ _ _ h => readlineNi_length h

theorem readLines_eq : ∀ (fuel : Nat) (stream : List Char),
    readLines fuel stream = readsFrom readlineNi fuel stream
  | 0, _ => rfl
  | fuel + 1, stream => by
      simp only [readLines, readsFrom]
      rcases readlineNi stream with _ | ⟨line, rest⟩
      · rfl
      · exact congrArg (line :: ·) (readLines_eq fuel rest)

theorem commandLines_eq (stream : List Char) : commandLines stream = reads readlineNi stream :=
  readLines_eq _ stream

/-- The lines of a stream, from the first call on. -/
theorem commandLines_cons {stream rest : List Char} {line : CStr}
    (h : readlineNi stream = some (line, rest)) :
    commandLines stream = line :: commandLines rest := by
  rw [commandLines_eq, commandLines_eq]
  exact reads_cons readlineNi_consumes h

/-- Every call takes at most one newline. -/
theorem count_readlineNi {stream rest : List Char} {line : CStr}
    (h : readlineNi stream = some (line, rest)) : stream.count '\n' ≤ rest.count '\n' + 1 := by
  simp only [readlineNi, fgets] at h
  split at h
  · cases h
  · simp only [Option.map_some, Option.some.injEq, Prod.mk.injEq] at h
    obtain ⟨-, rfl⟩ := h
    have happ := congrArg (List.count '\n') (takeLine_append (cmdbufsz - 1 - 1) stream)
    rw [List.count_append] at happ
    have hone := count_takeLine (cmdbufsz - 1 - 1) stream
    omega

/-- No line is lost: there are at least as many lines as newlines. -/
theorem count_le_length_readLines : ∀ {fuel : Nat} {stream : List Char}, stream.length ≤ fuel →
    stream.count '\n' ≤ (readLines fuel stream).length := by
  intro fuel
  induction fuel with
  | zero =>
      intro stream hle
      have hnil : stream = [] := by simpa using hle
      simp [hnil]
  | succ fuel ih =>
      intro stream hle
      simp only [readLines]
      rcases hr : readlineNi stream with _ | ⟨line, rest⟩
      · have hnil : stream = [] := by simpa [readlineNi, fgets] using hr
        simp [hnil]
      · have hlt := readlineNi_length hr
        have hcount := count_readlineNi hr
        have hrest := @ih rest (by omega)
        simp only [List.length_cons]
        omega

@[simp] theorem streamOf_nil : streamOf [] = [] := rfl

@[simp] theorem streamOf_cons (l : CStr) (lines : List CStr) :
    streamOf (l :: lines) = l ++ '\n' :: streamOf lines := by
  simp [streamOf]

theorem length_le_count_streamOf (lines : List CStr) :
    lines.length ≤ (streamOf lines).count '\n' := by
  induction lines with
  | nil => simp
  | cons l lines ih =>
      simp only [List.length_cons, streamOf_cons, List.count_append, List.count_cons_self]
      omega

theorem length_le_length_commandLines (lines : List CStr) :
    lines.length ≤ (commandLines (streamOf lines)).length :=
  Nat.le_trans (length_le_count_streamOf lines) (count_le_length_readLines (Nat.le_refl _))

/-! ## Framing -/

/-- The bytes of a line in a text without NUL bytes. -/
def PlainLine (l : CStr) : Prop := '\n' ∉ l ∧ nul ∉ l

instance (l : CStr) : Decidable (PlainLine l) := inferInstanceAs (Decidable (_ ∧ _))

/-- Lines that fit are read one by one. -/
theorem commandLines_of_fits {lines : List CStr} (hp : ∀ l ∈ lines, PlainLine l)
    (hfit : ∀ l ∈ lines, l.length ≤ maxLine) : commandLines (streamOf lines) = lines := by
  induction lines with
  | nil => rfl
  | cons l lines ih =>
      obtain ⟨hnl, hnul⟩ := hp l List.mem_cons_self
      have hread := readlineNi_fits hnl hnul (hfit l List.mem_cons_self) (streamOf lines)
      rw [streamOf_cons, commandLines_cons hread]
      rw [ih (fun l' hl' => hp l' (List.mem_cons_of_mem _ hl'))
        (fun l' hl' => hfit l' (List.mem_cons_of_mem _ hl'))]

/-- If the first line is read back, it fits: a cut line of exactly one byte too
many leaves its newline behind as one more line. -/
theorem fits_of_commandLines_cons {l : CStr} {lines : List CStr} (hp : PlainLine l)
    (h : commandLines (streamOf (l :: lines)) = l :: lines) : l.length ≤ maxLine := by
  by_contra hlong
  obtain ⟨hnl, hnul⟩ := hp
  have hread := readlineNi_cut hnl hnul (Nat.lt_of_not_le hlong) (streamOf lines)
  rw [streamOf_cons, commandLines_cons hread, List.cons.injEq] at h
  obtain ⟨hhead, hrest⟩ := h
  have hdrop : l.drop (maxLine + 1) = [] := by
    rw [List.drop_eq_nil_iff]
    exact (List.take_eq_self_iff l).mp hhead
  -- with no byte left over but the newline, one line more than expected follows
  have hcount := length_le_length_commandLines ([] :: lines)
  rw [hdrop] at hrest
  rw [streamOf_cons, hrest, List.length_cons] at hcount
  omega

/-- The sequence of strings `readline_ni` returns is the sequence of lines exactly
when every line leaves room in the buffer for its newline and the NUL, in the
`CMDBUFSZ-1` bytes `fgets` is told of. -/
theorem command_lines_framing (lines : List CStr) (hp : ∀ l ∈ lines, PlainLine l) :
    commandLines (streamOf lines) = lines ↔ ∀ l ∈ lines, l.length ≤ maxLine := by
  refine ⟨fun h => ?_, commandLines_of_fits hp⟩
  induction lines with
  | nil => simp
  | cons l lines ih =>
      have hl := hp l List.mem_cons_self
      have hfit := fits_of_commandLines_cons hl h
      have hread := readlineNi_fits hl.1 hl.2 hfit (streamOf lines)
      rw [streamOf_cons, commandLines_cons hread, List.cons.injEq] at h
      intro l' hl'
      rcases List.mem_cons.mp hl' with rfl | hmem
      · exact hfit
      · exact ih (fun l'' hl'' => hp l'' (List.mem_cons_of_mem _ hl'')) h.2 l' hmem

theorem command_lines_framing_script :
    commandLines (streamOf ["anon a 4k".toList, "".toList, "map a".toList]) =
      ["anon a 4k".toList, "".toList, "map a".toList] :=
  (command_lines_framing _ (by decide)).mpr (by decide)

/-- A line one byte too long comes back whole, and its newline as a second,
empty line. -/
theorem commandLines_one_over {l : CStr} (hp : PlainLine l) (hlen : l.length = maxLine + 1) :
    commandLines (streamOf [l]) = [l, []] := by
  have hread := readlineNi_cut hp.1 hp.2 (hlen ▸ Nat.lt_succ_self maxLine) []
  rw [List.take_of_length_le (Nat.le_of_eq hlen), List.drop_of_length_le (Nat.le_of_eq hlen)]
    at hread
  rw [streamOf_cons, streamOf_nil, commandLines_cons hread]
  rfl

theorem long_line_split :
    (∀ l ∈ [List.replicate 254 'a'], PlainLine l) ∧
      commandLines (streamOf [List.replicate 254 'a']) ≠ [List.replicate 254 'a'] := by
  have hp : PlainLine (List.replicate 254 'a') := by decide
  refine ⟨fun l hl => List.mem_singleton.mp hl ▸ hp, ?_⟩
  rw [commandLines_one_over hp List.length_replicate]
  intro h
  injection h with _ htail
  cases htail

end Memtoy
