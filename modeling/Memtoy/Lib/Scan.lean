import Mathlib.Algebra.Group.Nat.Defs
import Mathlib.Data.List.Basic
import Memtoy.Lib.CString

/-!
# Scan — words and numbers of C strings

Comparison up to a length, tokens, and the conversions of `strtoul` and `strtol`,
as the C library documents them, in the "C" locale. A `char *` into a string is the
rest of the string.
-/

namespace CString

/-! ## Comparison -/

/-- `strncmp(a, b, n) == 0` -/
def strncmpEq (a b : CStr) (n : Nat) : Bool := (a ++ [nul]).take n = (b ++ [nul]).take n

theorem strncmpEq_comm (a b : CStr) (n : Nat) : strncmpEq a b n = strncmpEq b a n :=
  decide_eq_decide.mpr eq_comm

/-- `strncasecmp(a, b, n) == 0` -/
def strncasecmpEq (a b : CStr) (n : Nat) : Bool :=
  strncmpEq (a.map Char.toLower) (b.map Char.toLower) n

/-- `!strncasecmp(arg, word, strlen(arg))`: `arg` abbreviates `word`. -/
def abbreviates (arg word : CStr) : Bool := strncasecmpEq arg word arg.length

/-- A comparison of as many bytes as a word has asks for a prefix. -/
theorem strncmpEq_iff {word a b : CStr} (hword : nul ∉ word) (ha : word <+: a) :
    strncmpEq a b word.length = true ↔ word <+: b := by
  have htake : (a ++ [nul]).take word.length = word :=
    (List.prefix_iff_eq_take.mp (ha.trans (List.prefix_append a _))).symm
  have hconcat : word <+: b ++ [nul] ↔ word <+: b := by
    rw [List.prefix_concat_iff]
    constructor
    · rintro (rfl | h)
      · exact absurd (by simp) hword
      · exact h
    · exact Or.inr
  rw [strncmpEq, decide_eq_true_eq, htake, ← hconcat, List.prefix_iff_eq_take]

theorem eq_of_toLower {c d : Char} (h : c.toLower = d) : c = d ∨ c.toNat + 32 = d.toNat := by
  unfold Char.toLower at h
  split at h
  · next hup =>
    have hle : c.val.toNat ≤ 90 := hup.2
    refine Or.inr ?_
    rw [← h]
    show c.val.toNat + 32 = (c.val + 32).toNat
    rw [UInt32.toNat_add]
    show _ = (c.val.toNat + 32) % 2 ^ 32
    omega
  · exact Or.inl h

/-- A letter is the lower one of two. -/
theorem toLower_cases {c d u : Char} (h : c.toLower = d) (hu : u.toNat + 32 = d.toNat) :
    c = d ∨ c = u := by
  rcases eq_of_toLower h with heq | heq
  · exact Or.inl heq
  · exact Or.inr (Char.toNat_inj.mp (by omega))

/-! ## Tokens -/

/-- `s + strspn(s, accept)` -/
def skipSpan (accept : List Char) (s : CStr) : CStr := s.dropWhile (· ∈ accept)

/-- `strtok_r(s, delim, &rest)`: the token, `none` for NULL, and the rest. -/
def strtokR (delim : List Char) (s : CStr) : Option CStr × CStr :=
  let s := skipSpan delim s
  if s = [] then (none, []) else (some (s.takeWhile (· ∉ delim)), (s.dropWhile (· ∉ delim)).tail)

/-- The tokens of `s`, as `while (*s) { tok = strtok_r(s, delim, &s); ... }` meets them
when delimiters are skipped after each. -/
def tokens (delim : List Char) (s : CStr) : List CStr :=
  (s.splitOnP (· ∈ delim)).filter (· ≠ [])

theorem strtokR_some {delim : List Char} {c : Char} {s : CStr} (hc : c ∉ delim) :
    (strtokR delim (c :: s)).1 = some ((c :: s).takeWhile (· ∉ delim)) := by
  have hskip : skipSpan delim (c :: s) = c :: s := by simp [skipSpan, hc]
  simp [strtokR, hskip]

/-! ## Numbers -/

/-- `isspace` -/
def isSpace (c : Char) : Bool := c ∈ [' ', '\t', '\n', '\x0b', '\x0c', '\r']

/-- The value of a digit in bases up to 36. -/
def digitVal (c : Char) : Option Nat :=
  if '0' ≤ c ∧ c ≤ '9' then some (c.toNat - '0'.toNat)
  else if 'a' ≤ c ∧ c ≤ 'z' then some (c.toNat - 'a'.toNat + 10)
  else if 'A' ≤ c ∧ c ≤ 'Z' then some (c.toNat - 'A'.toNat + 10)
  else none

def isDigitIn (base : Nat) (c : Char) : Bool :=
  match digitVal c with
  | some d => d < base
  | none => false

/-- A `0x` or `0X` with a hexadecimal digit after it. -/
def hexPrefix : CStr → Bool
  | '0' :: x :: d :: _ => (x = 'x' ∨ x = 'X') && isDigitIn 16 d
  | _ => false

/-- A number as it was written: its sign, its magnitude, and what comes after it. -/
structure Scanned where
  neg : Bool
  value : Nat
  rest : CStr
deriving DecidableEq, Repr

/-- What `strtoul` and `strtol` read; `base` is 0, 10 or 16. With no digits the number
is zero and nothing is consumed. -/
def scanNumber (s : CStr) (base : Nat) : Scanned :=
  let t := s.dropWhile isSpace
  let neg := t.head? = some '-'
  let t := if t.head? = some '-' ∨ t.head? = some '+' then t.tail else t
  let hex := (base = 0 ∨ base = 16) && hexPrefix t
  let t := if hex then t.drop 2 else t
  let base := if base = 0 then (if hex then 16 else if t.head? = some '0' then 8 else 10) else base
  let digits := t.takeWhile (isDigitIn base)
  if digits = [] then ⟨false, 0, s⟩
  else
    ⟨neg, digits.foldl (fun n c => n * base + (digitVal c).getD 0) 0, t.dropWhile (isDigitIn base)⟩

/-- `strtoul(s, &rest, base)` with 64-bit `unsigned long`: `ULONG_MAX` on overflow, a
number with a minus sign negated. -/
def strtoul (s : CStr) (base : Nat) : BitVec 64 × CStr :=
  let n := scanNumber s base
  let value := if 2 ^ 64 ≤ n.value then BitVec.allOnes 64
    else if n.neg then - BitVec.ofNat 64 n.value else BitVec.ofNat 64 n.value
  (value, n.rest)

/-- `strtol(s, &rest, base)` with 64-bit `long`: clamped to its range. -/
def strtol (s : CStr) (base : Nat) : BitVec 64 × CStr :=
  let n := scanNumber s base
  let value := if n.neg then BitVec.ofInt 64 (max (-0x8000000000000000) (-n.value))
    else BitVec.ofInt 64 (min 0x7fffffffffffffff n.value)
  (value, n.rest)

example : strtoul ['0', 'x', '1', 'f', 'k'] 0 = (0x1f#64, ['k']) := by decide

/-- The `int` a 64-bit value is converted to. -/
def toInt32 (v : BitVec 64) : Int := (v.truncate 32).toInt

end CString
