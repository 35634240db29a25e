import Memtoy.Lib.Numeral

/-!
# Scanf — the fields of a text

`sscanf` as the C standard has it, for the directives of fixed fields: a format is a
list of directives, and what is assigned is the list of items read before the first
directive that fails. `scanf_num`, `scanf_word`, `scanf_lit` and `scanf_space` read a
format off a text one field at a time. `strchr` is the way to what lies behind the
fields.
-/

namespace CString

/-! ## Numbers -/

/-- A `0x` that is not the prefix of a number. `sscanf` has read it before it can tell. -/
def halfPrefix : CStr → Bool
  | '0' :: x :: rest => (x = 'x' ∨ x = 'X') && !hexPrefix ('0' :: x :: rest)
  | _ => false

/-- What follows white space and a sign. -/
def afterSign (s : CStr) : CStr :=
  let t := s.dropWhile isSpace
  if t.head? = some '-' ∨ t.head? = some '+' then t.tail else t

/-- A number in a base, behind white space: `none` when there is none. -/
def scanfNumber (base : Nat) (s : CStr) : Option Scanned :=
  if base = 16 ∧ halfPrefix (afterSign s) then none
  else if (scanNumber s base).rest = s then none
  else some (scanNumber s base)

/-! ## Formats -/

/-- A directive of a format: white space, a literal byte, `%<width>s`, or a number,
`%x` in base 16 and `%d` in base 10. -/
inductive Directive where
  | space
  | lit (c : Char)
  | word (width : Nat)
  | num (base : Nat)
deriving DecidableEq, Repr

/-- What a conversion assigns. -/
inductive Item where
  | word (w : CStr)
  | num (neg : Bool) (value : Nat)
deriving DecidableEq, Repr

/-- `sscanf(s, format, ...)`: what is assigned, in order. -/
def scanf : List Directive → CStr → List Item
  | [], _ => []
  | .space :: format, s => scanf format (s.dropWhile isSpace)
  | .lit c :: format, s => if s.head? = some c then scanf format s.tail else []
  | .word width :: format, s =>
      let t := s.dropWhile isSpace
      let w := (t.takeWhile (fun c => !isSpace c)).take width
      if w = [] then [] else .word w :: scanf format (t.drop w.length)
  | .num base :: format, s =>
      match scanfNumber base s with
      | none => []
      | some n => .num n.neg n.value :: scanf format n.rest

/-- The `unsigned long` that `%lx` stores. -/
def Item.ulong : Item → BitVec 64
  | .num neg value => CString.ulong neg value
  | .word _ => 0

/-- The `long` that `%ld` stores. -/
def Item.long : Item → BitVec 64
  | .num neg value =>
      if neg then BitVec.ofInt 64 (max (-0x8000000000000000) (-value))
      else BitVec.ofInt 64 (min 0x7fffffffffffffff value)
  | .word _ => 0

theorem Item.ulong_num {n : Nat} : (Item.num false n).ulong = BitVec.ofNat 64 (capped n) :=
  ulong_capped n

/-- Only zero is stored as zero. -/
theorem Item.long_eq_zero {n : Nat} : (Item.num false n).long = 0 ↔ n = 0 := by
  show BitVec.ofInt 64 (min 0x7fffffffffffffff (n : Int)) = 0 ↔ n = 0
  constructor
  · intro heq
    have hnat := congrArg BitVec.toNat heq
    rw [BitVec.toNat_ofInt] at hnat
    change _ = 0 at hnat
    omega
  · rintro rfl
    rfl

/-- The string that `%s` stores. -/
def Item.str : Item → CStr
  | .num _ _ => []
  | .word w => w

/-! ## Reading a format -/

section Rules

variable {base : Nat} {sp num w rest : CStr} {value : Nat} {format : List Directive}

/-- A number does not begin with half a prefix. -/
theorem Numeral.not_halfPrefix (hnum : Numeral base num value) (hb : base = 16)
    (hrest : Stops base rest) : halfPrefix (num ++ rest) = false := by
  subst hb
  rw [← Bool.not_eq_true]
  intro hhalf
  unfold halfPrefix at hhalf
  split at hhalf
  · next x tail heq =>
    simp only [Bool.and_eq_true, decide_eq_true_eq, Bool.not_eq_true'] at hhalf
    obtain ⟨hx, hno⟩ := hhalf
    rw [← heq] at hno
    cases hnum with
    | @hex y ds _ hy hne hds =>
        -- the digit behind the prefix is there
        obtain ⟨d, t, rfl⟩ := List.exists_cons_of_ne_nil hne
        have hpre : hexPrefix ('0' :: y :: (d :: t) ++ rest) = true := by
          show ((decide (y = 'x' ∨ y = 'X')) && isDigitIn 16 d) = true
          rw [hds d List.mem_cons_self, decide_eq_true hy]
          rfl
        rw [hpre] at hno
        cases hno
    | digits hne hds =>
        -- the `x` is a digit, or what follows the number
        have hdig : ∀ c, c = 'x' ∨ c = 'X' → isDigitIn 16 c = false := by
          rintro c (rfl | rfl) <;> decide
        obtain ⟨c, t, rfl⟩ := List.exists_cons_of_ne_nil hne
        obtain ⟨-, htail⟩ := List.cons.inj heq
        cases t with
        | nil =>
            have hstop := (hrest x (by rw [show rest = x :: tail from htail]; rfl)).2 (by decide)
            rcases hx with hx | hx
            · exact hstop.1 hx
            · exact hstop.2 hx
        | cons d t =>
            obtain ⟨rfl, -⟩ := List.cons.inj htail
            have hd := hds d (by simp)
            rw [show plainBase 16 (c :: d :: t) = 16 from rfl, hdig d hx] at hd
            cases hd
  · cases hhalf

theorem scanfNumber_numeral (hbase : IsBase base) (hsp : ∀ c ∈ sp, isSpace c = true)
    (hnum : Numeral base num value) (hrest : Stops base rest) :
    scanfNumber base (sp ++ (num ++ rest)) = some ⟨false, value, rest⟩ := by
  obtain ⟨d, t, hnumd, hd⟩ := hnum.head hbase
  have hplain := isDigitIn_plain hd
  have hscan := scanNumber_subject hbase hsp Sign.none hnum hrest
  rw [List.append_nil] at hscan
  have hafter : afterSign (sp ++ (num ++ rest)) = num ++ rest := by
    have hdrop : (sp ++ (num ++ rest)).dropWhile isSpace = num ++ rest := by
      apply dropWhile_append_stop hsp
      rw [hnumd]
      rintro c hc
      cases hc
      exact hplain.1
    unfold afterSign
    rw [hdrop, hnumd]
    simp [hplain.2.1, hplain.2.2]
  have hshort : rest ≠ sp ++ (num ++ rest) := by
    intro heq
    have hlen := congrArg List.length heq
    rw [hnumd] at hlen
    simp only [List.length_append, List.length_cons] at hlen
    omega
  unfold scanfNumber
  rw [hafter, if_neg, hscan, if_neg hshort]
  rintro ⟨hb, hhalf⟩
  rw [hnum.not_halfPrefix hb hrest] at hhalf
  cases hhalf

/-- A number field, with the white space before it. -/
theorem scanf_num (hbase : IsBase base) (hsp : ∀ c ∈ sp, isSpace c = true)
    (hnum : Numeral base num value) (hrest : Stops base rest) :
    scanf (.num base :: format) (sp ++ (num ++ rest)) = .num false value :: scanf format rest := by
  simp only [scanf, scanfNumber_numeral hbase hsp hnum hrest]

/-- Digits of a base, and no other bytes. -/
structure IsDigits (base : Nat) (ds : CStr) : Prop where
  ne_nil : ds ≠ []
  digits : ∀ c ∈ ds, isDigitIn base c = true

theorem IsDigits.not_mem {ds : CStr} (h : IsDigits base ds) {c : Char} (hc : digitVal c = none) :
    c ∉ ds := by
  intro hmem
  obtain ⟨d, hd, -⟩ := isDigitIn_iff.mp (h.digits c hmem)
  rw [hc] at hd
  cases hd

/-- A field begins with no white space. -/
theorem head_of_field (hne : w ≠ []) (hw : ∀ c ∈ w, isSpace c = false) :
    ∀ c, (w ++ rest).head? = some c → isSpace c = false := by
  obtain ⟨d, t, rfl⟩ := List.exists_cons_of_ne_nil hne
  rintro c hc
  cases hc
  exact hw d List.mem_cons_self

theorem IsDigits.head {ds : CStr} (h : IsDigits base ds) :
    ∀ c, (ds ++ rest).head? = some c → isSpace c = false :=
  head_of_field h.ne_nil fun c hc => (isDigitIn_plain (h.digits c hc)).1

theorem stops_cons (base : Nat) {c : Char} (hdigit : isDigitIn 16 c = false)
    (hx : c ≠ 'x' ∧ c ≠ 'X') (rest : CStr) : Stops base (c :: rest) := by
  rintro d hd
  cases hd
  refine ⟨?_, fun _ => hx⟩
  rw [← Bool.not_eq_true]
  intro hdig
  rw [isDigitIn_mono (maxBase_le base) hdig] at hdigit
  cases hdigit

/-- A field of digits. -/
theorem scanf_digits {ds : CStr} (hbase : base = 10 ∨ base = 16) (hds : IsDigits base ds)
    (hrest : Stops base rest) :
    scanf (.num base :: format) (ds ++ rest) =
      .num false (valueIn base ds) :: scanf format rest := by
  have hplain : plainBase base ds = base := by
    unfold plainBase
    rw [if_neg (by omega)]
  have hnum : Numeral base ds (valueIn base ds) := by
    have hnum' := @Numeral.digits base ds hds.ne_nil (by rw [hplain]; exact hds.digits)
    rwa [hplain] at hnum'
  have hsp : ∀ c ∈ ([] : CStr), isSpace c = true := by simp
  exact scanf_num (Or.inr hbase) hsp hnum hrest

theorem scanf_lit (c : Char) : scanf (.lit c :: format) (c :: rest) = scanf format rest := by
  simp [scanf]

/-- White space in the format takes all there is. -/
theorem scanf_space (hsp : ∀ c ∈ sp, isSpace c = true)
    (hrest : ∀ c, rest.head? = some c → isSpace c = false) :
    scanf (.space :: format) (sp ++ rest) = scanf format rest := by
  simp only [scanf, dropWhile_append_stop hsp hrest]

theorem scanf_blank (hrest : ∀ c, rest.head? = some c → isSpace c = false) :
    scanf (.space :: format) (' ' :: rest) = scanf format rest := by
  have hsp : ∀ c ∈ [' '], isSpace c = true := by simp [isSpace]
  exact scanf_space hsp hrest

/-- A word as long as its width. -/
theorem scanf_word (hw : ∀ c ∈ w, isSpace c = false) (hne : w ≠ []) :
    scanf (.word w.length :: format) (w ++ rest) = .word w :: scanf format rest := by
  have hdrop : (w ++ rest).dropWhile isSpace = w ++ rest := by
    obtain ⟨c, t, rfl⟩ := List.exists_cons_of_ne_nil hne
    have hc := hw c List.mem_cons_self
    simp [hc]
  have htake : ((w ++ rest).takeWhile (fun c => !isSpace c)).take w.length = w := by
    rw [List.takeWhile_append_of_pos (fun c hc => by simp [hw c hc]), List.take_left]
  simp only [scanf, hdrop, htake]
  rw [if_neg hne, List.drop_left]

end Rules

/-! ## `strchr` -/

/-- `strchr(s, c)` for a byte other than the NUL: the string from its first `c` on. -/
def strchr (s : CStr) (c : Char) : Option CStr :=
  match s.dropWhile (· ≠ c) with
  | [] => none
  | t => some t

theorem strchr_suffix {s t : CStr} {c : Char} (h : strchr s c = some t) : t <:+ s := by
  unfold strchr at h
  split at h
  · cases h
  · cases h
    exact List.dropWhile_suffix _

theorem strchr_append {a : CStr} {c : Char} (ha : c ∉ a) (b : CStr) :
    strchr (a ++ c :: b) c = some (c :: b) := by
  have hdrop : (a ++ c :: b).dropWhile (· ≠ c) = c :: b := by
    apply dropWhile_append_stop
    · intro d hd
      simpa using fun heq : d = c => ha (heq ▸ hd)
    · rintro d hd
      cases hd
      simp
  unfold strchr
  rw [hdrop]

end CString
