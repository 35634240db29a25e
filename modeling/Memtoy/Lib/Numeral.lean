import Mathlib.Tactic.NormNum
import Memtoy.Lib.Scan

/-!
# Numeral — the numbers `strtoul` reads and `printf` writes

`Numeral` is the grammar of the numbers `strtoul` accepts, without its sign, and
`Subject` the one of all it consumes. `scanNumber_subject` says that such a text is read
as its value, `scanNumber_cases` that nothing else is. `hexDigits` is what `%x` writes
with a precision.
-/

namespace CString

/-! ## Digits -/

/-- The value of digits in a base, the high digit first. -/
def valueIn (base : Nat) (ds : CStr) : Nat :=
  ds.foldl (fun n c => n * base + (digitVal c).getD 0) 0

@[simp] theorem valueIn_nil (base : Nat) : valueIn base [] = 0 := rfl

theorem valueIn_append_singleton (base : Nat) (ds : CStr) (c : Char) :
    valueIn base (ds ++ [c]) = valueIn base ds * base + (digitVal c).getD 0 := by
  unfold valueIn
  rw [List.foldl_append]
  rfl

theorem isDigitIn_iff {base : Nat} {c : Char} :
    isDigitIn base c = true ↔ ∃ d, digitVal c = some d ∧ d < base := by
  unfold isDigitIn
  cases digitVal c <;> simp

/-- Digits stand for a number below the power of the base. -/
theorem valueIn_lt {base : Nat} {ds : CStr} (h : ∀ c ∈ ds, isDigitIn base c = true) :
    valueIn base ds < base ^ ds.length := by
  induction ds using List.reverseRecOn with
  | nil => simp
  | append_singleton ds c ih =>
      rw [List.forall_mem_append] at h
      obtain ⟨d, hd, hlt⟩ := isDigitIn_iff.mp (h.2 c (List.mem_singleton_self c))
      have hle := Nat.mul_le_mul_right base (Nat.succ_le_of_lt (ih h.1))
      rw [valueIn_append_singleton, hd, List.length_append, List.length_singleton, Nat.pow_succ]
      rw [Nat.succ_mul] at hle
      show valueIn base ds * base + d < _
      omega

theorem isDigitIn_mono {base base' : Nat} (h : base ≤ base') {c : Char}
    (hc : isDigitIn base c = true) : isDigitIn base' c = true := by
  obtain ⟨d, hd, hlt⟩ := isDigitIn_iff.mp hc
  exact isDigitIn_iff.mpr ⟨d, hd, Nat.lt_of_lt_of_le hlt h⟩

/-- `isdigit` -/
theorem isDigitIn_ten (c : Char) : isDigitIn 10 c = c.isDigit := by
  unfold isDigitIn digitVal
  by_cases h : '0' ≤ c ∧ c ≤ '9'
  · have hle : c.toNat ≤ 57 := h.2
    have hdigit : c.isDigit = true := by
      simpa [Char.isDigit, Char.le_def] using h
    rw [if_pos h, hdigit]
    show decide (c.toNat - 48 < 10) = true
    rw [decide_eq_true_eq]
    omega
  · have hdigit : c.isDigit = false := by
      simpa [Char.isDigit, Char.le_def] using h
    rw [if_neg h, hdigit]
    by_cases hlow : 'a' ≤ c ∧ c ≤ 'z'
    · simp [hlow]
    · by_cases hup : 'A' ≤ c ∧ c ≤ 'Z'
      · simp [hlow, hup]
      · simp [hlow, hup]

theorem digitVal_of_space {c : Char} (h : isSpace c = true) : digitVal c = none := by
  simp only [isSpace, List.mem_cons, List.not_mem_nil, or_false, decide_eq_true_eq] at h
  rcases h with rfl | rfl | rfl | rfl | rfl | rfl <;> decide

/-- A digit is no space and no sign. -/
theorem isDigitIn_plain {base : Nat} {c : Char} (h : isDigitIn base c = true) :
    isSpace c = false ∧ c ≠ '-' ∧ c ≠ '+' := by
  obtain ⟨d, hd, -⟩ := isDigitIn_iff.mp h
  refine ⟨?_, ?_, ?_⟩
  · rw [← Bool.not_eq_true]
    intro hspace
    rw [digitVal_of_space hspace] at hd
    cases hd
  · rintro rfl
    cases hd
  · rintro rfl
    cases hd

/-! ## The grammar -/

/-- The base digits without a prefix are in. -/
def plainBase (base : Nat) (ds : CStr) : Nat :=
  if base = 0 then (if ds.head? = some '0' then 8 else 10) else base

/-- A number as `strtoul` accepts it in a base, without a sign, and its value. -/
inductive Numeral (base : Nat) : CStr → Nat → Prop where
  | hex {x : Char} {ds : CStr} : base = 0 ∨ base = 16 → x = 'x' ∨ x = 'X' → ds ≠ [] →
      (∀ c ∈ ds, isDigitIn 16 c = true) → Numeral base ('0' :: x :: ds) (valueIn 16 ds)
  | digits {ds : CStr} : ds ≠ [] → (∀ c ∈ ds, isDigitIn (plainBase base ds) c = true) →
      Numeral base ds (valueIn (plainBase base ds) ds)

/-- An optional sign. -/
inductive Sign : CStr → Bool → Prop where
  | none : Sign [] false
  | plus : Sign ['+'] false
  | minus : Sign ['-'] true

/-- All `strtoul` consumes: white space, a sign, a number. -/
structure Subject (base : Nat) (s : CStr) (neg : Bool) (value : Nat) : Prop where
  parts : ∃ sp sg num, s = sp ++ sg ++ num ∧ (∀ c ∈ sp, isSpace c = true) ∧ Sign sg neg ∧
    Numeral base num value

/-- The bases the program reads numbers in. -/
def IsBase (base : Nat) : Prop := base = 0 ∨ base = 10 ∨ base = 16

/-- A bound of the digits a base has. -/
def maxBase (base : Nat) : Nat := if base = 10 then 10 else 16

/-- What follows a number cannot go on with it. -/
def Stops (base : Nat) (rest : CStr) : Prop :=
  ∀ c, rest.head? = some c → isDigitIn (maxBase base) c = false ∧
    (base ≠ 10 → c ≠ 'x' ∧ c ≠ 'X')

theorem plainBase_le {base : Nat} (h : IsBase base) (ds : CStr) :
    plainBase base ds ≤ maxBase base := by
  unfold plainBase maxBase
  rcases h with rfl | rfl | rfl
  · simp only [if_true]
    split <;> simp
  · simp
  · simp

theorem maxBase_le (base : Nat) : maxBase base ≤ 16 := by
  unfold maxBase
  split <;> omega

/-- A number starts with a digit. -/
theorem Numeral.head {base : Nat} (hbase : IsBase base) {num : CStr} {value : Nat}
    (h : Numeral base num value) : ∃ c t, num = c :: t ∧ isDigitIn 16 c = true := by
  cases h with
  | hex hb hx hne hds => exact ⟨'0', _, rfl, by decide⟩
  | digits hne hds =>
      obtain ⟨c, t, rfl⟩ := List.exists_cons_of_ne_nil hne
      exact ⟨c, t, rfl, isDigitIn_mono ((plainBase_le hbase _).trans (maxBase_le base)) (hds c List.mem_cons_self)⟩

/-- A byte that is no digit is in no number. -/
theorem Numeral.not_mem {base : Nat} {num : CStr} {value : Nat} (h : Numeral base num value)
    {c : Char} (hc : digitVal c = none) (hx : c ∉ ['0', 'x', 'X']) : c ∉ num := by
  have hno : ∀ {ds : CStr} {b : Nat}, (∀ d ∈ ds, isDigitIn b d = true) → c ∉ ds := by
    intro ds b hds hmem
    obtain ⟨d, hd, -⟩ := isDigitIn_iff.mp (hds c hmem)
    rw [hc] at hd
    cases hd
  simp only [List.mem_cons, List.not_mem_nil, or_false, not_or] at hx
  cases h with
  | hex _ hx' _ hds =>
      have hds' := hno hds
      rcases hx' with rfl | rfl <;> simp [hds', hx]
  | digits _ hds => exact hno hds

/-! ## Reading -/

/-- The digits `scanNumber` looks at, behind a prefix. -/
def scanDigits (base : Nat) (t : CStr) : CStr :=
  if (base = 0 ∨ base = 16) ∧ hexPrefix t then t.drop 2 else t

/-- The base it looks for them in. -/
def scanBase (base : Nat) (t : CStr) : Nat :=
  if (base = 0 ∨ base = 16) ∧ hexPrefix t then 16 else plainBase base t

/-- `scanNumber` behind white space and the sign. -/
theorem scanNumber_eq {base : Nat} {sp sg t : CStr} {neg : Bool}
    (hsp : ∀ c ∈ sp, isSpace c = true) (hsg : Sign sg neg)
    (ht : sg = [] → ∀ c, t.head? = some c → isSpace c = false ∧ c ≠ '-' ∧ c ≠ '+') :
    scanNumber (sp ++ sg ++ t) base =
      if (scanDigits base t).takeWhile (isDigitIn (scanBase base t)) = [] then
        ⟨false, 0, sp ++ sg ++ t⟩
      else
        ⟨neg, valueIn (scanBase base t) ((scanDigits base t).takeWhile (isDigitIn (scanBase base t))),
          (scanDigits base t).dropWhile (isDigitIn (scanBase base t))⟩ := by
  have hdrop : (sp ++ sg ++ t).dropWhile isSpace = sg ++ t := by
    rw [List.append_assoc, List.dropWhile_append_of_pos hsp]
    cases hsg with
    | none =>
        cases t with
        | nil => rfl
        | cons c t =>
            have hc := (ht rfl c rfl).1
            simp [hc]
    | plus => rfl
    | minus => rfl
  have hneg : decide ((sg ++ t).head? = some '-') = neg := by
    cases hsg with
    | none =>
        cases t with
        | nil => rfl
        | cons c t =>
            have hc := (ht rfl c rfl).2.1
            simp [hc]
    | plus => rfl
    | minus => rfl
  have hbody : (if (sg ++ t).head? = some '-' ∨ (sg ++ t).head? = some '+' then (sg ++ t).tail
      else sg ++ t) = t := by
    cases hsg with
    | none =>
        cases t with
        | nil => rfl
        | cons c t =>
            have hc := (ht rfl c rfl).2
            simp [hc.1, hc.2]
    | plus => rfl
    | minus => rfl
  simp only [scanNumber, hdrop, hbody, hneg]
  unfold scanDigits scanBase plainBase valueIn
  by_cases hb : base = 0 ∨ base = 16
  · by_cases hx : hexPrefix t = true
    · rcases hb with rfl | rfl <;> simp [hx]
    · rcases hb with rfl | rfl <;> simp [hx]
  · obtain ⟨hb0, hb16⟩ := not_or.mp hb
    simp [hb0, hb16]

/-- Digits alone do not begin with a prefix. -/
theorem not_hexPrefix {ds rest : CStr} (hne : ds ≠ []) (hds : ∀ c ∈ ds, isDigitIn 16 c = true)
    (hrest : ∀ c, rest.head? = some c → c ≠ 'x' ∧ c ≠ 'X') : hexPrefix (ds ++ rest) = false := by
  rw [← Bool.not_eq_true]
  intro hpre
  -- the second byte of a prefix is no digit, and is not what follows a number
  have hx : ∀ {x : Char}, x = 'x' ∨ x = 'X' → isDigitIn 16 x = false := by
    rintro x (rfl | rfl) <;> decide
  match ds, hne with
  | [c], _ =>
      cases rest with
      | nil =>
          unfold hexPrefix at hpre
          split at hpre <;> simp_all
      | cons r rest =>
          have hr := hrest r rfl
          unfold hexPrefix at hpre
          split at hpre
          · next heq =>
            cases heq
            simp [hr.1, hr.2] at hpre
          · cases hpre
  | c :: c' :: ds, _ =>
      have hc' := hds c' (by simp)
      unfold hexPrefix at hpre
      split at hpre
      · next heq =>
        obtain ⟨-, rfl, -⟩ : c = '0' ∧ c' = _ ∧ ds ++ rest = _ := by simpa using heq
        rw [Bool.and_eq_true, decide_eq_true_eq] at hpre
        rw [hx hpre.1] at hc'
        cases hc'
      · cases hpre

theorem plainBase_append {base : Nat} {ds : CStr} (hne : ds ≠ []) (rest : CStr) :
    plainBase base (ds ++ rest) = plainBase base ds := by
  obtain ⟨c, t, rfl⟩ := List.exists_cons_of_ne_nil hne
  rfl

/-- A number is read as its value, up to its end. -/
theorem scanNumber_subject {base : Nat} (hbase : IsBase base) {sp sg num rest : CStr} {neg : Bool}
    {value : Nat} (hsp : ∀ c ∈ sp, isSpace c = true) (hsg : Sign sg neg)
    (hnum : Numeral base num value) (hrest : Stops base rest) :
    scanNumber (sp ++ sg ++ (num ++ rest)) base = ⟨neg, value, rest⟩ := by
  have hhead : ∀ c, (num ++ rest).head? = some c → isSpace c = false ∧ c ≠ '-' ∧ c ≠ '+' := by
    obtain ⟨d, t, rfl, hd⟩ := hnum.head hbase
    rintro c hc
    cases hc
    exact isDigitIn_plain hd
  have hstop : ∀ {b : Nat}, b ≤ maxBase base → ∀ c, rest.head? = some c → isDigitIn b c = false := by
    intro b hb c hc
    rw [← Bool.not_eq_true]
    intro hdig
    have hno := (hrest c hc).1
    rw [isDigitIn_mono hb hdig] at hno
    cases hno
  rw [scanNumber_eq hsp hsg (fun _ => hhead)]
  cases hnum with
  | @hex x ds hb hx hne hds =>
      obtain ⟨d, t, rfl⟩ := List.exists_cons_of_ne_nil hne
      have hpre : hexPrefix ('0' :: x :: (d :: t) ++ rest) = true := by
        show ((decide (x = 'x' ∨ x = 'X')) && isDigitIn 16 d) = true
        rw [hds d List.mem_cons_self, decide_eq_true hx]
        rfl
      have hdigits : scanDigits base ('0' :: x :: (d :: t) ++ rest) = d :: t ++ rest := by
        rw [scanDigits, if_pos ⟨hb, hpre⟩]
        rfl
      have hscan : scanBase base ('0' :: x :: (d :: t) ++ rest) = 16 := by
        rw [scanBase, if_pos ⟨hb, hpre⟩]
      have hle : 16 ≤ maxBase base := by
        rcases hb with rfl | rfl <;> simp [maxBase]
      rw [hdigits, hscan, takeWhile_append_stop hds (hstop hle), if_neg hne,
        dropWhile_append_stop hds (hstop hle)]
  | digits hne hds =>
      have hle := plainBase_le hbase num
      have hpre : ¬ ((base = 0 ∨ base = 16) ∧ hexPrefix (num ++ rest) = true) := by
        rintro ⟨hb, hpre⟩
        have hten : base ≠ 10 := by omega
        have hdigit : ∀ c ∈ num, isDigitIn 16 c = true :=
          fun c hc => isDigitIn_mono (hle.trans (maxBase_le base)) (hds c hc)
        rw [not_hexPrefix hne hdigit (fun c hc => (hrest c hc).2 hten)] at hpre
        cases hpre
      have hdigits : scanDigits base (num ++ rest) = num ++ rest := by
        rw [scanDigits, if_neg hpre]
      have hscan : scanBase base (num ++ rest) = plainBase base num := by
        rw [scanBase, if_neg hpre, plainBase_append hne]
      rw [hdigits, hscan, takeWhile_append_stop hds (hstop hle), if_neg hne,
        dropWhile_append_stop hds (hstop hle)]

/-- Nothing else is read as a number. -/
theorem scanNumber_cases (base : Nat) (s : CStr) :
    scanNumber s base = ⟨false, 0, s⟩ ∨
      ∃ pre, s = pre ++ (scanNumber s base).rest ∧
        Subject base pre (scanNumber s base).neg (scanNumber s base).value := by
  -- take the white space and the sign off
  obtain ⟨sp, sg, t, neg, rfl, hsp, hsg, ht⟩ : ∃ sp sg t neg, s = sp ++ sg ++ t ∧
      (∀ c ∈ sp, isSpace c = true) ∧ Sign sg neg ∧
      (sg = [] → ∀ c, t.head? = some c → isSpace c = false ∧ c ≠ '-' ∧ c ≠ '+') := by
    have hsplit : s = s.takeWhile isSpace ++ s.dropWhile isSpace :=
      List.takeWhile_append_dropWhile.symm
    have hsp : ∀ c ∈ s.takeWhile isSpace, isSpace c = true := fun c hc => List.mem_takeWhile_imp hc
    have hhead := List.head?_dropWhile_not isSpace s
    rcases hu : s.dropWhile isSpace with _ | ⟨c, u⟩
    · rw [hu, List.append_nil] at hsplit
      exact ⟨_, [], [], false, by simpa using hsplit, hsp, .none, by simp⟩
    · rw [hu] at hhead hsplit
      by_cases hminus : c = '-'
      · exact ⟨_, ['-'], u, true, by simpa [hminus] using hsplit, hsp, .minus, by simp⟩
      · by_cases hplus : c = '+'
        · exact ⟨_, ['+'], u, false, by simpa [hplus] using hsplit, hsp, .plus, by simp⟩
        · refine ⟨_, [], c :: u, false, by simpa using hsplit, hsp, .none, fun _ d hd => ?_⟩
          cases hd
          exact ⟨by simpa using hhead, hminus, hplus⟩
  rw [scanNumber_eq hsp hsg ht]
  split
  · exact Or.inl rfl
  · next hne =>
    refine Or.inr ?_
    have hdig : ∀ c ∈ (scanDigits base t).takeWhile (isDigitIn (scanBase base t)),
        isDigitIn (scanBase base t) c = true := fun c hc => List.mem_takeWhile_imp hc
    have hjoin : (scanDigits base t).takeWhile (isDigitIn (scanBase base t)) ++
        (scanDigits base t).dropWhile (isDigitIn (scanBase base t)) = scanDigits base t :=
      List.takeWhile_append_dropWhile
    generalize (scanDigits base t).takeWhile (isDigitIn (scanBase base t)) = ds at *
    generalize (scanDigits base t).dropWhile (isDigitIn (scanBase base t)) = rest at *
    by_cases hpre : (base = 0 ∨ base = 16) ∧ hexPrefix t = true
    · rw [scanBase, if_pos hpre] at hdig ⊢
      rw [scanDigits, if_pos hpre] at hjoin
      obtain ⟨x, u, rfl, hx⟩ : ∃ x u, t = '0' :: x :: u ∧ (x = 'x' ∨ x = 'X') := by
        have h := hpre.2
        unfold hexPrefix at h
        split at h
        · next x d u =>
          rw [Bool.and_eq_true, decide_eq_true_eq] at h
          exact ⟨x, d :: u, rfl, h.1⟩
        · cases h
      refine ⟨sp ++ sg ++ ('0' :: x :: ds), ?_, sp, sg, _, rfl, hsp, hsg, .hex hpre.1 hx hne hdig⟩
      show _ = sp ++ sg ++ ('0' :: x :: ds) ++ rest
      rw [List.append_assoc _ _ rest]
      show _ = sp ++ sg ++ ('0' :: x :: (ds ++ rest))
      rw [hjoin]
      rfl
    · rw [scanBase, if_neg hpre] at hdig ⊢
      rw [scanDigits, if_neg hpre] at hjoin
      rw [← hjoin, plainBase_append hne] at hdig ⊢
      refine ⟨sp ++ sg ++ ds, ?_, sp, sg, ds, rfl, hsp, hsg, .digits hne hdig⟩
      show _ = sp ++ sg ++ ds ++ rest
      rw [List.append_assoc _ ds rest]

/-! ## `strtoul` -/

/-- A number is cut to `ULONG_MAX`. -/
def capped (n : Nat) : Nat := min n 0xffffffffffffffff

theorem capped_of_lt {n : Nat} (h : n < 2 ^ 64) : capped n = n := by
  have hmax : (2 : Nat) ^ 64 = 0xffffffffffffffff + 1 := by norm_num
  unfold capped
  omega

/-- What `strtoul` makes of a sign and a magnitude. -/
def ulong (neg : Bool) (value : Nat) : BitVec 64 :=
  if 2 ^ 64 ≤ value then BitVec.allOnes 64
  else if neg then - BitVec.ofNat 64 value else BitVec.ofNat 64 value

theorem ulong_capped (n : Nat) : ulong false n = BitVec.ofNat 64 (capped n) := by
  have hmax : (2 : Nat) ^ 64 = 0xffffffffffffffff + 1 := by norm_num
  unfold ulong
  by_cases hle : 2 ^ 64 ≤ n
  · rw [if_pos hle, capped, Nat.min_eq_right (by omega)]
    decide
  · rw [if_neg hle, capped_of_lt (by omega)]
    rfl

theorem strtoul_of_scan {s rest : CStr} {base value : Nat}
    (h : scanNumber s base = ⟨false, value, rest⟩) :
    strtoul s base = (BitVec.ofNat 64 (capped value), rest) := by
  have hulong : strtoul s base = (ulong false value, rest) := by
    unfold strtoul
    rw [h]
    rfl
  rw [hulong, ulong_capped]

theorem strtoul_numeral {base : Nat} (hbase : IsBase base) {num rest : CStr} {value : Nat}
    (hnum : Numeral base num value) (hrest : Stops base rest) :
    strtoul (num ++ rest) base = (BitVec.ofNat 64 (capped value), rest) := by
  have hspaces : ∀ c ∈ ([] : CStr), isSpace c = true := by simp
  have hscan := scanNumber_subject hbase hspaces Sign.none hnum hrest
  exact strtoul_of_scan hscan

theorem Subject.head {base : Nat} (hbase : IsBase base) {s : CStr} {neg : Bool} {value : Nat}
    (h : Subject base s neg value) :
    ∃ c t, s = c :: t ∧ (isSpace c = true ∨ c = '+' ∨ c = '-' ∨ isDigitIn 16 c = true) := by
  obtain ⟨sp, sg, num, rfl, hsp, hsg, hnum⟩ := h.parts
  obtain ⟨d, t, rfl, hd⟩ := hnum.head hbase
  cases sp with
  | cons c sp => exact ⟨c, _, rfl, Or.inl (hsp c List.mem_cons_self)⟩
  | nil =>
      cases hsg with
      | none => exact ⟨d, t, rfl, by simp [hd]⟩
      | plus => exact ⟨'+', _, rfl, by simp⟩
      | minus => exact ⟨'-', _, rfl, by simp⟩

/-- A subject is consumed, if what follows cannot go on with it. -/
theorem strtoul_subject {base : Nat} (hbase : IsBase base) {pre rest : CStr} {neg : Bool}
    {value : Nat} (h : Subject base pre neg value) (hrest : Stops base rest) :
    strtoul (pre ++ rest) base = (ulong neg value, rest) := by
  obtain ⟨sp, sg, num, rfl, hsp, hsg, hnum⟩ := h.parts
  rw [List.append_assoc]
  unfold strtoul
  rw [scanNumber_subject hbase hsp hsg hnum hrest]
  rfl

/-- `strtoul` consumes a subject or nothing. -/
theorem strtoul_cases (base : Nat) (s : CStr) :
    strtoul s base = (0#64, s) ∨
      ∃ pre neg value rest, s = pre ++ rest ∧ Subject base pre neg value ∧
        strtoul s base = (ulong neg value, rest) := by
  unfold strtoul
  rcases scanNumber_cases base s with hno | ⟨pre, hpre, hsubject⟩
  · rw [hno]
    exact Or.inl rfl
  · exact Or.inr ⟨pre, _, _, _, hpre, hsubject, rfl⟩

/-! ## `printf` -/

/-- `k` hexadecimal digits of `n`, the high digit first. -/
def hexDigits : (k : Nat) → (n : Nat) → CStr
  | 0, _ => []
  | k + 1, n => hexDigits k (n / 16) ++ [Nat.digitChar (n % 16)]

theorem digitVal_digitChar {d : Nat} (h : d < 16) : digitVal (Nat.digitChar d) = some d := by
  revert d
  decide

theorem isDigitIn_hexDigits (k : Nat) : ∀ n, ∀ c ∈ hexDigits k n, isDigitIn 16 c = true := by
  induction k with
  | zero => simp [hexDigits]
  | succ k ih =>
      intro n c hc
      rcases List.mem_append.mp hc with hc | hc
      · exact ih _ c hc
      · rw [List.mem_singleton.mp hc]
        have hlt := Nat.mod_lt n (by decide : 0 < 16)
        exact isDigitIn_iff.mpr ⟨_, digitVal_digitChar hlt, hlt⟩

/-- The digits stand for the number, if there are enough of them. -/
theorem valueIn_hexDigits (k : Nat) : ∀ n, n < 16 ^ k → valueIn 16 (hexDigits k n) = n := by
  induction k with
  | zero =>
      intro n hn
      have hn0 : n = 0 := by simpa using hn
      rw [hn0]
      rfl
  | succ k ih =>
      intro n hn
      have hlt : n / 16 < 16 ^ k := by
        rw [Nat.div_lt_iff_lt_mul (by decide), ← Nat.pow_succ]
        exact hn
      rw [hexDigits, valueIn_append_singleton, ih _ hlt,
        digitVal_digitChar (Nat.mod_lt n (by decide))]
      show n / 16 * 16 + n % 16 = n
      omega

/-- What `%x` and `%d` write of a number stands for it. -/
theorem valueIn_toDigits {base : Nat} (hb : 1 < base) (hb16 : base ≤ 16) (n : Nat) :
    valueIn base (Nat.toDigits base n) = n := by
  induction n using Nat.strongRecOn with
  | ind n ih =>
      rw [Nat.toDigits_eq_if hb]
      split
      · next hlt =>
        show 0 * base + (digitVal (Nat.digitChar n)).getD 0 = n
        rw [digitVal_digitChar (by omega)]
        simp
      · next hge =>
        have hmod := Nat.mod_lt n (by omega : 0 < base)
        rw [valueIn_append_singleton, ih _ (Nat.div_lt_self (by omega) hb),
          digitVal_digitChar (by omega)]
        exact Nat.div_add_mod' n base

theorem isDigitIn_toDigits {base : Nat} (hb : 1 < base) (hb16 : base ≤ 16) (n : Nat) :
    ∀ c ∈ Nat.toDigits base n, isDigitIn base c = true := by
  induction n using Nat.strongRecOn with
  | ind n ih =>
      have hdigit : ∀ d, d < base → isDigitIn base (Nat.digitChar d) = true :=
        fun d hd => isDigitIn_iff.mpr ⟨d, digitVal_digitChar (by omega), hd⟩
      intro c hc
      rw [Nat.toDigits_eq_if hb] at hc
      split at hc
      · next hlt =>
        rw [List.mem_singleton.mp hc]
        exact hdigit n hlt
      · next hge =>
        rcases List.mem_append.mp hc with hc | hc
        · exact ih _ (Nat.div_lt_self (by omega) hb) c hc
        · rw [List.mem_singleton.mp hc]
          exact hdigit _ (Nat.mod_lt n (by omega))

end CString
