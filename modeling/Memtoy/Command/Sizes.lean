import Memtoy.Command.Goes

/-!
# Command.Sizes — sizes with a scale letter

`size_kmgp` multiplies what `strtoul` read by the scale of the next character and looks
neither at the characters after it nor at the carry. `scaled_iff` says for which numbers
the value is the one written, `size_grammar_iff` for which tokens the grammar of the error
message is enforced.
-/

namespace Memtoy

open CString Cmd

/-! ## The grammar -/

/-- The scale a letter stands for, as `size_kmgp` has it. -/
def scaleOf (pagesize : Word) (c : Char) : Option Word :=
  match c.toLower with
  | 'p' => some pagesize
  | 'k' => some 0x400#64
  | 'm' => some 0x100000#64
  | 'g' => some 0x40000000#64
  | _ => none

/-- Nothing, or one scale letter. -/
inductive Suffix (pagesize : Word) : CStr → Word → Prop where
  | none : Suffix pagesize [] 1#64
  | letter {c : Char} {scale : Word} : scaleOf pagesize c = some scale →
      Suffix pagesize [c] scale

/-- A number without a sign and a suffix. -/
def SizeText (pagesize : Word) (tok : CStr) (n : Nat) (scale : Word) : Prop :=
  ∃ num suf, tok = num ++ suf ∧ Numeral 0 num n ∧ Suffix pagesize suf scale

theorem scaleOf_cases {pagesize : Word} {c : Char} {scale : Word}
    (h : scaleOf pagesize c = some scale) :
    (c.toLower = 'p' ∧ scale = pagesize) ∨ (c.toLower = 'k' ∧ scale = 0x400#64) ∨
      (c.toLower = 'm' ∧ scale = 0x100000#64) ∨ (c.toLower = 'g' ∧ scale = 0x40000000#64) := by
  unfold scaleOf at h
  split at h
  · next hc =>
    cases h
    exact Or.inl ⟨hc, rfl⟩
  · next hc =>
    cases h
    exact Or.inr (Or.inl ⟨hc, rfl⟩)
  · next hc =>
    cases h
    exact Or.inr (Or.inr (Or.inl ⟨hc, rfl⟩))
  · next hc =>
    cases h
    exact Or.inr (Or.inr (Or.inr ⟨hc, rfl⟩))
  · cases h

/-- A scale letter is none of the characters of a number. -/
theorem scaleOf_plain {pagesize : Word} {c : Char} {scale : Word}
    (h : scaleOf pagesize c = some scale) :
    isSpace c = false ∧ c ≠ '+' ∧ c ≠ '-' ∧ isDigitIn 16 c = false ∧ c ≠ 'x' ∧ c ≠ 'X' := by
  have hcases : c = 'p' ∨ c = 'P' ∨ c = 'k' ∨ c = 'K' ∨ c = 'm' ∨ c = 'M' ∨ c = 'g' ∨ c = 'G' := by
    rcases scaleOf_cases h with ⟨hc, -⟩ | ⟨hc, -⟩ | ⟨hc, -⟩ | ⟨hc, -⟩
    · have hpP : c = 'p' ∨ c = 'P' := toLower_cases hc (by decide)
      rcases hpP with rfl | rfl <;> simp
    · have hkK : c = 'k' ∨ c = 'K' := toLower_cases hc (by decide)
      rcases hkK with rfl | rfl <;> simp
    · have hmM : c = 'm' ∨ c = 'M' := toLower_cases hc (by decide)
      rcases hmM with rfl | rfl <;> simp
    · have hgG : c = 'g' ∨ c = 'G' := toLower_cases hc (by decide)
      rcases hgG with rfl | rfl <;> simp
  rcases hcases with rfl | rfl | rfl | rfl | rfl | rfl | rfl | rfl <;> decide

theorem scaleOf_stops {pagesize : Word} {c : Char} {scale : Word}
    (h : scaleOf pagesize c = some scale) (t : CStr) : Stops 0 (c :: t) := by
  obtain ⟨-, -, -, hdigit, hx, hX⟩ := scaleOf_plain h
  intro d hd
  cases hd
  exact ⟨hdigit, fun _ => ⟨hx, hX⟩⟩

/-! ## `size_kmgp` -/

/-- The value is the number times the scale, modulo 2^64. -/
theorem sizeKmgp_eq (pagesize : Word) (arg : CStr) :
    sizeKmgp pagesize arg =
      match (strtoul arg 0).2 with
      | [] => (strtoul arg 0).1
      | c :: _ => match scaleOf pagesize c with
        | some scale => (strtoul arg 0).1 * scale
        | none => bogusSize := by
  have hshift : ∀ x : Word, x <<< 10 = x * 0x400#64 ∧ x <<< 20 = x * 0x100000#64 ∧
      x <<< 30 = x * 0x40000000#64 := by
    intro x
    simp only [BitVec.shiftLeft_eq_mul_twoPow]
    exact ⟨rfl, rfl, rfl⟩
  unfold sizeKmgp
  rcases strtoul arg 0 with ⟨argval, next⟩
  cases next with
  | nil => rfl
  | cons c t =>
      simp only [scaleOf, kiloShift]
      generalize c.toLower = l
      -- one case for each scale letter, and one for any other byte
      split
      · rfl
      · exact (hshift argval).1
      · exact (hshift argval).2.1
      · exact (hshift argval).2.2
      · simp

theorem getScaledValue_eq_some {pagesize : Word} {args what : CStr} {size : Word} :
    (getScaledValue pagesize args what).1 = some size ↔
      sizeKmgp pagesize args = size ∧ size ≠ bogusSize := by
  simp only [getScaledValue]
  split
  · next hbogus =>
    simp only [reduceCtorEq, false_iff, not_and, not_not]
    rintro rfl
    exact hbogus
  · next hok =>
    simp only [Option.some.injEq]
    constructor
    · rintro rfl
      exact ⟨rfl, hok⟩
    · exact And.left

theorem getScaledValue_eq_none {pagesize : Word} {args what : CStr} :
    (getScaledValue pagesize args what).1 = none ↔ sizeKmgp pagesize args = bogusSize := by
  simp only [getScaledValue]
  split <;> simp_all

/-- The value of a number and a suffix. -/
theorem toNat_sizeKmgp {pagesize : Word} {tok : CStr} {n : Nat} {scale : Word}
    (h : SizeText pagesize tok n scale) :
    (sizeKmgp pagesize tok).toNat = capped n * scale.toNat % 2 ^ 64 := by
  obtain ⟨num, suf, rfl, hnum, hsuf⟩ := h
  have hcap : capped n < 2 ^ 64 := Nat.lt_of_le_of_lt (Nat.min_le_right _ _) (by norm_num)
  rw [sizeKmgp_eq]
  cases hsuf with
  | none =>
      rw [strtoul_numeral (Or.inl rfl) hnum (by rintro c ⟨⟩)]
      show (BitVec.ofNat 64 (capped n)).toNat = capped n * 1 % 2 ^ 64
      rw [BitVec.toNat_ofNat, Nat.mul_one]
  | @letter c scale hc =>
      rw [strtoul_numeral (Or.inl rfl) hnum (scaleOf_stops hc [])]
      simp only [hc]
      rw [BitVec.toNat_mul, BitVec.toNat_ofNat, Nat.mod_eq_of_lt hcap]

/-! ## Sizes that are the ones written -/

/-- The size of a token is its number times its scale, or is refused where this does not
fit; and no offset, length or size taken from it is smaller than the one written. -/
structure Scaled (pagesize : Word) (tok : CStr) (n : Nat) (scale : Word) : Prop where
  value : ∀ what, (getScaledValue pagesize tok what).1 =
    if n * scale.toNat < 2 ^ 64 - 1 then some (BitVec.ofNat 64 (n * scale.toNat)) else none
  offset : ∀ args range rest, startsWithDigit args = true → (nextToken args).1 = tok →
    (getRange pagesize args).1 = some (range, rest) → n * scale.toNat ≤ range.offset.toNat
  length : ∀ args range rest, startsWithDigit args = true →
    (nextToken (nextToken args).2).1 = tok →
    (getRange pagesize args).1 = some (range, rest) → n * scale.toNat ≤ range.length.toNat
  size : ∀ w s s' args length rest, s.table.g.pagesize = pagesize → (nextToken args).1 = tok →
    Goes (takeSize args) w s (length, rest) s' → n * scale.toNat ≤ length.toNat

/-- What `get_range` accepts has the offset and the length that were read. -/
theorem getRange_eq_some {pagesize : Word} {args : CStr} {range : Range} {rest : CStr}
    (hdigit : startsWithDigit args = true)
    (h : (getRange pagesize args).1 = some (range, rest)) :
    (getScaledValue pagesize (nextToken args).1 "offset".toList).1 = some range.offset ∧
      (getLength pagesize (nextToken (nextToken args).2).1).1 = some range.length := by
  unfold getRange at h
  rw [if_pos hdigit] at h
  rcases hoff : getScaledValue pagesize (nextToken args).1 ['o', 'f', 'f', 's', 'e', 't']
    with ⟨_ | offset, cs⟩
  · simp [hoff] at h
  · simp only [hoff] at h
    split at h
    · rcases hlen : getLength pagesize (nextToken (nextToken args).2).1 with ⟨_ | length, cs'⟩
      · simp [hlen] at h
      · simp only [hlen, Option.some.injEq, Prod.mk.injEq] at h
        obtain ⟨rfl, rfl⟩ := h
        exact ⟨congrArg Prod.fst hoff, rfl⟩
    · cases h

theorem SizeText.no_star {pagesize : Word} {tok : CStr} {n : Nat} {scale : Word}
    (h : SizeText pagesize tok n scale) : tok.head? ≠ some '*' := by
  obtain ⟨num, suf, rfl, hnum, -⟩ := h
  obtain ⟨c, t, rfl, hc⟩ := hnum.head (Or.inl rfl)
  intro hstar
  cases hstar
  cases hc

/-- A token whose size is exact is taken for no smaller one. -/
theorem Scaled.of_value {pagesize : Word} {tok : CStr} {n : Nat} {scale : Word}
    (htext : SizeText pagesize tok n scale)
    (h : ∀ what, (getScaledValue pagesize tok what).1 =
      if n * scale.toNat < 2 ^ 64 - 1 then some (BitVec.ofNat 64 (n * scale.toNat)) else none) :
    Scaled pagesize tok n scale := by
  have hle : ∀ {what size}, (getScaledValue pagesize tok what).1 = some size →
      n * scale.toNat ≤ size.toNat := by
    intro what size hsize
    rw [h what] at hsize
    split at hsize
    · next hlt =>
      cases hsize
      rw [BitVec.toNat_ofNat, Nat.mod_eq_of_lt (by omega)]
    · cases hsize
  constructor
  · exact h
  · rintro args range rest hdigit rfl hrange
    exact hle (getRange_eq_some hdigit hrange).1
  · rintro args range rest hdigit rfl hrange
    have hlen := (getRange_eq_some hdigit hrange).2
    unfold getLength at hlen
    rw [if_neg htext.no_star] at hlen
    exact hle hlen
  · rintro w s s' args length rest rfl rfl hsize
    exact hle (goes_takeSize hsize).2.1

/-- Sizes do not wrap if the product of the number, cut to `ULONG_MAX`, fits in a word, or
is taken for the error value when it does not. -/
theorem scaled_iff {pagesize : Word} (hpage : 0 < pagesize.toNat) {tok : CStr} {n : Nat}
    {scale : Word} (h : SizeText pagesize tok n scale) :
    Scaled pagesize tok n scale ↔
      capped n * scale.toNat < 2 ^ 64 ∨ capped n * scale.toNat % 2 ^ 64 = 2 ^ 64 - 1 := by
  have hsize := toNat_sizeKmgp h
  have hscale : 0 < scale.toNat := by
    obtain ⟨num, suf, -, -, hsuf⟩ := h
    cases hsuf with
    | none => decide
    | letter hc =>
        rcases scaleOf_cases hc with ⟨-, rfl⟩ | ⟨-, rfl⟩ | ⟨-, rfl⟩ | ⟨-, rfl⟩
        · exact hpage
        · decide
        · decide
        · decide
  have hbogus : sizeKmgp pagesize tok = bogusSize ↔
      capped n * scale.toNat % 2 ^ 64 = 2 ^ 64 - 1 := by
    rw [← hsize, BitVec.toNat_eq]
    exact Iff.rfl
  -- a number above `ULONG_MAX` has a product that is too large in any case
  have hexact : n * scale.toNat < 2 ^ 64 - 1 ↔ capped n * scale.toNat < 2 ^ 64 - 1 := by
    unfold capped
    by_cases hn : n ≤ 0xffffffffffffffff
    · rw [Nat.min_eq_left hn]
    · have hmin : min n 0xffffffffffffffff = 0xffffffffffffffff := Nat.min_eq_right (by omega)
      have hn' := Nat.mul_le_mul (show 2 ^ 64 - 1 ≤ n by omega) hscale
      rw [hmin]
      constructor <;> intro hlt <;> omega
  constructor
  · intro hscaled
    have hvalue := hscaled.value []
    by_cases hlt : n * scale.toNat < 2 ^ 64 - 1
    · exact Or.inl (by have hcap := hexact.mp hlt; omega)
    · rw [if_neg hlt, getScaledValue_eq_none, hbogus] at hvalue
      exact Or.inr hvalue
  · intro hcond
    apply Scaled.of_value h
    intro what
    by_cases hlt : n * scale.toNat < 2 ^ 64 - 1
    · -- it fits, so the number was not cut
      have hcap : capped n * scale.toNat = n * scale.toNat := by
        unfold capped
        rw [Nat.min_eq_left]
        have hle := Nat.le_mul_of_pos_right n hscale
        omega
      have heq : sizeKmgp pagesize tok = BitVec.ofNat 64 (n * scale.toNat) := by
        apply BitVec.eq_of_toNat_eq
        rw [hsize, hcap, BitVec.toNat_ofNat]
      rw [if_pos hlt, getScaledValue_eq_some]
      refine ⟨heq, ?_⟩
      rw [← heq, Ne, hbogus, hcap, Nat.mod_eq_of_lt (by omega)]
      omega
    · rw [if_neg hlt, getScaledValue_eq_none, hbogus]
      rcases hcond with hfits | hmod
      · rw [Nat.mod_eq_of_lt hfits]
        have hcap := mt hexact.mpr hlt
        omega
      · exact hmod

theorem scaled_iff_two_pages : Scaled 4096#64 "0x2P".toList 2 4096#64 := by
  have htext : SizeText 4096#64 "0x2P".toList 2 4096#64 :=
    ⟨"0x2".toList, "P".toList, rfl, .hex (Or.inl rfl) (Or.inl rfl) (by decide) (forall_mem_of_all rfl),
      .letter rfl⟩
  exact (scaled_iff (by decide) htext).mpr (by decide)

/-- `18014398509481985k` is taken for 1024. -/
theorem size_wraps :
    (getScaledValue 4096#64 "18014398509481985k".toList "size".toList).1 = some 1024#64 ∧
      SizeText 4096#64 "18014398509481985k".toList 18014398509481985 0x400#64 ∧
      ¬ Scaled 4096#64 "18014398509481985k".toList 18014398509481985 0x400#64 := by
  have hread : (getScaledValue 4096#64 "18014398509481985k".toList "size".toList).1
      = some 1024#64 := by decide +kernel
  refine ⟨hread, ?_, ?_⟩
  · exact ⟨"18014398509481985".toList, "k".toList, rfl, .digits (by decide) (forall_mem_of_all rfl), .letter rfl⟩
  · intro h
    have hvalue := h.value "size".toList
    rw [hread] at hvalue
    revert hvalue
    decide

/-! ## Tokens that are sizes -/

/-- A number with at least one digit, then nothing or one scale letter. -/
def SizeToken (pagesize : Word) (tok : CStr) : Prop :=
  ∃ pre suf neg n scale, tok = pre ++ suf ∧ Subject 0 pre neg n ∧ Suffix pagesize suf scale

/-- Only sizes are accepted. -/
def SizeGrammar (pagesize : Word) (tok : CStr) : Prop :=
  ∀ what size, (getScaledValue pagesize tok what).1 = some size → SizeToken pagesize tok

/-- A token that passes for a size: an empty one, one that starts with a scale letter, or
one that goes on behind it. -/
inductive Loose (pagesize : Word) : CStr → Prop where
  | empty : Loose pagesize []
  | bare {c : Char} {t : CStr} {scale : Word} : scaleOf pagesize c = some scale →
      Loose pagesize (c :: t)
  | trailing {pre : CStr} {c d : Char} {t : CStr} {neg : Bool} {n : Nat} {scale : Word} :
      Subject 0 pre neg n → scaleOf pagesize c = some scale → ulong neg n * scale ≠ bogusSize →
      Loose pagesize (pre ++ c :: d :: t)

theorem Suffix.stops {pagesize : Word} {suf : CStr} {scale : Word} (h : Suffix pagesize suf scale) :
    Stops 0 suf ∧ suf.length ≤ 1 := by
  cases h with
  | none => exact ⟨by rintro c ⟨⟩, Nat.zero_le _⟩
  | letter hc => exact ⟨scaleOf_stops hc [], le_rfl⟩

/-- What `strtoul` leaves of a size is its suffix. -/
theorem SizeToken.rest {pagesize : Word} {tok : CStr} (h : SizeToken pagesize tok) :
    (strtoul tok 0).2.length ≤ 1 := by
  obtain ⟨pre, suf, neg, n, scale, rfl, hpre, hsuf⟩ := h
  rw [strtoul_subject (Or.inl rfl) hpre hsuf.stops.1]
  exact hsuf.stops.2

/-- A size does not start with a scale letter. -/
theorem not_sizeToken_bare {pagesize : Word} {c : Char} {scale : Word}
    (hc : scaleOf pagesize c = some scale) (t : CStr) : ¬ SizeToken pagesize (c :: t) := by
  rintro ⟨pre, suf, neg, n, scale', htok, hpre, -⟩
  obtain ⟨d, u, rfl, hd⟩ := hpre.head (Or.inl rfl)
  obtain ⟨rfl, -⟩ : c = d ∧ t = u ++ suf := by simpa using htok
  obtain ⟨hspace, hplus, hminus, hdigit, -, -⟩ := scaleOf_plain hc
  rcases hd with hd | hd | hd | hd
  · rw [hspace] at hd
    cases hd
  · exact hplus hd
  · exact hminus hd
  · rw [hdigit] at hd
    cases hd

/-- Of a text that starts with a scale letter `strtoul` consumes nothing. -/
theorem strtoul_bare {pagesize : Word} {c : Char} {scale : Word}
    (hc : scaleOf pagesize c = some scale) (t : CStr) : strtoul (c :: t) 0 = (0#64, c :: t) := by
  rcases strtoul_cases 0 (c :: t) with hno | ⟨pre, neg, n, rest, htok, hpre, -⟩
  · exact hno
  · obtain ⟨d, u, rfl, hd⟩ := hpre.head (Or.inl rfl)
    obtain ⟨rfl, -⟩ : c = d ∧ t = u ++ rest := by simpa using htok
    obtain ⟨hspace, hplus, hminus, hdigit, -, -⟩ := scaleOf_plain hc
    simp [hspace, hplus, hminus, hdigit] at hd

/-- A loose token is accepted. -/
theorem Loose.accepted {pagesize : Word} {tok : CStr} (h : Loose pagesize tok) (what : CStr) :
    ∃ size, (getScaledValue pagesize tok what).1 = some size := by
  refine ⟨sizeKmgp pagesize tok, getScaledValue_eq_some.mpr ⟨rfl, ?_⟩⟩
  have hzero : (0#64 : Word) ≠ bogusSize := by decide
  cases h with
  | empty => exact hzero
  | bare hc =>
      rw [sizeKmgp_eq, strtoul_bare hc]
      simp only [hc, BitVec.zero_mul]
      exact hzero
  | trailing hpre hc hsize =>
      rw [sizeKmgp_eq, strtoul_subject (Or.inl rfl) hpre (scaleOf_stops hc _)]
      simp only [hc]
      exact hsize

theorem Loose.not_sizeToken {pagesize : Word} {tok : CStr} (h : Loose pagesize tok) :
    ¬ SizeToken pagesize tok := by
  cases h with
  | empty =>
      rintro ⟨pre, suf, neg, n, scale, htok, hpre, -⟩
      obtain ⟨d, u, rfl, -⟩ := hpre.head (Or.inl rfl)
      cases htok
  | bare hc => exact not_sizeToken_bare hc _
  | trailing hpre hc _ =>
      intro hsize
      have hlen := hsize.rest
      rw [strtoul_subject (Or.inl rfl) hpre (scaleOf_stops hc _)] at hlen
      simp at hlen

theorem Loose.not_sizeGrammar {pagesize : Word} {tok : CStr} (h : Loose pagesize tok) :
    ¬ SizeGrammar pagesize tok := by
  intro hgrammar
  obtain ⟨size, hsize⟩ := h.accepted []
  exact h.not_sizeToken (hgrammar [] size hsize)

/-- The grammar of the message is enforced for the tokens that are not loose. -/
theorem size_grammar_iff (pagesize : Word) (tok : CStr) :
    SizeGrammar pagesize tok ↔ ¬ Loose pagesize tok := by
  constructor
  · exact fun hgrammar hloose => hloose.not_sizeGrammar hgrammar
  · intro hno what size hsize
    obtain ⟨rfl, hbogus⟩ := getScaledValue_eq_some.mp hsize
    rw [sizeKmgp_eq] at hbogus
    rcases strtoul_cases 0 tok with hread | ⟨pre, neg, n, rest, rfl, hpre, hread⟩
    · -- nothing was converted
      rw [hread] at hbogus
      cases tok with
      | nil => exact absurd .empty hno
      | cons c t =>
          cases hc : scaleOf pagesize c with
          | none => simp [hc] at hbogus
          | some scale => exact absurd (.bare hc) hno
    · rw [hread] at hbogus
      match rest with
      | [] => exact ⟨pre, [], neg, n, _, rfl, hpre, .none⟩
      | c :: t =>
          cases hc : scaleOf pagesize c with
          | none => simp [hc] at hbogus
          | some scale =>
              simp only [hc] at hbogus
              match t with
              | [] => exact ⟨pre, [c], neg, n, _, rfl, hpre, .letter hc⟩
              | d :: t => exact absurd (.trailing hpre hc hbogus) hno

/-- `k` passes for zero, `4kb` for 4096. -/
theorem loose_sizes_accepted :
    (getScaledValue 4096#64 "k".toList "size".toList).1 = some 0#64 ∧
      ¬ SizeGrammar 4096#64 "k".toList ∧
      (getScaledValue 4096#64 "4kb".toList "size".toList).1 = some 0x1000#64 ∧
      ¬ SizeGrammar 4096#64 "4kb".toList := by
  have hbare : Loose 4096#64 "k".toList := .bare rfl
  have hfour : Subject 0 "4".toList false 4 :=
    ⟨[], [], "4".toList, rfl, by simp, .none, .digits (by decide) (forall_mem_of_all rfl)⟩
  have htrailing : Loose 4096#64 ("4".toList ++ 'k' :: 'b' :: []) := .trailing hfour rfl (by decide)
  exact ⟨by decide +kernel, hbare.not_sizeGrammar, by decide +kernel, htrailing.not_sizeGrammar⟩

end Memtoy
