import Mathlib.Data.Nat.Digits.Lemmas
import Mathlib.Data.BitVec
import Mathlib.Tactic.Ring

/-!
# Words — an array of words as one number

A block of memory is an array of words, the low word first, and stands for a number
whose bits are the bits of the words. On a little-endian machine the same block can be
read and written as twice as many words of half the width: `halves` and `setHalf`.
-/

namespace Words

variable {w : Nat}

/-! ## The number -/

/-- The number an array of words stands for, the low word first. -/
def number (ws : List (BitVec w)) : Nat := Nat.ofDigits (2 ^ w) (ws.map BitVec.toNat)

@[simp] theorem number_nil : number ([] : List (BitVec w)) = 0 := rfl

theorem number_cons (x : BitVec w) (ws : List (BitVec w)) :
    number (x :: ws) = 2 ^ w * number ws + x.toNat := by
  unfold number
  rw [List.map_cons, Nat.ofDigits_cons, Nat.add_comm]

/-- Bit `i` of the number is a bit of word `i / w`. -/
theorem testBit_number (hw : 0 < w) (ws : List (BitVec w)) (i : Nat) :
    (number ws).testBit i = (ws.getD (i / w) 0#w).getLsbD (i % w) := by
  induction ws generalizing i with
  | nil => simp
  | cons x ws ih =>
      rw [number_cons, Nat.testBit_two_pow_mul_add _ x.isLt]
      by_cases hi : i < w
      · rw [if_pos hi, Nat.div_eq_of_lt hi, Nat.mod_eq_of_lt hi]
        rfl
      · have hle : w ≤ i := by omega
        rw [if_neg hi, ih, Nat.div_eq_sub_div hw hle, Nat.mod_eq_sub_mod hle]
        rfl

theorem number_append_zeros (ws : List (BitVec w)) (k : Nat) :
    number (ws ++ List.replicate k 0#w) = number ws := by
  unfold number
  rw [List.map_append, List.map_replicate]
  exact Nat.ofDigits_append_replicate_zero _

/-- Zero words above the others do not count. -/
theorem number_dropWhile_reverse (ws : List (BitVec w)) :
    number (ws.dropWhile (· = 0#w)).reverse = number ws.reverse := by
  induction ws with
  | nil => rfl
  | cons x ws ih =>
      by_cases hx : x = 0#w
      · rw [List.dropWhile_cons_of_pos (by simpa using hx), ih, List.reverse_cons, hx]
        exact (number_append_zeros ws.reverse 1).symm
      · rw [List.dropWhile_cons_of_neg (by simpa using hx)]

/-- A top word that is not zero makes the number large. -/
theorem two_pow_le_number (ws : List (BitVec w)) {x : BitVec w} (hx : x ≠ 0#w) :
    2 ^ (w * ws.length) ≤ number (ws ++ [x]) := by
  have hpos : 1 ≤ x.toNat := by
    rw [Nat.one_le_iff_ne_zero]
    intro hzero
    exact hx (BitVec.eq_of_toNat_eq (hzero.trans BitVec.toNat_zero.symm))
  unfold number
  rw [List.map_append, Nat.ofDigits_append, List.length_map, ← pow_mul]
  calc 2 ^ (w * ws.length)
      ≤ 2 ^ (w * ws.length) * x.toNat := Nat.le_mul_of_pos_right _ hpos
    _ ≤ _ := by
        rw [List.map_singleton, Nat.ofDigits_singleton]
        exact Nat.le_add_left _ _

/-- Arrays of one length are told apart by their numbers. -/
theorem number_inj (hw : 0 < w) {ws ws' : List (BitVec w)} (hlen : ws.length = ws'.length)
    (h : number ws = number ws') : ws = ws' := by
  have hbase : 1 < 2 ^ w := Nat.one_lt_two_pow hw.ne'
  have hlt : ∀ {us : List (BitVec w)}, ∀ d ∈ us.map BitVec.toNat, d < 2 ^ w := by
    intro us d hd
    obtain ⟨x, -, rfl⟩ := List.mem_map.mp hd
    exact x.isLt
  have hmap := Nat.ofDigits_inj_of_len_eq hbase (by simpa using hlen) hlt hlt h
  exact List.map_injective_iff.mpr (fun _ _ => BitVec.eq_of_toNat_eq) hmap

/-- Setting a bit in its word sets it in the number. -/
theorem number_setBit (hw : 0 < w) {ws : List (BitVec w)} {i : Nat} (hi : i < w * ws.length) :
    number (ws.set (i / w) (ws.getD (i / w) 0#w ||| BitVec.twoPow w (i % w)))
      = number ws ||| 2 ^ i := by
  have hword : i / w < ws.length := Nat.div_lt_of_lt_mul hi
  apply Nat.eq_of_testBit_eq
  intro j
  rw [Nat.testBit_or, testBit_number hw, testBit_number hw, Nat.testBit_two_pow,
    List.getD_eq_getElem?_getD, List.getElem?_set]
  by_cases hsame : i / w = j / w
  · rw [if_pos hsame, if_pos hword]
    have hmod := Nat.mod_lt j hw
    have heq : j % w = i % w ↔ i = j := by
      have hi' := Nat.div_add_mod i w
      have hj' := Nat.div_add_mod j w
      rw [hsame] at hi'
      omega
    simp [hsame, hmod, heq]
  · rw [if_neg hsame]
    have hne : i ≠ j := fun heq => hsame (heq ▸ rfl)
    simp [hne]

/-! ## Halves -/

/-- The words of half the width, the low half of each first. -/
def halves (ws : List (BitVec (w + w))) : List (BitVec w) :=
  ws.flatMap fun (x : BitVec (w + w)) => [x.setWidth w, (x >>> w).setWidth w]

/-- The array after a write of a word of half the width. -/
def setHalf (ws : List (BitVec (w + w))) (i : Nat) (x : BitVec w) : List (BitVec (w + w)) :=
  let old := ws.getD (i / 2) 0
  ws.set (i / 2) (if i % 2 = 0 then (old >>> w).setWidth w ++ x else x ++ old.setWidth w)

@[simp] theorem halves_cons (x : BitVec (w + w)) (ws : List (BitVec (w + w))) :
    halves (x :: ws) = x.setWidth w :: (x >>> w).setWidth w :: halves ws := rfl

@[simp] theorem length_halves (ws : List (BitVec (w + w))) :
    (halves ws).length = 2 * ws.length := by
  induction ws with
  | nil => rfl
  | cons x ws ih =>
      rw [halves_cons, List.length_cons, List.length_cons, List.length_cons, ih]
      omega

/-- The halves stand for the same number. -/
theorem number_halves (ws : List (BitVec (w + w))) : number (halves ws) = number ws := by
  induction ws with
  | nil => rfl
  | cons x ws ih =>
      have hlow : (x.setWidth w).toNat = x.toNat % 2 ^ w := BitVec.toNat_setWidth ..
      have hhigh : ((x >>> w).setWidth w).toNat = x.toNat / 2 ^ w := by
        rw [BitVec.toNat_setWidth, BitVec.toNat_ushiftRight, Nat.shiftRight_eq_div_pow]
        apply Nat.mod_eq_of_lt
        rw [Nat.div_lt_iff_lt_mul (Nat.two_pow_pos w), ← pow_add]
        exact x.isLt
      have hsplit := Nat.div_add_mod x.toNat (2 ^ w)
      rw [halves_cons, number_cons, number_cons, number_cons, ih, hlow, hhigh, pow_add]
      calc 2 ^ w * (2 ^ w * number ws + x.toNat / 2 ^ w) + x.toNat % 2 ^ w
          = 2 ^ w * 2 ^ w * number ws + (2 ^ w * (x.toNat / 2 ^ w) + x.toNat % 2 ^ w) := by ring
        _ = 2 ^ w * 2 ^ w * number ws + x.toNat := by rw [hsplit]

theorem setWidth_append (hi lo : BitVec w) : (hi ++ lo).setWidth w = lo := by
  apply BitVec.eq_of_getLsbD_eq
  intro i hi'
  simp [BitVec.getLsbD_append, hi']

theorem setWidth_ushiftRight_append (hi lo : BitVec w) : ((hi ++ lo) >>> w).setWidth w = hi := by
  apply BitVec.eq_of_getLsbD_eq
  intro i hi'
  rw [BitVec.getLsbD_setWidth, BitVec.getLsbD_ushiftRight, BitVec.getLsbD_append]
  simp [hi']

/-- A write of half a word changes that half only. -/
theorem halves_setHalf {ws : List (BitVec (w + w))} {i : Nat} (hi : i < 2 * ws.length)
    (x : BitVec w) : halves (setHalf ws i x) = (halves ws).set i x := by
  induction ws generalizing i with
  | nil => simp at hi
  | cons y ws ih =>
      match i with
      | 0 =>
          show halves (((y >>> w).setWidth w ++ x) :: ws) = _
          rw [halves_cons, setWidth_append, setWidth_ushiftRight_append]
          rfl
      | 1 =>
          show halves ((x ++ y.setWidth w) :: ws) = _
          rw [halves_cons, setWidth_append, setWidth_ushiftRight_append]
          rfl
      | i + 2 =>
          have hdiv : (i + 2) / 2 = i / 2 + 1 := by omega
          have hmod : (i + 2) % 2 = i % 2 := by omega
          have htail : setHalf (y :: ws) (i + 2) x = y :: setHalf ws i x := by
            simp only [setHalf, hdiv, hmod]
            rfl
          rw [htail, halves_cons, ih (by rw [List.length_cons] at hi; omega)]
          rfl

end Words
