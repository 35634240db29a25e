import Mathlib.Algebra.Group.Nat.Defs
import Mathlib.Data.Nat.Basic

/-!
# MachineWord — page masks and pointer walks in machine words

Arithmetic of fixed-width words as C programs use it on addresses: masking with a
power of two against rounding in exact arithmetic, and a loop that advances a pointer
by a stride until it reaches an end. Both wrap around silently; the lemmas say what is
true all the same.
-/

namespace MachineWord

variable {w : Nat}

/-! ## Rounding in exact arithmetic -/

/-- The largest multiple of `p` up to `n`. -/
def floorTo (p n : Nat) : Nat := n / p * p

/-- The smallest multiple of `p` from `n` on. -/
def ceilTo (p n : Nat) : Nat := (n + (p - 1)) / p * p

theorem dvd_floorTo (p n : Nat) : p ∣ floorTo p n := Nat.dvd_mul_left _ _

theorem dvd_ceilTo (p n : Nat) : p ∣ ceilTo p n := Nat.dvd_mul_left _ _

theorem floorTo_le (p n : Nat) : floorTo p n ≤ n := Nat.div_mul_le_self n p

theorem floorTo_add_mod (p n : Nat) : floorTo p n + n % p = n := Nat.div_add_mod' n p

theorem floorTo_of_dvd {p n : Nat} (h : p ∣ n) : floorTo p n = n := Nat.div_mul_cancel h

theorem le_ceilTo {p : Nat} (hp : 0 < p) (n : Nat) : n ≤ ceilTo p n := by
  have hmod := Nat.mod_lt (n + (p - 1)) hp
  have hdiv := Nat.div_add_mod' (n + (p - 1)) p
  unfold ceilTo
  omega

/-- No multiple of `p` lies between `n` and `ceilTo p n`. -/
theorem ceilTo_le {p n m : Nat} (hp : 0 < p) (hm : p ∣ m) (hle : n ≤ m) : ceilTo p n ≤ m := by
  obtain ⟨c, rfl⟩ := hm
  have hlt : n + (p - 1) < (c + 1) * p := by
    rw [Nat.succ_mul, Nat.mul_comm c p]
    omega
  have hdiv : (n + (p - 1)) / p < c + 1 := (Nat.div_lt_iff_lt_mul hp).mpr hlt
  rw [Nat.mul_comm p c]
  exact Nat.mul_le_mul_right p (by omega)

theorem ceilTo_of_dvd {p n : Nat} (hp : 0 < p) (h : p ∣ n) : ceilTo p n = n :=
  Nat.le_antisymm (ceilTo_le hp h le_rfl) (le_ceilTo hp n)

/-- Rounding down and up meet in the multiples. -/
theorem floorTo_eq_ceilTo_iff {p n : Nat} (hp : 0 < p) : floorTo p n = ceilTo p n ↔ p ∣ n := by
  constructor
  · intro heq
    have hfloor := floorTo_le p n
    have hceil := le_ceilTo hp n
    have hn : floorTo p n = n := by omega
    exact hn ▸ dvd_floorTo p n
  · intro hdvd
    rw [floorTo_of_dvd hdvd, ceilTo_of_dvd hp hdvd]

/-! ## Masks -/

/-- `n` divides `x`, as numbers. -/
def Divides (n x : BitVec w) : Prop := n.toNat ∣ x.toNat

theorem divides_zero (n : BitVec w) : Divides n 0#w := by
  simp [Divides]

theorem toNat_low_mask {k : Nat} (hk : k < w) : (BitVec.twoPow w k - 1#w).toNat = 2 ^ k - 1 := by
  have hpow := BitVec.toNat_twoPow_of_lt hk
  have hone : (1#w).toNat = 1 := by
    rw [BitVec.toNat_ofNat, Nat.mod_eq_of_lt (Nat.one_lt_two_pow (by omega))]
  have hle : 1#w ≤ BitVec.twoPow w k := by
    rw [BitVec.le_def, hpow, hone]
    exact Nat.one_le_two_pow
  rw [BitVec.toNat_sub_of_le hle, hpow, hone]

/-- Masking out the low bits rounds down. -/
theorem toNat_mask {k : Nat} (hk : k < w) (x : BitVec w) :
    (x &&& ~~~(BitVec.twoPow w k - 1#w)).toNat = floorTo (2 ^ k) x.toNat := by
  have hlow : (x &&& (BitVec.twoPow w k - 1#w)).toNat = x.toNat % 2 ^ k := by
    rw [BitVec.toNat_and, toNat_low_mask hk, Nat.and_two_pow_sub_one_eq_mod]
  -- the word is its high part plus its low part
  have hsplit : x &&& ~~~(BitVec.twoPow w k - 1#w) = x - (x &&& (BitVec.twoPow w k - 1#w)) := by
    rw [BitVec.eq_sub_iff_add_eq, BitVec.add_eq_or_of_and_eq_zero]
    · ext i hi
      simp only [BitVec.getElem_or, BitVec.getElem_and, BitVec.getElem_not]
      cases x[i] <;> simp
    · ext i hi
      simp only [BitVec.getElem_and, BitVec.getElem_not, BitVec.getElem_zero]
      cases x[i] <;> simp
  have hle : x &&& (BitVec.twoPow w k - 1#w) ≤ x := by
    rw [BitVec.le_def, hlow]
    exact Nat.mod_le _ _
  rw [hsplit, BitVec.toNat_sub_of_le hle, hlow, floorTo, Nat.div_mul_self_eq_mod_sub_self]

/-- Adding the mask first rounds up, modulo the word size. -/
theorem toNat_add_mask {k : Nat} (hk : k < w) (x : BitVec w) :
    ((x + (BitVec.twoPow w k - 1#w)) &&& ~~~(BitVec.twoPow w k - 1#w)).toNat =
      ceilTo (2 ^ k) x.toNat % 2 ^ w := by
  have hw : 2 ^ w = 2 ^ k * 2 ^ (w - k) := by
    rw [← Nat.pow_add]
    congr 1
    omega
  rw [toNat_mask hk, BitVec.toNat_add, toNat_low_mask hk, floorTo, ceilTo]
  generalize x.toNat + (2 ^ k - 1) = n
  rw [hw, Nat.mod_mul_right_div_self, Nat.mul_comm (n / 2 ^ k), Nat.mul_mod_mul_left, Nat.mul_comm]

/-- Masking out the low bits leaves a multiple of the power of two. -/
theorem divides_mask {k : Nat} (hk : k < w) (x : BitVec w) :
    Divides (BitVec.twoPow w k) (x &&& ~~~(BitVec.twoPow w k - 1#w)) := by
  rw [Divides, toNat_mask hk, BitVec.toNat_twoPow_of_lt hk]
  exact dvd_floorTo _ _

/-- A word divided by a power of two stays so under wrapping subtraction. -/
theorem divides_sub {k : Nat} (hk : k < w) {x y : BitVec w} (hx : Divides (BitVec.twoPow w k) x)
    (hy : Divides (BitVec.twoPow w k) y) : Divides (BitVec.twoPow w k) (x - y) := by
  have hpow := BitVec.toNat_twoPow_of_lt hk
  have hw : 2 ^ k ∣ 2 ^ w := Nat.pow_dvd_pow 2 (by omega)
  rw [Divides, hpow] at hx hy ⊢
  rw [BitVec.toNat_sub, Nat.dvd_mod_iff hw]
  exact Nat.dvd_add (Nat.dvd_sub hw hy) hx

/-- With a page size of zero the mask is all ones, and masking leaves nothing. -/
theorem mask_zero (x : BitVec w) : x &&& ~~~(0#w - 1#w) = 0#w := by
  have hones : 0#w - 1#w = BitVec.allOnes w := by
    rw [← BitVec.neg_one_eq_allOnes, BitVec.zero_sub]
  rw [hones, BitVec.not_allOnes, BitVec.and_zero]

/-! ## Walks -/

/-- A pointer at `pp` has at most `n` strides to go to `stop`: it is there or
past it, or exactly some strides before it. -/
def Within (n : Nat) (stride stop pp : BitVec w) : Prop :=
  stop ≤ pp ∨ ∃ m ≤ n, stop.toNat = pp.toNat + m * stride.toNat

theorem Within.mono {n n' : Nat} {stride stop pp : BitVec w} (h : Within n stride stop pp)
    (hle : n ≤ n') : Within n' stride stop pp := by
  rcases h with h | ⟨m, hm, heq⟩
  · exact Or.inl h
  · exact Or.inr ⟨m, Nat.le_trans hm hle, heq⟩

theorem Within.done {stride stop pp : BitVec w} (h : Within 0 stride stop pp) : stop ≤ pp := by
  rcases h with h | ⟨m, hm, heq⟩
  · exact h
  · have hm0 : m = 0 := by omega
    rw [BitVec.le_def, heq, hm0]
    omega

/-- A pointer before the end does not wrap around in the next stride. -/
theorem Within.toNat_next {n : Nat} {stride stop pp : BitVec w} (h : Within n stride stop pp)
    (hlt : ¬ stop ≤ pp) : (pp + stride).toNat = pp.toNat + stride.toNat := by
  rcases h with h | ⟨m, -, heq⟩
  · exact absurd h hlt
  · have hpos : m ≠ 0 := by
      rintro rfl
      rw [BitVec.le_def] at hlt
      omega
    obtain ⟨m', rfl⟩ := Nat.exists_eq_succ_of_ne_zero hpos
    rw [Nat.succ_mul] at heq
    have hstop := stop.isLt
    rw [BitVec.toNat_add, Nat.mod_eq_of_lt (by omega)]

theorem Within.le_next {n : Nat} {stride stop pp : BitVec w} (h : Within n stride stop pp)
    (hlt : ¬ stop ≤ pp) : pp ≤ pp + stride := by
  rw [BitVec.le_def, h.toNat_next hlt]
  exact Nat.le_add_right _ _

/-- One stride brings the pointer one stride closer. -/
theorem Within.step {n : Nat} {stride stop pp : BitVec w} (h : Within (n + 1) stride stop pp)
    (hlt : ¬ stop ≤ pp) : Within n stride stop (pp + stride) := by
  have hadd := h.toNat_next hlt
  rcases h with h | ⟨m, hm, heq⟩
  · exact absurd h hlt
  · right
    have hpos : m ≠ 0 := by
      rintro rfl
      rw [BitVec.le_def] at hlt
      omega
    obtain ⟨m', rfl⟩ := Nat.exists_eq_succ_of_ne_zero hpos
    refine ⟨m', by omega, ?_⟩
    rw [hadd, heq, Nat.succ_mul]
    omega

/-- The walk over `length` bytes takes `length / stride` strides, and none when
the end wraps around. -/
theorem within_start {stride length : BitVec w} (hdvd : Divides stride length) (pp : BitVec w) :
    Within (length.toNat / stride.toNat) stride (pp + length) pp := by
  by_cases hwrap : pp.toNat + length.toNat < 2 ^ w
  · right
    refine ⟨length.toNat / stride.toNat, le_rfl, ?_⟩
    rw [BitVec.toNat_add, Nat.mod_eq_of_lt hwrap, Nat.div_mul_cancel hdvd]
  · left
    have hpp := pp.isLt
    have hlen := length.isLt
    rw [BitVec.le_def, BitVec.toNat_add, Nat.mod_eq_sub_mod (by omega), Nat.mod_eq_of_lt (by omega)]
    omega

end MachineWord
