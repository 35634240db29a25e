import Mathlib.Algebra.Group.Nat.Defs
import Mathlib.Data.List.Basic

/-!
# ByteMemory — words stored in memory that is addressed by bytes

A memory has a byte at every address. A store of an `n`-byte word puts its bytes at
`n` addresses, the low one first, and leaves all others alone; stores to spans that do
not overlap are all there in the end (`holds_storeAll`).
-/

namespace ByteMemory

variable {w m : Nat}

abbrev Mem (w : Nat) := BitVec w → BitVec 8

/-- The address is that of one of the `n` bytes from `p` on. -/
def InSpan (n : Nat) (p a : BitVec w) : Prop := (a - p).toNat < n

instance (n : Nat) (p a : BitVec w) : Decidable (InSpan n p a) :=
  inferInstanceAs (Decidable (_ < _))

/-- Byte `i` of a word, the low one first. -/
def byteOf (v : BitVec m) (i : Nat) : BitVec 8 := v.extractLsb' (8 * i) 8

/-- `*p = v` -/
def store (n : Nat) (mem : Mem w) (p : BitVec w) (v : BitVec m) : Mem w :=
  fun a => if InSpan n p a then byteOf v (a - p).toNat else mem a

/-- `*p` is `v`. -/
def Holds (n : Nat) (mem : Mem w) (p : BitVec w) (v : BitVec m) : Prop :=
  ∀ a, InSpan n p a → mem a = byteOf v (a - p).toNat

/-- Two spans have no address in common. -/
def Apart (n : Nat) (p q : BitVec w) : Prop := ∀ a, InSpan n p a → ¬ InSpan n q a

theorem store_holds (n : Nat) (mem : Mem w) (p : BitVec w) (v : BitVec m) :
    Holds n (store n mem p v) p v := fun _ ha => if_pos ha

theorem store_frame {n : Nat} {p a : BitVec w} (h : ¬ InSpan n p a) (mem : Mem w)
    (v : BitVec m) : store n mem p v a = mem a := if_neg h

/-- A store elsewhere does not change a word. -/
theorem Holds.store {n : Nat} {mem : Mem w} {p q : BitVec w} {u : BitVec m}
    (h : Holds n mem q u) (hapart : Apart n p q) (v : BitVec m) :
    Holds n (store n mem p v) q u := by
  intro a ha
  rw [store_frame (fun hc => hapart a hc ha)]
  exact h a ha

/-- Words that start `n` bytes apart in both directions. -/
theorem apart_of_le {n : Nat} {p q : BitVec w} (h : p.toNat + n ≤ q.toNat)
    (hend : q.toNat + n ≤ 2 ^ w) : Apart n p q := by
  intro a hp hq
  have ha := a.isLt
  simp only [InSpan, BitVec.toNat_sub] at hp hq
  -- where `a` is: below `p`, between the two, or from `q` on
  rcases Nat.lt_or_ge a.toNat p.toNat with hlow | hge
  · rw [Nat.mod_eq_of_lt (by omega)] at hp
    omega
  · rw [show 2 ^ w - p.toNat + a.toNat = a.toNat - p.toNat + 2 ^ w by omega,
      Nat.add_mod_right, Nat.mod_eq_of_lt (by omega)] at hp
    rw [Nat.mod_eq_of_lt (by omega)] at hq
    omega

theorem Apart.symm {n : Nat} {p q : BitVec w} (h : Apart n p q) : Apart n q p :=
  fun a hq hp => h a hp hq

/-! ## Many stores -/

/-- A store of `v p` at every address `p` of a list, in order. -/
def storeAll (n : Nat) (v : BitVec w → BitVec m) (mem : Mem w) (ps : List (BitVec w)) : Mem w :=
  ps.foldl (fun mem p => store n mem p (v p)) mem

/-- Outside the spans nothing changes. -/
theorem storeAll_frame {n : Nat} (v : BitVec w → BitVec m) {a : BitVec w} :
    ∀ {ps : List (BitVec w)}, (∀ p ∈ ps, ¬ InSpan n p a) → ∀ mem : Mem w,
      storeAll n v mem ps a = mem a
  | [], _, _ => rfl
  | p :: ps, h, mem => by
      have hrest := storeAll_frame v (fun q hq => h q (List.mem_cons_of_mem _ hq))
        (store n mem p (v p))
      calc storeAll n v mem (p :: ps) a = store n mem p (v p) a := hrest
        _ = mem a := store_frame (h p List.mem_cons_self) mem (v p)

/-- A word stays while the stores go elsewhere. -/
theorem Holds.storeAll {n : Nat} (v : BitVec w → BitVec m) {q : BitVec w} {u : BitVec m} :
    ∀ {ps : List (BitVec w)} {mem : Mem w}, Holds n mem q u → (∀ p ∈ ps, Apart n p q) →
      Holds n (storeAll n v mem ps) q u
  | [], _, h, _ => h
  | p :: _, _, h, hapart =>
      (h.store (hapart p List.mem_cons_self) (v p)).storeAll v
        (fun q hq => hapart q (List.mem_cons_of_mem _ hq))

/-- Stores to spans that do not overlap are all there in the end. -/
theorem holds_storeAll {n : Nat} (v : BitVec w → BitVec m) :
    ∀ {ps : List (BitVec w)}, ps.Pairwise (Apart n) → ∀ mem : Mem w,
      ∀ p ∈ ps, Holds n (storeAll n v mem ps) p (v p)
  | [], _, _ => fun _ hp => (List.not_mem_nil hp).elim
  | q :: ps, hpair, mem => by
      obtain ⟨hq, hps⟩ := List.pairwise_cons.mp hpair
      intro p hp
      rcases List.mem_cons.mp hp with rfl | hmem
      · exact (store_holds n mem p (v p)).storeAll v (fun r hr => (hq r hr).symm)
      · exact holds_storeAll v hps (store n mem q (v q)) p hmem

end ByteMemory
