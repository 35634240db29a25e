import Memtoy.Segment.FileMap

/-!
# Segment.Fixed — anonymous segments at a given address

An anonymous segment with an offset is mapped with `MAP_FIXED` at the offset, rounded
down to a page; its length is rounded up when it is mapped and not before. `Fixed` is
what holds of the record from its registration on, through any calls, in terms of the
offset and the length it was registered with.
-/

namespace Memtoy

open CString MachineWord

/-! ## Rounding sums -/

section Sums

variable {pagesize : Word} (h : IsPageSize pagesize)

include h

/-- A sum with a whole number of pages is rounded down in its other part. -/
theorem toNat_downTo_add {x y : Word} (hx : Divides pagesize x)
    (hsum : x.toNat + y.toNat < 2 ^ 64) :
    (downTo pagesize (x + y)).toNat = x.toNat + floorTo pagesize.toNat y.toNat := by
  obtain ⟨m, hm⟩ := hx
  rw [toNat_downTo h, BitVec.toNat_add, Nat.mod_eq_of_lt hsum, hm]
  simp only [floorTo]
  rw [Nat.mul_add_div h.powerOfTwo.pos, Nat.add_mul, Nat.mul_comm m]

/-- A length that is not zero when rounded up does not wrap. -/
theorem toNat_upTo_of_ne_zero {size : Word} (hne : upTo pagesize size ≠ 0) :
    (upTo pagesize size).toNat = ceilTo pagesize.toNat size.toNat := by
  have hp := h.powerOfTwo
  have hup : (upTo pagesize size).toNat = ceilTo pagesize.toNat size.toNat % 2 ^ 64 :=
    toNat_roundUp (s := { Segment.zero with segPagesize := pagesize }) hp size
  have hle := ceilTo_le hp.pos hp.dvd_word size.isLt.le
  rcases Nat.lt_or_eq_of_le hle with hlt | heq
  · rw [hup, Nat.mod_eq_of_lt hlt]
  · rw [heq, Nat.mod_self] at hup
    exact absurd (BitVec.eq_of_toNat_eq hup) hne

end Sums

section Behind

variable {pagesize : Word} (h : IsPageSize pagesize) {start size length : Word}
  (hstart : Divides pagesize start) (hlen : length = size ∨ length = upTo pagesize size)
  (hne : upTo pagesize size ≠ 0) (hroom : start.toNat + (upTo pagesize size).toNat < 2 ^ 64)

include h hlen hne

/-- Rounded up or not, a length rounds up to the same. -/
theorem ceilTo_length : ceilTo pagesize.toNat length.toNat = (upTo pagesize size).toNat := by
  rcases hlen with rfl | rfl
  · exact (toNat_upTo_of_ne_zero h hne).symm
  · exact ceilTo_of_dvd h.powerOfTwo.pos (divides_upTo h size)

include hstart hroom

theorem toNat_downTo_behind :
    (downTo pagesize (start + length)).toNat
      = start.toNat + floorTo pagesize.toNat length.toNat := by
  have hle := le_ceilTo h.powerOfTwo.pos length.toNat
  rw [ceilTo_length h hlen hne] at hle
  apply toNat_downTo_add h hstart
  omega

/-- The end, rounded down, of an unrounded length is the end of the rounded length only for
a number of pages. -/
theorem downTo_behind_iff :
    (downTo pagesize (start + length)).toNat = start.toNat + (upTo pagesize size).toNat ↔
      Divides pagesize length := by
  rw [toNat_downTo_behind h hstart hlen hne hroom, ← ceilTo_length h hlen hne,
    Nat.add_left_cancel_iff]
  exact floorTo_eq_ceilTo_iff h.powerOfTwo.pos

theorem downTo_behind_ne_zero (hzero : start ≠ 0) : downTo pagesize (start + length) ≠ 0 := by
  intro heq
  have hsum := toNat_downTo_behind h hstart hlen hne hroom
  rw [heq] at hsum
  have hpos : start.toNat ≠ 0 := fun hn => hzero (BitVec.eq_of_toNat_eq hn)
  change 0 = _ at hsum
  omega

end Behind

/-! ## The kernel -/

/-- `mmap` with `MAP_FIXED` gives the address asked for or fails; it fails for a length
of zero and for a range that does not end in the address space. -/
def Kernel.MapsFixed (k : Kernel) : Prop :=
  ∀ addr length prot flags fd offset, flags &&& mapFixed ≠ 0 →
    k.mmap addr length prot flags fd offset ≠ mapFailed →
    k.mmap addr length prot flags fd offset = addr ∧ length ≠ 0 ∧
      addr.toNat + length.toNat < 2 ^ 64

/-- The kernel of a `map`, if the call is one. -/
def Op.MapsFixed : Op → Prop
  | .map k _ _ _ => k.MapsFixed
  | _ => True

theorem fixed_flag (flags : Flags) : ((flags ||| mapFixed) ||| mapAnonymous) &&& mapFixed ≠ 0 := by
  intro hc
  have hbit := congrArg (fun x : Flags => x.getLsbD 4) hc
  simp [mapFixed, mapAnonymous] at hbit

/-! ## The record -/

/-- The record of an anonymous segment registered with that offset and length. -/
structure Fixed (pagesize offset length : Word) (s : Segment) : Prop where
  type : s.segType = .segtAnon
  offset_eq : s.segOffset = offset ∨ s.segOffset = downTo pagesize offset
  length_eq : s.segLength = length ∨ s.segLength = upTo pagesize length
  mapped : s.segStart ≠ mapFailed → downTo pagesize offset ≠ 0 →
    s.segStart = downTo pagesize offset ∧ s.segLength = upTo pagesize length ∧
      upTo pagesize length ≠ 0 ∧
      (downTo pagesize offset).toNat + (upTo pagesize length).toNat < 2 ^ 64

namespace Fixed

variable {pagesize offset length : Word} {s : Segment}

/-- A `map` that succeeds maps at the offset. -/
theorem map (h : Fixed pagesize offset length s) (hps : IsPageSize pagesize) {k : Kernel}
    (hk : k.MapsFixed) (segp : SegPtr) (range : Option Range) (flags : Flags) :
    Fixed pagesize offset length (mapEffect k pagesize segp s range flags).1 := by
  have hre := retunes_overrideFlags s flags
  have hoff : (anonRecord pagesize s flags).segOffset = downTo pagesize offset := by
    have hsame : (s.overrideFlags flags).segOffset = s.segOffset := by
      unfold Segment.overrideFlags
      split <;> rfl
    show downTo pagesize (s.overrideFlags flags).segOffset = downTo pagesize offset
    rw [hsame]
    rcases h.offset_eq with heq | heq <;> rw [heq]
    exact downTo_downTo hps offset
  have hlen : (anonRecord pagesize s flags).segLength = upTo pagesize length := by
    have hsame : (s.overrideFlags flags).segLength = s.segLength := by
      unfold Segment.overrideFlags
      split <;> rfl
    show upTo pagesize (s.overrideFlags flags).segLength = upTo pagesize length
    rw [hsame]
    rcases h.length_eq with heq | heq <;> rw [heq]
    exact upTo_upTo hps length
  simp only [mapEffect, h.type]
  refine ⟨hre.type.trans h.type, Or.inr hoff, Or.inr hlen, ?_⟩
  intro hstart hne
  change k.mmap _ _ _ _ _ _ ≠ mapFailed at hstart
  show k.mmap _ _ _ _ _ _ = _ ∧ (anonRecord pagesize s flags).segLength = _ ∧ _
  rw [hoff, hlen] at hstart ⊢
  rw [if_pos hne] at hstart ⊢
  obtain ⟨haddr, hzero, hroom⟩ := hk _ _ _ _ _ _ (fixed_flag _) hstart
  exact ⟨haddr, rfl, hzero, hroom⟩

/-- Any call that leaves the segment live keeps the record so. -/
theorem call (h : Fixed pagesize offset length s) (hps : IsPageSize pagesize) {op : Op}
    (hop : op.MapsFixed) (segp : SegPtr) (hlive : (op.effectOn pagesize segp s).segType ≠ .segtNone) :
    Fixed pagesize offset length (op.effectOn pagesize segp s) := by
  cases op with
  | map k name range flags =>
      simp only [Op.effectOn]
      split
      · exact h.map hps hop segp range flags
      · exact h
  | unmap name =>
      simp only [Op.effectOn]
      split
      · exact ⟨h.type, h.offset_eq, h.length_eq, fun hst => absurd rfl hst⟩
      · exact h
  | remove name =>
      simp only [Op.effectOn] at hlive ⊢
      split
      · next hrem =>
        rw [if_pos hrem] at hlive
        exact absurd rfl hlive
      · exact h
  | mprotect k name prot =>
      simp only [Op.effectOn]
      split
      · exact ⟨h.type, h.offset_eq, h.length_eq, h.mapped⟩
      · exact h
  | _ => exact h

end Fixed

/-! ## Registration -/

/-- The segment that is live after a registration and was not before has what the
registration wrote. -/
theorem segmentRegister_fresh (k : Kernel) {g : Glctx} (h : RepInv g) {type : SegType}
    (name : CStr) (range : Range) {flags : Flags} (htype : type ≠ .segtNone)
    (hmaps : flags &&& segfMaps = 0)
    (hok : (segmentRegister k g type name range flags).1 = .segOk) {segp : SegPtr}
    (hold : ¬ g.Live segp) (hlive : (segmentRegister k g type name range flags).2.Live segp) :
    Registers type name range flags ((segmentRegister k g type name range flags).2.heap segp) := by
  obtain ⟨q, s, hq, ⟨hmem, rfl⟩, hreg⟩ := segmentRegister_new k h name range htype hmaps hok
  have hqlive : (segmentRegister k g type name range flags).2.Live q :=
    ⟨hmem, by rw [hreg.type_eq]; exact htype⟩
  rcases segmentRegister_live k h name range htype hmaps with ⟨herr, -⟩ | ⟨-, -, -, -, p, sp, -, -, -, hperm, -⟩
  · rw [hok] at herr
    cases herr
  · -- one entry is new, and both are
    have hnew : ∀ {p'}, ¬ g.Live p' → (segmentRegister k g type name range flags).2.Live p' →
        p' = p := by
      intro p' hold' hlive'
      have hin := hperm.mem_iff.mp (Glctx.mem_liveSegs.mpr ⟨hlive', rfl⟩)
      rcases List.mem_cons.mp hin with heq | hmem'
      · exact congrArg Prod.fst heq
      · exact absurd (Glctx.mem_liveSegs.mp hmem').1 hold'
    rw [hnew hold hlive, ← hnew hq hqlive]
    exact hreg

end Memtoy
