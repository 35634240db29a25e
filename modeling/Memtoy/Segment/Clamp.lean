import Memtoy.Segment.Guard

/-!
# Segment.Clamp — the range the four operations settle on

`segment_touch`, `segment_mbind`, `segment_location` and `segment_lock_unlock`
each repeat the computation `clampRange` is the model of. `RangeOp.work` is what
each of them does once the range is settled, so that "they take the same
decision" is an equation: a run is a refusal or the work on the clamped range
(`run_eq`). `clampRange_exact` gives the range in exact arithmetic; that the
masks wrap around modulo `2 ^ 64` on the way does not show.
-/

namespace Memtoy

open CString MachineWord

/-- A power of two, as a word. -/
def IsPowerOfTwo (n : Word) : Prop := ∃ k, k < 64 ∧ n = BitVec.twoPow 64 k

theorem IsPowerOfTwo.pos {n : Word} (h : IsPowerOfTwo n) : 0 < n.toNat := by
  obtain ⟨k, hk, rfl⟩ := h
  rw [BitVec.toNat_twoPow_of_lt hk]
  exact Nat.two_pow_pos k

theorem IsPowerOfTwo.dvd_word {n : Word} (h : IsPowerOfTwo n) : n.toNat ∣ 2 ^ 64 := by
  obtain ⟨k, hk, rfl⟩ := h
  rw [BitVec.toNat_twoPow_of_lt hk]
  exact Nat.pow_dvd_pow 2 (by omega)

/-! ## The rounded words -/

theorem toNat_roundDown {s : Segment} (h : IsPowerOfTwo s.segPagesize) (size : Word) :
    (roundDownToSegmentPagesize size s).toNat = floorTo s.segPagesize.toNat size.toNat := by
  obtain ⟨k, hk, heq⟩ := h
  simp only [roundDownToSegmentPagesize, heq]
  rw [BitVec.toNat_twoPow_of_lt hk]
  exact toNat_mask hk size

theorem toNat_roundUp {s : Segment} (h : IsPowerOfTwo s.segPagesize) (size : Word) :
    (roundUpToSegmentPagesize size s).toNat =
      ceilTo s.segPagesize.toNat size.toNat % 2 ^ 64 := by
  obtain ⟨k, hk, heq⟩ := h
  simp only [roundUpToSegmentPagesize, heq]
  rw [BitVec.toNat_twoPow_of_lt hk]
  exact toNat_add_mask hk size

/-- The length of a range from offset `o` of a segment of `total` bytes: to the
end when no length is given. -/
def exactLength (p total o length : Nat) : Nat :=
  if length = 0 then total - o else min (ceilTo p length) (total - o)

/-- Truncating a rounded length to what is left of the segment. A length that
rounds up to `2 ^ 64` wraps to zero, and zero means all that is left, which is
what is left of such a length. -/
theorem toNat_cut {ask maxlength : Word} {c : Nat} (hask : ask.toNat = c % 2 ^ 64) (hpos : 0 < c)
    (htop : c ≤ 2 ^ 64) :
    (if ask = 0 ∨ maxlength < ask then maxlength else ask).toNat = min c maxlength.toNat := by
  have hmax := maxlength.isLt
  by_cases hwrap : c = 2 ^ 64
  · have hzero : ask = 0 := by
      apply BitVec.eq_of_toNat_eq
      rw [hask, hwrap]
      rfl
    rw [if_pos (Or.inl hzero), hwrap]
    omega
  · rw [Nat.mod_eq_of_lt (by omega)] at hask
    by_cases hcut : maxlength < ask
    · rw [if_pos (Or.inr hcut)]
      rw [BitVec.lt_def, hask] at hcut
      omega
    · have hne : ask ≠ 0 := by
        rintro rfl
        change 0 = c at hask
        omega
      rw [if_neg (not_or.mpr ⟨hne, hcut⟩), hask]
      rw [BitVec.lt_def, hask] at hcut
      omega

/-- The shared computation in exact arithmetic. -/
theorem clampRange_exact {s : Segment} (hp : IsPowerOfTwo s.segPagesize) (range : Range) :
    clampRange s range =
      if s.segLength.toNat ≤ floorTo s.segPagesize.toNat range.offset.toNat then none
      else some (BitVec.ofNat 64 (floorTo s.segPagesize.toNat range.offset.toNat),
        BitVec.ofNat 64 (exactLength s.segPagesize.toNat s.segLength.toNat
          (floorTo s.segPagesize.toNat range.offset.toNat) range.length.toNat)) := by
  have hoff := toNat_roundDown hp range.offset
  set o := floorTo s.segPagesize.toNat range.offset.toNat
  have hlt64 := s.segLength.isLt
  simp only [clampRange, BitVec.le_def, hoff]
  by_cases hle : s.segLength.toNat ≤ o
  · rw [if_pos hle, if_pos hle]
  · rw [if_neg hle, if_neg hle]
    have hmax : (s.segLength - roundDownToSegmentPagesize range.offset s).toNat =
        s.segLength.toNat - o := by
      rw [BitVec.toNat_sub_of_le (by rw [BitVec.le_def, hoff]; omega), hoff]
    refine congrArg some (Prod.ext ?_ ?_)
    · apply BitVec.eq_of_toNat_eq
      rw [hoff, BitVec.toNat_ofNat, Nat.mod_eq_of_lt (by omega)]
    · apply BitVec.eq_of_toNat_eq
      show BitVec.toNat _ = BitVec.toNat (BitVec.ofNat 64 _)
      rw [BitVec.toNat_ofNat]
      by_cases hzero : range.length = 0
      · -- no length given
        rw [if_neg (not_not.mpr hzero), if_pos (Or.inl hzero), hmax, exactLength,
          if_pos (by rw [hzero]; rfl), Nat.mod_eq_of_lt (by omega)]
      · have hpos : range.length.toNat ≠ 0 := fun hc => hzero (BitVec.eq_of_toNat_eq hc)
        have hge := le_ceilTo hp.pos range.length.toNat
        have htop := ceilTo_le hp.pos hp.dvd_word range.length.isLt.le
        rw [if_pos hzero, toNat_cut (toNat_roundUp hp range.length) (by omega) htop, hmax,
          exactLength, if_neg hpos, Nat.mod_eq_of_lt (by omega)]

/-- The settled range is not empty, lies in the segment and is a whole number of
pages. -/
theorem exactLength_spec {p total o : Nat} (hp : 0 < p) (htotal : p ∣ total) (ho : p ∣ o)
    (hlt : o < total) (length : Nat) :
    0 < exactLength p total o length ∧ o + exactLength p total o length ≤ total ∧
      p ∣ exactLength p total o length := by
  have hrest : p ∣ total - o := Nat.dvd_sub htotal ho
  unfold exactLength
  split
  · exact ⟨by omega, by omega, hrest⟩
  · next hne =>
    have hge := le_ceilTo hp length
    refine ⟨by omega, by omega, ?_⟩
    rcases Nat.le_total (ceilTo p length) (total - o) with hle | hle
    · rw [Nat.min_eq_left hle]
      exact dvd_ceilTo p length
    · rw [Nat.min_eq_right hle]
      exact hrest

/-! ## The decision -/

/-- The operations that work on a range: all but the SHM_LOCK form of `lock`. -/
def RangeOp.Ranged : RangeOp → Prop
  | .lockUnlock _ _ shm => shm = false
  | _ => True

/-- The range an operation settles: `segment_location` takes 64 pages for
`DEFAULT_LENGTH`. -/
def RangeOp.asked (s : Segment) (range : Range) : RangeOp → Range
  | .location _ _ =>
      if range.length = defaultLength then { range with length := 64#64 * s.segPagesize }
      else range
  | _ => range

/-- What an operation does on the range it has settled on: `touch_memory`, `mbind`
or `mlock` of it, or the node loop over it. -/
def RangeOp.work (fuel : Nat) (g : Glctx) (segp : SegPtr) (offset length : Word) :
    RangeOp → Outcome Unit × Glctx
  | .touch ev rw =>
      let s := g.heap segp
      let memp := s.segStart + offset
      let g := g.emit (.touchMemory segp rw memp length s.segPagesize)
      match touchMemory ev fuel memp length s.segPagesize with
      | none => (.running, g)
      | some _ => if s.segPagesize = 0 then (.sigfpe, g) else (.segOk (), g)
  | .mbind k policy nodemask flags =>
      let start := (g.heap segp).segStart + offset
      let g := g.emit (.mbind segp start length policy nodemask flags)
      if k.mbind start length policy nodemask flags then (.segOk (), g) else (.segErr, g)
  | .location k sig =>
      let s := g.heap segp
      let apage := s.segStart + offset
      if s.segPagesize = 0 then (.sigfpe, g)
      else
        let pgid := (offset / s.segPagesize).truncate 32
        match nodeLoop k.getNode sig s.segPagesize (apage + length) fuel 0 apage pgid
            (pgid &&& pplMask != 0) with
        | none => (.running, g)
        | some run =>
            let g := { g with log := g.log ++ run.visited.map (.getNode segp) }
            if run.ok then (.segOk (), g) else (.segErr, g)
  | .lockUnlock k lock _ =>
      let start := (g.heap segp).segStart + offset
      let g := g.emit (.mlock segp lock start length)
      if k.mlock lock start length then (.segOk (), g) else (.segErr, g)

section Decision

variable {g : Glctx} {segp : SegPtr} {name : CStr} {range : Range}

/-- On a mapped segment a ranged operation is a refusal or the work on the clamped
range, the same for all four. -/
theorem run_eq (h : RepInv g) (hlive : g.Live segp) (hname : (g.heap segp).segName = some name)
    (hstart : (g.heap segp).segStart ≠ mapFailed) (hmaps : (g.heap segp).isMaps = false)
    {op : RangeOp} (hop : op.Ranged) (range : Range) (fuel : Nat) :
    op.run fuel g name range =
      match clampRange (g.heap segp) (op.asked (g.heap segp) range) with
      | none => (.segErr, (segmentGet g name).2)
      | some (offset, length) => op.work fuel (segmentGet g name).2 segp offset length := by
  obtain ⟨avail, hget⟩ := segmentGet_live h hlive hname
  cases op with
  | touch ev rw =>
      simp only [RangeOp.run, segmentTouch, hget, RangeOp.asked, hmaps]
      rw [if_neg (by simp)]
      cases clampRange (g.heap segp) range with
      | none => rfl
      | some r =>
          simp only [RangeOp.work]
          cases touchMemory ev fuel ((g.heap segp).segStart + r.1) r.2 (g.heap segp).segPagesize with
          | none => rfl
          | some touched =>
              simp only
              split <;> rfl
  | mbind k policy nodemask flags =>
      simp only [RangeOp.run, segmentMbind, hget, RangeOp.asked]
      rw [if_neg hstart]
      cases clampRange (g.heap segp) range <;> rfl
  | location k sig =>
      simp only [RangeOp.run, segmentLocation, hget, RangeOp.asked]
      rw [if_neg hstart]
      cases clampRange (g.heap segp) (if range.length = defaultLength then
          { range with length := 64#64 * (g.heap segp).segPagesize } else range) with
      | none => rfl
      | some r =>
          simp only [RangeOp.work]
          split
          · rfl
          · generalize nodeLoop k.getNode sig _ _ fuel 0 _ _ _ = run
            cases run with
            | none => rfl
            | some run =>
                simp only
                split <;> rfl
  | lockUnlock k lock shm =>
      have hshm : shm = false := hop
      subst hshm
      simp only [RangeOp.run, segmentLockUnlock, hget, RangeOp.asked]
      rw [if_neg hstart, if_neg (by simp)]
      cases clampRange (g.heap segp) range <;> rfl

/-- A segment with a page size is not from the maps file. -/
theorem not_maps_of_pagesize {s : Segment} (h : s.PagesOk) (hp : IsPowerOfTwo s.segPagesize) :
    s.isMaps = false := by
  by_contra hc
  have hzero := (h.maps (by simpa using hc)).2.2.1
  have hpos := hp.pos
  rw [hzero] at hpos
  exact absurd hpos (lt_irrefl 0)

/-- The operations refuse the range, without a call, or they work on exactly the
same pages of it, computed here in exact arithmetic; the pages are in the
segment. -/
theorem range_decision (h : (segSpec anyOp).Reachable g) (hlive : g.Live segp)
    (hname : (g.heap segp).segName = some name) (hstart : (g.heap segp).segStart ≠ mapFailed)
    (hpow : IsPowerOfTwo (g.heap segp).segPagesize)
    (hsdvd : Divides (g.heap segp).segPagesize (g.heap segp).segStart)
    (hldvd : Divides (g.heap segp).segPagesize (g.heap segp).segLength)
    (hpos : 0 < (g.heap segp).segLength.toNat)
    (hfits : (g.heap segp).segStart.toNat + (g.heap segp).segLength.toNat ≤ 2 ^ 64)
    (range : Range) (op : RangeOp) (hop : op.Ranged)
    (hdefault : ∀ k sig, op = .location k sig → range.length ≠ defaultLength) :
    let p := (g.heap segp).segPagesize.toNat
    let start := (g.heap segp).segStart.toNat
    let total := (g.heap segp).segLength.toNat
    let o := floorTo p range.offset.toNat
    let l := exactLength p total o range.length.toNat
    ((∀ fuel, (op.run fuel g name range).1 = .segErr ∧ (op.run fuel g name range).2.log = g.log) ↔
        total ≤ o) ∧
      (o < total →
        (∀ fuel, op.run fuel g name range = op.work fuel (segmentGet g name).2 segp
          (BitVec.ofNat 64 o) (BitVec.ofNat 64 l)) ∧
        0 < l ∧ o + l ≤ total ∧ p ∣ start + o ∧ p ∣ start + o + l ∧
        (BitVec.ofNat 64 o).toNat = o ∧ (BitVec.ofNat 64 l).toNat = l ∧
        ((g.heap segp).segStart + BitVec.ofNat 64 o).toNat = start + o ∧
        start + o + l ≤ 2 ^ 64) := by
  intro p start total o l
  have hrep := reachable_repInv h
  have hmaps := not_maps_of_pagesize ((reachable_pageInv h).records segp hlive) hpow
  have hasked : op.asked (g.heap segp) range = range := by
    cases op with
    | location k sig =>
        simp only [RangeOp.asked]
        rw [if_neg (hdefault k sig rfl)]
    | _ => rfl
  have hrun := fun fuel => run_eq hrep hlive hname hstart hmaps hop range fuel
  rw [hasked, clampRange_exact hpow range] at hrun
  have htotal : total < 2 ^ 64 := (g.heap segp).segLength.isLt
  refine ⟨⟨?_, ?_⟩, ?_⟩
  · -- a run that is not refused leaves a trace, or runs out of fuel
    intro hrefused
    by_contra hlt
    refine run_of_not_refuses hrep hlive hname ?_ (hrefused 0)
    have hoff := toNat_roundDown hpow range.offset
    have hnot : ¬ (g.heap segp).segLength ≤
        roundDownToSegmentPagesize range.offset (g.heap segp) := by
      rw [BitVec.le_def, hoff]
      exact hlt
    cases op with
    | touch ev rw => exact not_or.mpr ⟨fun hc => by simp [hmaps] at hc, hnot⟩
    | mbind k policy nodemask flags => exact not_or.mpr ⟨hstart, hnot⟩
    | location k sig => exact not_or.mpr ⟨hstart, hnot⟩
    | lockUnlock k lock shm =>
        have hshm : shm = false := hop
        subst hshm
        exact not_or.mpr ⟨hstart, by simpa using hnot⟩
  · intro hle fuel
    rw [hrun fuel, if_pos hle]
    obtain ⟨avail, hget⟩ := segmentGet_live hrep hlive hname
    rw [hget]
    exact ⟨rfl, rfl⟩
  · intro hlt
    obtain ⟨hlpos, hin, hdvd⟩ : 0 < l ∧ o + l ≤ total ∧ p ∣ l :=
      exactLength_spec hpow.pos hldvd (dvd_floorTo _ _) hlt range.length.toNat
    have ho64 : (BitVec.ofNat 64 o).toNat = o := by
      rw [BitVec.toNat_ofNat, Nat.mod_eq_of_lt (by omega)]
    have hso : p ∣ start + o := Nat.dvd_add hsdvd (dvd_floorTo _ _)
    have htop : start + total ≤ 2 ^ 64 := hfits
    refine ⟨fun fuel => ?_, hlpos, hin, hso, Nat.dvd_add hso hdvd, ho64, ?_, ?_, by omega⟩
    · rw [hrun fuel, if_neg (Nat.not_le.mpr hlt)]
    · rw [BitVec.toNat_ofNat, Nat.mod_eq_of_lt (by omega)]
    · rw [BitVec.toNat_add, ho64]
      exact Nat.mod_eq_of_lt (by omega)

end Decision

/-- `anon a 8k` and `map a` on the concrete machine. -/
def sampleMapped : Glctx :=
  (Op.map sampleKernel ['a'] none 0).exec
    ((Op.register sampleKernel .segtAnon ['a'] ⟨0, 0x2000#64, 0⟩ 0).exec sampleTable)

theorem sampleMapped_reachable : (segSpec anyOp).Reachable sampleMapped := by
  refine .step (.step (sampleTable_reachable anyOp) ⟨_, ?_, trivial, rfl⟩) ⟨_, ?_, trivial, rfl⟩
  · exact ⟨by decide, by decide⟩
  · show (0 : Flags) &&& segfMaps = 0
    decide

theorem sampleMapped_pagesize : (sampleMapped.heap 1).segPagesize = BitVec.twoPow 64 12 := by
  decide

/-- A length of `2 ^ 64 - 1` from inside the second page on is the second page. -/
theorem range_decision_second_page :
    (RangeOp.lockUnlock sampleKernel true false).run 0 sampleMapped ['a']
        ⟨0x1001#64, 0xffffffffffffffff#64, 0⟩ =
      (RangeOp.lockUnlock sampleKernel true false).work 0 (segmentGet sampleMapped ['a']).2 1
        0x1000#64 0x1000#64 := by
  have hpow : IsPowerOfTwo (sampleMapped.heap 1).segPagesize :=
    ⟨12, by decide, sampleMapped_pagesize⟩
  have hlive : sampleMapped.Live 1 := ⟨by decide, by decide⟩
  have hname : (sampleMapped.heap 1).segName = some ['a'] := by decide
  have hdec := range_decision sampleMapped_reachable hlive hname (by decide) hpow
    (by unfold Divides; decide) (by unfold Divides; decide) (by decide) (by decide)
    ⟨0x1001#64, 0xffffffffffffffff#64, 0⟩ (.lockUnlock sampleKernel true false) rfl
    (fun _ _ hc => by cases hc)
  exact (hdec.2 (by decide)).1 0

/-! ## Coverage -/

/-- The range from `offset` on of `length` bytes contains every page of the segment
that has a byte of the requested range. -/
def CoversPages (s : Segment) (range : Range) (offset length : Word) : Prop :=
  ∀ i : Nat, i * s.segPagesize.toNat < s.segLength.toNat →
    i * s.segPagesize.toNat < range.offset.toNat + range.length.toNat →
    range.offset.toNat < (i + 1) * s.segPagesize.toNat →
    offset.toNat ≤ i * s.segPagesize.toNat ∧
      (i + 1) * s.segPagesize.toNat ≤ offset.toNat + length.toNat

/-- The operation works on a range that contains every requested page. -/
def RangeOp.Covers (g : Glctx) (segp : SegPtr) (name : CStr) (range : Range) (op : RangeOp) :
    Prop :=
  ∃ offset length, clampRange (g.heap segp) (op.asked (g.heap segp) range) = some (offset, length) ∧
    (∀ fuel, op.run fuel g name range =
      op.work fuel (segmentGet g name).2 segp offset length) ∧
    CoversPages (g.heap segp) range offset length

/-- The requested length rounded up to pages, on its own: the residue of the offset
has no part in it. -/
def RangeOp.span (s : Segment) (range : Range) : RangeOp → Nat
  | .location _ _ =>
      if range.length = defaultLength then 64 * s.segPagesize.toNat
      else ceilTo s.segPagesize.toNat range.length.toNat
  | _ => ceilTo s.segPagesize.toNat range.length.toNat

/-- The rounded length reaches the end of the request from the first page on, or it
reaches the end of the segment. -/
def RangeOp.Reaches (s : Segment) (range : Range) (op : RangeOp) : Prop :=
  range.offset.toNat % s.segPagesize.toNat + range.length.toNat ≤ op.span s range ∨
    s.segLength.toNat ≤ floorTo s.segPagesize.toNat range.offset.toNat + op.span s range

theorem dvd_span (s : Segment) (range : Range) (op : RangeOp) :
    s.segPagesize.toNat ∣ op.span s range := by
  cases op with
  | location k sig =>
      simp only [RangeOp.span]
      split
      · exact Nat.dvd_mul_left _ _
      · exact dvd_ceilTo _ _
  | _ => exact dvd_ceilTo _ _

/-- 64 pages that do not fit a word are more than any segment has. -/
theorem exactLength_asked {s : Segment} (hp : IsPowerOfTwo s.segPagesize) {range : Range}
    (hlen : range.length ≠ 0) (o : Nat) (op : RangeOp) :
    exactLength s.segPagesize.toNat s.segLength.toNat o (op.asked s range).length.toNat =
      min (op.span s range) (s.segLength.toNat - o) := by
  have hne : range.length.toNat ≠ 0 := fun hc => hlen (BitVec.eq_of_toNat_eq hc)
  have hgiven : exactLength s.segPagesize.toNat s.segLength.toNat o range.length.toNat =
      min (ceilTo s.segPagesize.toNat range.length.toNat) (s.segLength.toNat - o) := by
    rw [exactLength, if_neg hne]
  cases op with
  | location k sig =>
      simp only [RangeOp.asked, RangeOp.span]
      by_cases hdef : range.length = defaultLength
      · rw [if_pos hdef, if_pos hdef]
        have hlt := s.segLength.isLt
        have hpos := hp.pos
        have hmul : (64#64 * s.segPagesize).toNat = 64 * s.segPagesize.toNat % 2 ^ 64 :=
          BitVec.toNat_mul _ _
        by_cases hfit : 64 * s.segPagesize.toNat < 2 ^ 64
        · rw [Nat.mod_eq_of_lt hfit] at hmul
          rw [exactLength, if_neg (by simp only [hmul]; omega)]
          simp only [hmul]
          rw [ceilTo_of_dvd hpos (Nat.dvd_mul_left _ _)]
        · -- the product of two powers of two wraps to zero
          have hzero : 64 * s.segPagesize.toNat % 2 ^ 64 = 0 := by
            obtain ⟨k, hk, heq⟩ := hp
            rw [heq, BitVec.toNat_twoPow_of_lt hk] at hfit ⊢
            have hpow : 64 * 2 ^ k = 2 ^ (k + 6) := by
              rw [Nat.pow_add, Nat.mul_comm]
            rw [hpow] at hfit ⊢
            have hk58 : 64 ≤ k + 6 := by
              by_contra hc
              exact hfit (Nat.pow_lt_pow_right (by omega) (by omega))
            exact Nat.mod_eq_zero_of_dvd (Nat.pow_dvd_pow 2 hk58)
          rw [exactLength, if_pos (by simp only [hmul]; exact hzero)]
          omega
      · rw [if_neg hdef, if_neg hdef]
        exact hgiven
  | _ => exact hgiven

/-- A page that starts below a multiple of the page size ends there at the latest. -/
theorem page_le_of_lt {p i m : Nat} (hm : p ∣ m) (hlt : i * p < m) : (i + 1) * p ≤ m := by
  obtain ⟨c, rfl⟩ := hm
  rw [Nat.mul_comm p c] at hlt ⊢
  exact Nat.mul_le_mul_right p (Nat.lt_of_mul_lt_mul_right hlt)

/-- The pages of the clamped range against the pages of the request. -/
theorem coversPages_iff {s : Segment} {range : Range} {offset length : Word} {span : Nat}
    (hpos : 0 < s.segPagesize.toNat) (hldvd : Divides s.segPagesize s.segLength)
    (hsdvd : s.segPagesize.toNat ∣ span) (hin : range.offset.toNat < s.segLength.toNat)
    (hlen : 0 < range.length.toNat)
    (hoff : offset.toNat = floorTo s.segPagesize.toNat range.offset.toNat)
    (hleq : length.toNat = min span (s.segLength.toNat - offset.toNat)) :
    CoversPages s range offset length ↔
      range.offset.toNat % s.segPagesize.toNat + range.length.toNat ≤ span ∨
        s.segLength.toNat ≤ offset.toNat + span := by
  have hsplit := floorTo_add_mod s.segPagesize.toNat range.offset.toNat
  have hodvd : s.segPagesize.toNat ∣ offset.toNat := by
    rw [hoff]
    exact dvd_floorTo _ _
  rw [← hoff] at hsplit
  constructor
  · -- look at the last page that has a requested byte
    intro hcov
    set last := min (range.offset.toNat + range.length.toNat) s.segLength.toNat - 1 with hlast
    have hdiv := Nat.div_add_mod' last s.segPagesize.toNat
    have hmod := Nat.mod_lt last hpos
    have hsucc : (last / s.segPagesize.toNat + 1) * s.segPagesize.toNat =
        last / s.segPagesize.toNat * s.segPagesize.toNat + s.segPagesize.toNat := Nat.succ_mul _ _
    obtain ⟨-, hend⟩ := hcov (last / s.segPagesize.toNat) (by omega) (by omega) (by omega)
    omega
  · intro hreach i htotal hreq hoffi
    have hseg := page_le_of_lt hldvd htotal
    refine ⟨?_, ?_⟩
    · rw [hoff, floorTo]
      exact Nat.mul_le_mul_right _ (Nat.lt_succ_iff.mp ((Nat.div_lt_iff_lt_mul hpos).mpr hoffi))
    · have hspan : (i + 1) * s.segPagesize.toNat ≤ offset.toNat + span := by
        rcases hreach with hreach | hreach
        · exact page_le_of_lt (Nat.dvd_add hodvd hsdvd) (by omega)
        · omega
      omega

/-- In every reachable state an operation covers the request exactly when the length
rounded up on its own reaches far enough from the first page. -/
theorem covers_request_iff {g : Glctx} (h : (segSpec anyOp).Reachable g) {segp : SegPtr}
    {name : CStr} (hlive : g.Live segp) (hname : (g.heap segp).segName = some name)
    (hstart : (g.heap segp).segStart ≠ mapFailed)
    (hpow : IsPowerOfTwo (g.heap segp).segPagesize) {range : Range}
    (hoff : range.offset.toNat < (g.heap segp).segLength.toNat) (hlen : 0 < range.length.toNat)
    {op : RangeOp} (hop : op.Ranged) :
    op.Covers g segp name range ↔ op.Reaches (g.heap segp) range := by
  have hrep := reachable_repInv h
  have hok := (reachable_pageInv h).records segp hlive
  have hmaps := not_maps_of_pagesize hok hpow
  have hldvd : Divides (g.heap segp).segPagesize (g.heap segp).segLength := by
    rcases hok.mapped hmaps hstart with ⟨-, hdvd⟩ | ⟨hzero, -⟩
    · exact hdvd
    · have hpos := hpow.pos
      rw [hzero] at hpos
      exact absurd hpos (lt_irrefl 0)
  have hne : range.length ≠ 0 := by
    rintro heq
    rw [heq] at hlen
    exact absurd hlen (lt_irrefl 0)
  -- the range the operation settles on
  have hoffset : (op.asked (g.heap segp) range).offset = range.offset := by
    cases op with
    | location k sig => exact whereRange_offset _ _
    | _ => rfl
  have hfloor := floorTo_le (g.heap segp).segPagesize.toNat range.offset.toNat
  have hlt64 := (g.heap segp).segLength.isLt
  have hclamp := clampRange_exact hpow (op.asked (g.heap segp) range)
  rw [hoffset, if_neg (by omega), exactLength_asked hpow hne] at hclamp
  have ho64 : (BitVec.ofNat 64 (floorTo (g.heap segp).segPagesize.toNat
      range.offset.toNat)).toNat = floorTo (g.heap segp).segPagesize.toNat range.offset.toNat := by
    rw [BitVec.toNat_ofNat]
    exact Nat.mod_eq_of_lt (by omega)
  have hl64 : (BitVec.ofNat 64 (min (op.span (g.heap segp) range) ((g.heap segp).segLength.toNat -
      floorTo (g.heap segp).segPagesize.toNat range.offset.toNat))).toNat =
      min (op.span (g.heap segp) range) ((g.heap segp).segLength.toNat -
        floorTo (g.heap segp).segPagesize.toNat range.offset.toNat) := by
    rw [BitVec.toNat_ofNat]
    exact Nat.mod_eq_of_lt (by omega)
  have hiff := coversPages_iff hpow.pos hldvd (dvd_span _ _ op) hoff hlen ho64
    (hl64.trans (by rw [ho64]))
  rw [ho64] at hiff
  constructor
  · rintro ⟨offset, length, hsome, -, hcov⟩
    rw [hclamp] at hsome
    cases hsome
    exact hiff.mp hcov
  · intro hreach
    refine ⟨_, _, hclamp, ?_, hiff.mpr hreach⟩
    intro fuel
    rw [run_eq hrep hlive hname hstart hmaps hop range fuel, hclamp]

/-- A page and a byte from a page boundary on are covered. -/
theorem covers_request_iff_aligned :
    (RangeOp.mbind sampleKernel 0 none 0).Covers sampleMapped 1 ['a'] ⟨0, 0x1001#64, 0⟩ := by
  have hop : (RangeOp.mbind sampleKernel 0 none 0).Ranged := trivial
  refine (covers_request_iff sampleMapped_reachable ⟨by decide, by decide⟩ (by decide) (by decide)
    ⟨12, by decide, sampleMapped_pagesize⟩ (by decide) (by decide) hop).mpr (Or.inl ?_)
  decide

/-- Two bytes across a page boundary: only the first of the two pages is locked. -/
theorem lock_across_page_boundary :
    (segSpec anyOp).Reachable sampleMapped ∧ sampleMapped.Live 1 ∧
      (sampleMapped.heap 1).segName = some ['a'] ∧
      (sampleMapped.heap 1).segStart ≠ mapFailed ∧
      IsPowerOfTwo (sampleMapped.heap 1).segPagesize ∧
      (sampleMapped.heap 1).segLength = 0x2000#64 ∧
      ((RangeOp.lockUnlock sampleKernel true false).run 0 sampleMapped ['a']
        ⟨0xfff#64, 2#64, 0⟩).2.log =
          sampleMapped.log ++ [.mlock 1 true (sampleMapped.heap 1).segStart 0x1000#64] ∧
      ¬ (RangeOp.lockUnlock sampleKernel true false).Covers sampleMapped 1 ['a']
        ⟨0xfff#64, 2#64, 0⟩ := by
  refine ⟨sampleMapped_reachable, ⟨by decide, by decide⟩, by decide, by decide,
    ⟨12, by decide, sampleMapped_pagesize⟩, by decide, by decide, ?_⟩
  rintro ⟨offset, length, hclamp, -, hcov⟩
  have hone : clampRange (sampleMapped.heap 1) ⟨0xfff#64, 2#64, 0⟩ = some (0#64, 0x1000#64) := by
    decide
  have hsame := hclamp.symm.trans hone
  cases hsame
  -- the second page has the second byte
  obtain ⟨-, hend⟩ := hcov 1 (by decide) (by decide) (by decide)
  exact absurd hend (by decide)

end Memtoy
