import Memtoy.Segment.Pages

/-!
# Segment.Guard — what the range operations let through

`segment_touch`, `segment_mbind`, `segment_location` and `segment_lock_unlock`
each have guards of their own before they use a segment's memory. The law they
are to keep (`GuardLaw`): whatever gets past the guards is mapped and has a page
size, so that the divisions are defined and the page loops end. `Guarded` is the
condition on the segment under which each of them keeps it.
-/

namespace Memtoy

open CString MachineWord

/-! ## The loops end -/

theorem touchLoop_ends (ev : Nat → PageEvent) {memend stride : Word} (fuel : Nat) :
    ∀ (k : Nat) {pp : Word}, Within fuel stride memend pp →
      touchLoop ev memend stride fuel k pp ≠ none := by
  induction fuel with
  | zero =>
      intro k pp h
      rw [touchLoop, if_pos h.done]
      simp
  | succ fuel ih =>
      intro k pp h
      rw [touchLoop]
      split
      · simp
      · next hlt =>
        have hrest := ih (k + 1) (h.step hlt)
        cases ev k <;> simp [hrest]

theorem nodeLoop_ends (getNode : Word → Int) (sig : Nat → Bool) {pagesize endp : Word}
    (fuel : Nat) : ∀ (k : Nat) {apage : Word} (pgid : Flags) (needNl : Bool),
      Within fuel pagesize endp apage →
      nodeLoop getNode sig pagesize endp fuel k apage pgid needNl ≠ none := by
  induction fuel with
  | zero =>
      intro k apage pgid needNl h
      rw [nodeLoop, if_pos h.done]
      simp
  | succ fuel ih =>
      intro k apage pgid needNl h
      rw [nodeLoop]
      split
      · simp
      · next hlt =>
        have hrest := fun needNl => ih (k + 1) (pgid + 1) needNl (h.step hlt)
        simp only
        split
        · simp
        · split
          · simp
          · rw [ne_eq, Option.map_eq_none_iff]
            exact hrest _

/-- Counting in `unsigned long`s loses nothing of a multiple of eight. -/
theorem longs_cancel {x : Word} (h : 8 ∣ x.toNat) : x / sizeofLong * sizeofLong = x := by
  refine BitVec.eq_of_toNat_eq ?_
  have hx := x.isLt
  rw [BitVec.toNat_mul, BitVec.toNat_udiv]
  show x.toNat / 8 * 8 % 2 ^ 64 = x.toNat
  rw [Nat.div_mul_cancel h, Nat.mod_eq_of_lt hx]

theorem IsPageSize.eight_dvd {n : Word} (h : IsPageSize n) : 8 ∣ n.toNat := by
  obtain ⟨k, hk3, hk, rfl⟩ := h
  rw [BitVec.toNat_twoPow_of_lt hk]
  exact Nat.pow_dvd_pow 2 hk3

theorem touchMemory_ends (ev : Nat → PageEvent) {fuel : Nat} (memp : Word) {length pagesize : Word}
    (hps : IsPageSize pagesize) (hdvd : Divides pagesize length)
    (hfuel : length.toNat / pagesize.toNat ≤ fuel) :
    touchMemory ev fuel memp length pagesize ≠ none := by
  have hlen : 8 ∣ length.toNat := Nat.dvd_trans hps.eight_dvd hdvd
  simp only [touchMemory, longs_cancel hps.eight_dvd, longs_cancel hlen]
  exact touchLoop_ends ev fuel 0 ((within_start hdvd memp).mono hfuel)

/-! ## The clamped range -/

theorem clampRange_none {s : Segment} {range : Range} :
    clampRange s range = none ↔ s.segLength ≤ roundDownToSegmentPagesize range.offset s := by
  simp only [clampRange]
  split
  · next hle => exact ⟨fun _ => hle, fun _ => rfl⟩
  · next hlt => exact ⟨fun hc => (by cases hc), fun hle => absurd hle hlt⟩

/-- A clamped range is a whole number of pages and lies in the segment. -/
theorem clampRange_some {s : Segment} {range : Range} {offset length : Word}
    (hps : IsPageSize s.segPagesize) (hdvd : Divides s.segPagesize s.segLength)
    (h : clampRange s range = some (offset, length)) :
    Divides s.segPagesize length ∧ length.toNat ≤ s.segLength.toNat := by
  simp only [clampRange] at h
  split at h
  · cases h
  · next hlt =>
    have hoff : roundDownToSegmentPagesize range.offset s ≤ s.segLength := by
      rw [BitVec.le_def] at hlt ⊢
      omega
    set maxlength := s.segLength - roundDownToSegmentPagesize range.offset s with hmax
    have hmaxdvd : Divides s.segPagesize maxlength :=
      hps.divides_sub hdvd (divides_roundDown hps _)
    have hmaxle : maxlength.toNat ≤ s.segLength.toNat := by
      rw [hmax, BitVec.toNat_sub_of_le hoff]
      omega
    -- the length asked for, rounded up
    have hask : Divides s.segPagesize (if range.length ≠ 0 then
        roundUpToSegmentPagesize range.length s else range.length) := by
      split
      · exact divides_roundUp hps _
      · next hzero =>
        have hz : range.length = 0 := by simpa using hzero
        rw [hz]
        exact divides_zero _
    generalize (if range.length ≠ 0 then roundUpToSegmentPagesize range.length s
      else range.length) = ask at h hask
    simp only [Option.some.injEq, Prod.mk.injEq] at h
    obtain ⟨-, rfl⟩ := h
    split
    · exact ⟨hmaxdvd, hmaxle⟩
    · next hcut =>
      have hnot : ¬ maxlength < ask := fun hc => hcut (Or.inr hc)
      rw [BitVec.lt_def] at hnot
      exact ⟨hask, by omega⟩

/-! ## The four operations -/

/-- A range operation with what the kernel and the signals do during it. -/
inductive RangeOp where
  | touch (ev : Nat → PageEvent) (rw : Bool)
  | mbind (k : Kernel) (policy : Int) (nodemask : Option Nat) (flags : Flags)
  | location (k : Kernel) (sig : Nat → Bool)
  | lockUnlock (k : Kernel) (lock shm : Bool)

/-- The outcome without its report. -/
def Outcome.void {α : Type} : Outcome α → Outcome Unit
  | .segErr => .segErr
  | .segOk _ => .segOk ()
  | .sigfpe => .sigfpe
  | .running => .running

/-- The operation, with at most `fuel` iterations of its page loop. -/
def RangeOp.run (fuel : Nat) (g : Glctx) (name : CStr) (range : Range) :
    RangeOp → Outcome Unit × Glctx
  | .touch ev rw =>
      ((segmentTouch ev fuel g name range rw).1.void, (segmentTouch ev fuel g name range rw).2)
  | .mbind k policy nodemask flags => segmentMbind k g name range policy nodemask flags
  | .location k sig =>
      let r := segmentLocation k sig fuel g name range
      (r.1.void, r.2)
  | .lockUnlock k lock shm => segmentLockUnlock k g name range lock shm

/-- Either the operation refuses before it uses the segment's memory, or the
segment is mapped, its page size is a power of two, and nothing is divided by
zero and the page loop ends within `seg_length / seg_pagesize` iterations. -/
def GuardLaw (g : Glctx) (segp : SegPtr) (name : CStr) (range : Range) (op : RangeOp) : Prop :=
  (∀ fuel, (op.run fuel g name range).1 = .segErr ∧ (op.run fuel g name range).2.log = g.log) ∨
    ((g.heap segp).segStart ≠ mapFailed ∧ IsPageSize (g.heap segp).segPagesize ∧
      ∀ fuel, ((g.heap segp).segLength / (g.heap segp).segPagesize).toNat ≤ fuel →
        (op.run fuel g name range).1 ≠ .sigfpe ∧ (op.run fuel g name range).1 ≠ .running)

/-- The guards the operations have. -/
def Refuses (s : Segment) (range : Range) : RangeOp → Prop
  | .touch _ rw => rw = true ∧ s.isMaps = true ∨
      s.segLength ≤ roundDownToSegmentPagesize range.offset s
  | .mbind _ _ _ _ | .location _ _ => s.segStart = mapFailed ∨
      s.segLength ≤ roundDownToSegmentPagesize range.offset s
  | .lockUnlock _ _ shm => s.segStart = mapFailed ∨
      if shm then s.segType ≠ .segtShm
      else s.segLength ≤ roundDownToSegmentPagesize range.offset s

/-- When the law holds: not for the segments of the maps file, except where the
operation refuses them; and `segment_touch` does not ask whether the segment is
mapped. -/
def Guarded (s : Segment) (range : Range) : RangeOp → Prop
  | .touch _ rw => s.segStart ≠ mapFailed ∧ s.isMaps = false ∨ rw = true ∧ s.isMaps = true ∨
      s.segLength ≤ roundDownToSegmentPagesize range.offset s
  | .mbind _ _ _ _ | .location _ _ => s.isMaps = false
  | .lockUnlock _ _ shm =>
      if shm then s.segType = .segtShm → s.segStart ≠ mapFailed → s.segPagesize ≠ 0
      else s.isMaps = false

/-! ## What the guards do -/

section Run

/-- The default length of `segment_location` does not change the offset. -/
theorem whereRange_offset (s : Segment) (range : Range) :
    (if range.length = defaultLength then { range with length := 64#64 * s.segPagesize }
      else range).offset = range.offset := by
  split <;> rfl

variable {g : Glctx} {segp : SegPtr} {name : CStr} {range : Range}

/-- An operation that refuses has not touched anything. -/
theorem run_of_refuses (h : RepInv g) (hlive : g.Live segp)
    (hname : (g.heap segp).segName = some name) {op : RangeOp}
    (hop : Refuses (g.heap segp) range op) (fuel : Nat) :
    (op.run fuel g name range).1 = .segErr ∧ (op.run fuel g name range).2.log = g.log := by
  obtain ⟨avail, hget⟩ := segmentGet_live h hlive hname
  cases op with
  | touch ev rw =>
      rcases hop with ⟨hrw, hmaps⟩ | hlen
      · simp [RangeOp.run, segmentTouch, hget, hrw, hmaps, Outcome.void]
      · simp only [RangeOp.run, segmentTouch, hget, clampRange_none.mpr hlen]
        split <;> exact ⟨rfl, rfl⟩
  | mbind k policy nodemask flags =>
      rcases hop with hstart | hlen
      · simp [RangeOp.run, segmentMbind, hget, hstart]
      · simp only [RangeOp.run, segmentMbind, hget, clampRange_none.mpr hlen]
        split <;> exact ⟨rfl, rfl⟩
  | location k sig =>
      rcases hop with hstart | hlen
      · simp [RangeOp.run, segmentLocation, hget, hstart, Outcome.void]
      · have hnone := clampRange_none.mpr ((whereRange_offset (g.heap segp) range).symm ▸ hlen)
        simp only [RangeOp.run, segmentLocation, hget]
        split
        · exact ⟨rfl, rfl⟩
        · rw [hnone]
          exact ⟨rfl, rfl⟩
  | lockUnlock k lock shm =>
      rcases hop with hstart | hop
      · simp [RangeOp.run, segmentLockUnlock, hget, hstart]
      · cases shm with
        | true =>
            have htype : (g.heap segp).segType ≠ .segtShm := by simpa using hop
            simp only [RangeOp.run, segmentLockUnlock, hget]
            split
            · exact ⟨rfl, rfl⟩
            · simp
        | false =>
            have hlen : (g.heap segp).segLength ≤
                roundDownToSegmentPagesize range.offset (g.heap segp) := by simpa using hop
            simp only [RangeOp.run, segmentLockUnlock, hget, clampRange_none.mpr hlen]
            split <;> exact ⟨rfl, rfl⟩

theorem log_append_ne (log : List SysCall) (c : SysCall) : log ++ [c] ≠ log := by
  intro heq
  have hlen := congrArg List.length heq
  simp at hlen

/-- An operation that does not refuse uses the memory, or is stopped by the page
size. -/
theorem run_of_not_refuses (h : RepInv g) (hlive : g.Live segp)
    (hname : (g.heap segp).segName = some name) {op : RangeOp}
    (hop : ¬ Refuses (g.heap segp) range op) :
    ¬ ((op.run 0 g name range).1 = .segErr ∧ (op.run 0 g name range).2.log = g.log) := by
  obtain ⟨avail, hget⟩ := segmentGet_live h hlive hname
  have hsome : ∀ {range : Range}, ¬ (g.heap segp).segLength ≤
      roundDownToSegmentPagesize range.offset (g.heap segp) →
      ∃ r, clampRange (g.heap segp) range = some r :=
    fun hlen => Option.ne_none_iff_exists'.mp (fun hc => hlen (clampRange_none.mp hc))
  cases op with
  | touch ev rw =>
      obtain ⟨hrw, hlen⟩ := not_or.mp hop
      obtain ⟨⟨offset, length⟩, hclamp⟩ := hsome hlen
      simp only [RangeOp.run, segmentTouch, hget, hclamp]
      rw [if_neg hrw]
      -- whatever `touch_memory` returns, its call is in the log
      rintro ⟨-, hlog⟩
      refine log_append_ne g.log (.touchMemory segp rw ((g.heap segp).segStart + offset) length
        (g.heap segp).segPagesize) (Eq.trans ?_ hlog)
      split
      · rfl
      · split <;> rfl
  | mbind k policy nodemask flags =>
      obtain ⟨hstart, hlen⟩ := not_or.mp hop
      obtain ⟨⟨offset, length⟩, hclamp⟩ := hsome hlen
      simp only [RangeOp.run, segmentMbind, hget, hclamp]
      rw [if_neg hstart]
      rintro ⟨-, hlog⟩
      refine log_append_ne g.log (.mbind segp ((g.heap segp).segStart + offset) length policy
        nodemask flags) (Eq.trans ?_ hlog)
      split <;> rfl
  | location k sig =>
      obtain ⟨hstart, hlen⟩ := not_or.mp hop
      rintro ⟨herr, -⟩
      rw [← whereRange_offset (g.heap segp) range] at hlen
      obtain ⟨⟨offset, length⟩, hclamp⟩ := hsome hlen
      simp only [RangeOp.run, segmentLocation, hget, hclamp] at herr
      rw [if_neg hstart] at herr
      -- a division by zero, a loop out of fuel, or no error
      split at herr
      · cases herr
      · rw [nodeLoop] at herr
        split at herr
        · next hloop => cases herr
        · next run hloop =>
          split at hloop
          · cases hloop
            cases herr
          · cases hloop
  | lockUnlock k lock shm =>
      obtain ⟨hstart, hop⟩ := not_or.mp hop
      rintro ⟨-, hlog⟩
      cases shm with
      | true =>
          have htype : (g.heap segp).segType = .segtShm := by simpa using hop
          simp only [RangeOp.run, segmentLockUnlock, hget] at hlog
          rw [if_neg hstart] at hlog
          simp only [if_true, htype, ne_eq, not_true_eq_false, if_false] at hlog
          refine log_append_ne g.log (.shmLock segp (g.heap segp).segShmid lock)
            (Eq.trans ?_ hlog)
          split <;> rfl
      | false =>
          have hlen : ¬ (g.heap segp).segLength ≤
              roundDownToSegmentPagesize range.offset (g.heap segp) := by simpa using hop
          obtain ⟨⟨offset, length⟩, hclamp⟩ := hsome hlen
          simp only [RangeOp.run, segmentLockUnlock, hget, hclamp] at hlog
          rw [if_neg hstart] at hlog
          refine log_append_ne g.log
            (.mlock segp lock ((g.heap segp).segStart + offset) length) (Eq.trans ?_ hlog)
          simp only [Bool.false_eq_true, if_false]
          split <;> rfl

/-- On a segment that is a whole number of pages nothing is divided by zero and
the page loops end. -/
theorem run_ends (h : RepInv g) (hlive : g.Live segp) (hname : (g.heap segp).segName = some name)
    (hps : IsPageSize (g.heap segp).segPagesize)
    (hdvd : Divides (g.heap segp).segPagesize (g.heap segp).segLength) (op : RangeOp) {fuel : Nat}
    (hfuel : ((g.heap segp).segLength / (g.heap segp).segPagesize).toNat ≤ fuel) :
    (op.run fuel g name range).1 ≠ .sigfpe ∧ (op.run fuel g name range).1 ≠ .running := by
  obtain ⟨avail, hget⟩ := segmentGet_live h hlive hname
  have hne := hps.ne_zero
  rw [BitVec.toNat_udiv] at hfuel
  have hbound : ∀ {length : Word}, length.toNat ≤ (g.heap segp).segLength.toNat →
      length.toNat / (g.heap segp).segPagesize.toNat ≤ fuel :=
    fun hle => (Nat.div_le_div_right hle).trans hfuel
  cases op with
  | touch ev rw =>
      simp only [RangeOp.run, segmentTouch, hget]
      split
      · simp [Outcome.void]
      · split
        · simp [Outcome.void]
        · next offset length hclamp =>
          -- the clamped length is whole pages of the segment, so the fuel is enough
          obtain ⟨hldvd, hle⟩ := clampRange_some hps hdvd hclamp
          have hends := touchMemory_ends ev ((g.heap segp).segStart + offset) hps hldvd (hbound hle)
          split
          · next hnone => exact absurd hnone hends
          · simp [Outcome.void]
  | mbind k policy nodemask flags =>
      simp only [RangeOp.run, segmentMbind, hget]
      split
      · simp
      · split
        · simp
        · split <;> simp
  | location k sig =>
      simp only [RangeOp.run, segmentLocation, hget]
      split
      · simp [Outcome.void]
      · split
        · simp [Outcome.void]
        · next offset length hclamp =>
          obtain ⟨hldvd, hle⟩ := clampRange_some hps hdvd hclamp
          have hwithin := (within_start hldvd ((g.heap segp).segStart + offset)).mono (hbound hle)
          split
          · next hnone => exact absurd hnone (nodeLoop_ends _ _ fuel 0 _ _ hwithin)
          · split <;> simp [Outcome.void]
  | lockUnlock k lock shm =>
      simp only [RangeOp.run, segmentLockUnlock, hget]
      split
      · simp
      · split
        · split
          · simp
          · split <;> simp
        · split
          · simp
          · split <;> simp

end Run

section Guards

variable {s : Segment}

/-- A mapped segment that is not from the maps file has a page size or is empty. -/
theorem Segment.PagesOk.page_or_refused (h : s.PagesOk) (range : Range) (hm : s.isMaps = false)
    (hst : s.segStart ≠ mapFailed) :
    IsPageSize s.segPagesize ∨ s.segLength ≤ roundDownToSegmentPagesize range.offset s := by
  rcases h.mapped hm hst with ⟨hps, -⟩ | ⟨-, hlen⟩
  · exact Or.inl hps
  · refine Or.inr ?_
    rw [hlen, BitVec.le_def]
    exact Nat.zero_le _

/-- A segment of the maps file has none, and is not empty. -/
theorem Segment.PagesOk.no_page_of_maps (h : s.PagesOk) (range : Range) (hm : s.isMaps = true) :
    ¬ IsPageSize s.segPagesize ∧ ¬ s.segLength ≤ roundDownToSegmentPagesize range.offset s := by
  obtain ⟨-, hlen, hpage, -⟩ := h.maps hm
  refine ⟨fun hps => hps.ne_zero hpage, fun hle => hlen ?_⟩
  rw [roundDown_of_no_pagesize hpage, BitVec.le_def] at hle
  exact BitVec.eq_of_toNat_eq (Nat.le_zero.mp hle)

/-- The condition that the operations that ask for a mapping share. -/
theorem Segment.PagesOk.not_maps_iff (h : s.PagesOk) (range : Range) : s.isMaps = false ↔
    (s.segStart = mapFailed ∨ s.segLength ≤ roundDownToSegmentPagesize range.offset s) ∨
      (s.segStart ≠ mapFailed ∧ IsPageSize s.segPagesize) := by
  constructor
  · intro hm
    by_cases hst : s.segStart = mapFailed
    · exact Or.inl (Or.inl hst)
    · rcases h.page_or_refused range hm hst with hps | hle
      · exact Or.inr ⟨hst, hps⟩
      · exact Or.inl (Or.inr hle)
  · intro hor
    by_contra hc
    have hm : s.isMaps = true := by simpa using hc
    obtain ⟨hps, hlen⟩ := h.no_page_of_maps range hm
    rcases hor with (hst | hle) | ⟨-, hps'⟩
    · exact (h.maps hm).1 hst
    · exact hlen hle
    · exact hps hps'

end Guards

/-- The guards that are there and the state of the segment, put together. -/
theorem guarded_iff {s : Segment} (h : s.PagesOk) (range : Range) (op : RangeOp) :
    Guarded s range op ↔
      Refuses s range op ∨ (s.segStart ≠ mapFailed ∧ IsPageSize s.segPagesize) := by
  cases op with
  | touch ev rw =>
      simp only [Guarded, Refuses]
      constructor
      · rintro (⟨hst, hm⟩ | hrw | hle)
        · rcases h.page_or_refused range hm hst with hps | hle
          · exact Or.inr ⟨hst, hps⟩
          · exact Or.inl (Or.inr hle)
        · exact Or.inl (Or.inl hrw)
        · exact Or.inl (Or.inr hle)
      · rintro ((hrw | hle) | ⟨hst, hps⟩)
        · exact Or.inr (Or.inl hrw)
        · exact Or.inr (Or.inr hle)
        · exact Or.inl ⟨hst, (h.not_maps_iff range).mpr (Or.inr ⟨hst, hps⟩)⟩
  | mbind k policy nodemask flags => exact h.not_maps_iff range
  | location k sig => exact h.not_maps_iff range
  | lockUnlock k lock shm =>
      cases shm with
      | false => simpa [Guarded, Refuses] using h.not_maps_iff range
      | true =>
          simp only [Guarded, Refuses, if_true]
          constructor
          · intro hpage
            by_cases hst : s.segStart = mapFailed
            · exact Or.inl (Or.inl hst)
            · by_cases ht : s.segType = .segtShm
              · rcases (h.shm ht).2 with ⟨hps, -⟩ | ⟨hzero, -⟩
                · exact Or.inr ⟨hst, hps⟩
                · exact absurd hzero (hpage ht hst)
              · exact Or.inl (Or.inr ht)
          · rintro ((hst | ht) | ⟨-, hps⟩) ht' hst'
            · exact absurd hst hst'
            · exact absurd ht' ht
            · exact hps.ne_zero

/-- In every reachable state and for every live segment and range: the law holds
of an operation exactly when the segment is one its guards are made for. -/
theorem range_guard_iff {g : Glctx} (h : (segSpec anyOp).Reachable g) {segp : SegPtr}
    {name : CStr} (hlive : g.Live segp) (hname : (g.heap segp).segName = some name)
    (range : Range) (op : RangeOp) :
    GuardLaw g segp name range op ↔ Guarded (g.heap segp) range op := by
  have hrep := reachable_repInv h
  have hok := (reachable_pageInv h).records segp hlive
  rw [guarded_iff hok]
  constructor
  · rintro (herr | ⟨hst, hps, -⟩)
    · left
      by_contra hno
      exact run_of_not_refuses hrep hlive hname hno (herr 0)
    · exact Or.inr ⟨hst, hps⟩
  · rintro (hno | ⟨hst, hps⟩)
    · exact Or.inl (run_of_refuses hrep hlive hname hno)
    · refine Or.inr ⟨hst, hps, ?_⟩
      intro fuel hfuel
      have hm : (g.heap segp).isMaps = false := by
        by_contra hc
        exact hps.ne_zero (hok.maps (by simpa using hc)).2.2.1
      rcases hok.mapped hm hst with ⟨-, hdvd⟩ | ⟨hzero, -⟩
      · exact run_ends hrep hlive hname hps hdvd op hfuel
      · exact absurd hzero hps.ne_zero

/-- On the concrete machine the heap of the maps file can be written to by no
`touch`, and the law holds of the attempt. -/
theorem range_guard_iff_heap :
    GuardLaw sampleTable 0 ['h', 'e', 'a', 'p'] ⟨0, 0, 0⟩ (.touch (fun _ => .completes) true) ∧
      ¬ GuardLaw sampleTable 0 ['h', 'e', 'a', 'p'] ⟨0, 0, 0⟩
        (.touch (fun _ => .completes) false) := by
  have hlive : sampleTable.Live 0 := ⟨by decide, by decide⟩
  have hname : (sampleTable.heap 0).segName = some ['h', 'e', 'a', 'p'] := by decide
  have hiff := range_guard_iff (sampleTable_reachable anyOp) hlive hname ⟨0, 0, 0⟩
  rw [hiff, hiff]
  refine ⟨Or.inr (Or.inl ⟨rfl, by decide⟩), ?_⟩
  unfold Guarded
  decide

/-! ## Segments that get past the guards -/

/-- `anon a 4k`, and no `map`. -/
def sampleAnon : Op := .register sampleKernel .segtAnon ['a'] ⟨0, 0x1000#64, 0⟩ 0

/-- A `touch` of a segment that was never mapped, and a `where` of one from the
maps file, get past the guards and divide by a page size of zero. -/
theorem touch_unmapped_divides_by_zero :
    ∃ g, (segSpec anyOp).Reachable g ∧
      (g.Live 1 ∧ (g.heap 1).segName = some ['a'] ∧
        ¬ GuardLaw g 1 ['a'] ⟨0, 0, 0⟩ (.touch (fun _ => .completes) false) ∧
        ((RangeOp.touch (fun _ => .completes) false).run 0 g ['a'] ⟨0, 0, 0⟩).1 = .sigfpe) ∧
      (g.Live 0 ∧ (g.heap 0).segName = some ['h', 'e', 'a', 'p'] ∧
        ¬ GuardLaw g 0 ['h', 'e', 'a', 'p'] ⟨0, 0, 0⟩ (.location sampleKernel (fun _ => false)) ∧
        ((RangeOp.location sampleKernel (fun _ => false)).run 0 g ['h', 'e', 'a', 'p']
          ⟨0, 0, 0⟩).1 = .sigfpe) := by
  have hreach : (segSpec anyOp).Reachable (sampleAnon.exec sampleTable) :=
    (sampleTable_reachable anyOp).step ⟨sampleAnon, ⟨by decide, by decide⟩, trivial, rfl⟩
  refine ⟨sampleAnon.exec sampleTable, hreach, ⟨⟨by decide, by decide⟩, by decide, ?_, by decide⟩,
    ⟨⟨by decide, by decide⟩, by decide, ?_, by decide⟩⟩
  · rintro (herr | ⟨hstart, -⟩)
    · exact absurd (herr 0).1 (by decide)
    · exact hstart (by decide)
  · rintro (herr | ⟨-, hps, -⟩)
    · exact absurd (herr 0).1 (by decide)
    · exact hps.ne_zero (by decide)

end Memtoy
