import Memtoy.Segment.Clamp

/-!
# Segment.Remap — map, unmap and map again

`seg_offset`, `seg_length` and `seg_flags` hold what the user asked for and, after
a mapping, what was computed from it; `segment_map` writes them before it turns to
the kernel. `mapEffect` is the record a `map` leaves and the calls it issues, as a
function of the record it found; `segmentMap_effect` says that the table follows it.
A failed `map` leaves the registration as it was up to a condition on the request
(`failed_map_keeps_iff`).
-/

namespace Memtoy

open CString MachineWord

/-! ## Rounding what is rounded -/

theorem IsPageSize.powerOfTwo {n : Word} (h : IsPageSize n) : IsPowerOfTwo n := by
  obtain ⟨k, -, hk, heq⟩ := h
  exact ⟨k, hk, heq⟩

theorem roundUp_of_divides {s : Segment} (h : IsPageSize s.segPagesize) {size : Word}
    (hdvd : Divides s.segPagesize size) : roundUpToSegmentPagesize size s = size := by
  have hp := h.powerOfTwo
  apply BitVec.eq_of_toNat_eq
  rw [toNat_roundUp hp, ceilTo_of_dvd hp.pos hdvd, Nat.mod_eq_of_lt size.isLt]

theorem roundDown_of_divides {s : Segment} (h : IsPageSize s.segPagesize) {size : Word}
    (hdvd : Divides s.segPagesize size) : roundDownToSegmentPagesize size s = size := by
  apply BitVec.eq_of_toNat_eq
  rw [toNat_roundDown h.powerOfTwo, floorTo_of_dvd hdvd]

/-- Rounding a size up or down to a page size. -/
def upTo (pagesize size : Word) : Word :=
  roundUpToSegmentPagesize size { Segment.zero with segPagesize := pagesize }

def downTo (pagesize size : Word) : Word :=
  roundDownToSegmentPagesize size { Segment.zero with segPagesize := pagesize }

section Rounded

variable {pagesize : Word} (h : IsPageSize pagesize) (s : Segment)

include h

theorem upTo_upTo (size : Word) : upTo pagesize (upTo pagesize size) = upTo pagesize size :=
  roundUp_of_divides (s := { Segment.zero with segPagesize := pagesize }) h
    (divides_roundUp (s := { Segment.zero with segPagesize := pagesize }) h size)

theorem downTo_downTo (size : Word) :
    downTo pagesize (downTo pagesize size) = downTo pagesize size :=
  roundDown_of_divides (s := { Segment.zero with segPagesize := pagesize }) h
    (divides_roundDown (s := { Segment.zero with segPagesize := pagesize }) h size)

theorem pageAlign_pageAlign : (s.pageAlign pagesize).pageAlign pagesize = s.pageAlign pagesize := by
  have hup := upTo_upTo h s.segLength
  have hdown := downTo_downTo h s.segOffset
  simp only [upTo, downTo] at hup hdown
  simp only [Segment.pageAlign]
  congr 1

end Rounded

/-! ## What a `map` does -/

/-- The record `map_anon_segment` hands to `mmap`. -/
def anonRecord (pagesize : Word) (s : Segment) (flags : Flags) : Segment :=
  (s.overrideFlags flags).pageAlign pagesize

/-- A length of zero stands for what is left of the file from the offset on, if there
is a file and it reaches that far. -/
def fitToFile (k : Kernel) (pagesize : Word) (s : Segment) : Segment :=
  { s with
    segLength :=
      if s.segLength = 0 ∧ s.segFd ≠ segFdNone ∧ ¬ fileSize k s.segFd < s.segOffset then
        upTo pagesize (fileSize k s.segFd) - s.segOffset
      else s.segLength }

/-- The record `map_file_segment` hands to `mmap`, or leaves when it fails before. -/
def fileRecord (k : Kernel) (pagesize : Word) (s : Segment) (range : Option Range)
    (flags : Flags) : Segment :=
  fitToFile k pagesize (((s.overrideFlags flags).overrideRange range).pageAlign pagesize)

/-- The mapping functions of an unmapped segment as a function of its record: the
record they leave, and the calls they issue. -/
def mapEffect (k : Kernel) (pagesize : Word) (segp : SegPtr) (s : Segment) (range : Option Range)
    (flags : Flags) : Segment × List SysCall :=
  match s.segType with
  | .segtAnon =>
      let s := anonRecord pagesize s flags
      let mflags := defaultPrivate s.segFlags
      let mflags := (if s.segOffset ≠ 0 then mflags ||| mapFixed else mflags) ||| mapAnonymous
      let memp := k.mmap s.segOffset s.segLength s.segProt mflags 0 0
      ({ s with segStart := memp },
        [.mmap segp s.segOffset s.segLength s.segProt mflags 0 0 memp])
  | .segtFile =>
      let s := fileRecord k pagesize s range flags
      if s.segFd = segFdNone ∨ fileSize k s.segFd < s.segOffset then (s, [])
      else
        let mflags := defaultPrivate s.segFlags
        let memp := k.mmap 0 s.segLength s.segProt mflags s.segFd s.segOffset
        ({ s with segStart := memp },
          [.mmap segp 0 s.segLength s.segProt mflags s.segFd s.segOffset memp])
  | .segtShm =>
      ({ s with segStart := k.shmat s.segShmid }, [.shmat segp s.segShmid (k.shmat s.segShmid)])
  | .segtNone => (s, [])

/-- The table after a `map` with the given effect on `segp`. -/
def Glctx.mapped (g : Glctx) (segp : SegPtr) (effect : Segment × List SysCall) : SegRet × Glctx :=
  (if effect.1.segStart = mapFailed then .segErr else .segOk,
    { g with heap := Function.update g.heap segp effect.1, log := g.log ++ effect.2 })

section Effect

variable {g : Glctx} {segp : SegPtr}

/-- A call with a result that is written to the record, or not when it is the failure
value that stands there already. -/
theorem mapped_of_ite {s : Segment} {memp : Word} {c : SysCall} (hstart : s.segStart = mapFailed) :
    (if memp = mapFailed then (SegRet.segErr, (g.setSeg segp s).emit c)
      else (.segOk, ((g.setSeg segp s).emit c).setSeg segp { s with segStart := memp })) =
      g.mapped segp ({ s with segStart := memp }, [c]) := by
  by_cases hfail : memp = mapFailed
  · have hsame : ({ s with segStart := memp } : Segment) = s := by rw [hfail, ← hstart]
    rw [if_pos hfail, hsame]
    simp [Glctx.mapped, Glctx.setSeg, Glctx.emit, hstart]
  · rw [if_neg hfail]
    simp [Glctx.mapped, Glctx.setSeg, Glctx.emit, hfail]

theorem mapAnonSegment_effect (k : Kernel) (range : Option Range) (flags : Flags)
    (htype : (g.heap segp).segType = .segtAnon) (hstart : (g.heap segp).segStart = mapFailed) :
    mapAnonSegment k (g.setSeg segp ((g.heap segp).overrideFlags flags)) segp =
      g.mapped segp (mapEffect k g.pagesize segp (g.heap segp) range flags) := by
  simp only [mapAnonSegment, mapEffect, htype, Glctx.setSeg_heap, Function.update_self,
    Glctx.setSeg_setSeg, Glctx.setSeg_pagesize]
  exact mapped_of_ite ((retunes_overrideFlags _ flags).start.trans hstart)

/-- `map_file_segment` with its repeated roundings left out. -/
theorem mapFileSegment_rounded (k : Kernel) (hps : IsPageSize g.pagesize) {s₀ : Segment}
    (hstart : s₀.segStart = mapFailed) {s₁ : Segment} (hs₁ : s₁ = s₀.pageAlign g.pagesize)
    {length : Word}
    (hlength : length = if s₁.segLength = 0 then
      upTo g.pagesize (fileSize k s₁.segFd) - s₁.segOffset else s₁.segLength) {memp : Word}
    (hmemp : memp = k.mmap 0 length s₁.segProt (defaultPrivate s₁.segFlags) s₁.segFd
      s₁.segOffset) :
    mapFileSegment k (g.setSeg segp s₀) segp =
      if s₁.segFd = segFdNone ∨ fileSize k s₁.segFd < s₁.segOffset then
        (.segErr, g.setSeg segp s₁)
      else g.mapped segp ({ s₁ with segLength := length, segStart := memp },
        [.mmap segp 0 length s₁.segProt (defaultPrivate s₁.segFlags) s₁.segFd s₁.segOffset
          memp]) := by
  simp only [mapFileSegment, Glctx.setSeg_heap, Function.update_self, Glctx.setSeg_setSeg,
    Glctx.setSeg_pagesize]
  have hoff : roundDownToSegmentPagesize s₁.segOffset s₁ = s₁.segOffset := by
    rw [hs₁]
    exact downTo_downTo hps _
  have hup : ∀ size, roundUpToSegmentPagesize size s₁ = upTo g.pagesize size := by
    intro size
    rw [hs₁]
    rfl
  have hlen : upTo g.pagesize s₁.segLength = s₁.segLength := by
    rw [hs₁]
    exact upTo_upTo hps _
  have hflags : s₀.segFlags = s₁.segFlags := by
    rw [hs₁]
    rfl
  have hst₁ : s₁.segStart = mapFailed := by
    rw [hs₁]
    exact hstart
  rw [hflags, ← hs₁, hoff]
  by_cases hfd : s₁.segFd = segFdNone
  · rw [if_pos hfd, if_pos (Or.inl hfd)]
  · rw [if_neg hfd]
    by_cases hsize : fileSize k s₁.segFd < s₁.segOffset
    · rw [if_pos hsize, if_pos (Or.inr hsize)]
    · rw [if_neg hsize, if_neg (not_or.mpr ⟨hfd, hsize⟩)]
      have hask : (if s₁.segLength = 0 then
          roundUpToSegmentPagesize (fileSize k s₁.segFd) s₁ - s₁.segOffset
          else roundUpToSegmentPagesize s₁.segLength s₁) = length := by
        rw [hup, hup, hlen, hlength]
      simp only [hask, ← hmemp]
      exact mapped_of_ite (s := { s₁ with segLength := length }) hst₁

theorem mapFileSegment_effect (k : Kernel) (hps : IsPageSize g.pagesize) (range : Option Range)
    (flags : Flags) (htype : (g.heap segp).segType = .segtFile)
    (hstart : (g.heap segp).segStart = mapFailed) :
    mapFileSegment k
        (g.setSeg segp (((g.heap segp).overrideFlags flags).overrideRange range)) segp =
      g.mapped segp (mapEffect k g.pagesize segp (g.heap segp) range flags) := by
  have hst : (((g.heap segp).overrideFlags flags).overrideRange range).segStart = mapFailed :=
    ((retunes_overrideFlags _ flags).trans (retunes_overrideRange _ range)).start.trans hstart
  rw [mapFileSegment_rounded k hps hst rfl rfl rfl]
  simp only [mapEffect, htype]
  set s₁ := (((g.heap segp).overrideFlags flags).overrideRange range).pageAlign g.pagesize with hs₁
  set r := fileRecord k g.pagesize (g.heap segp) range flags with hr
  have hfd : r.segFd = s₁.segFd := rfl
  have hoff : r.segOffset = s₁.segOffset := rfl
  have hrec : r = { s₁ with
      segLength :=
        if s₁.segLength = 0 ∧ s₁.segFd ≠ segFdNone ∧ ¬ fileSize k s₁.segFd < s₁.segOffset then
          upTo g.pagesize (fileSize k s₁.segFd) - s₁.segOffset
        else s₁.segLength } := rfl
  rw [hfd, hoff]
  by_cases hearly : s₁.segFd = segFdNone ∨ fileSize k s₁.segFd < s₁.segOffset
  · have hkeep : r = s₁ := by
      rw [hrec, if_neg]
      rintro ⟨-, hne, hnot⟩
      exact hearly.elim hne hnot
    rw [if_pos hearly, if_pos hearly, hkeep]
    simp [Glctx.mapped, Glctx.setSeg, show s₁.segStart = mapFailed from hst]
  · rw [if_neg hearly, if_neg hearly]
    obtain ⟨hne, hnot⟩ := not_or.mp hearly
    have hlen : r.segLength = if s₁.segLength = 0 then
        upTo g.pagesize (fileSize k s₁.segFd) - s₁.segOffset else s₁.segLength := by
      rw [hrec]
      simp only [ne_eq, hne, hnot, not_false_eq_true, and_true]
    rw [← hlen]
    rfl

theorem mapShmSegment_effect (k : Kernel) (range : Option Range) (flags : Flags)
    (htype : (g.heap segp).segType = .segtShm) :
    mapShmSegment k g segp = g.mapped segp (mapEffect k g.pagesize segp (g.heap segp) range flags) := by
  simp only [mapShmSegment, mapEffect, htype, Glctx.mapped]
  split <;> rfl

/-- A `map` of an unmapped segment is its effect on the record. -/
theorem segmentMap_effect (k : Kernel) (hrep : RepInv g) (hps : IsPageSize g.pagesize)
    {name : CStr} (hlive : g.Live segp) (hname : (g.heap segp).segName = some name)
    (hstart : (g.heap segp).segStart = mapFailed) (range : Option Range) (flags : Flags) :
    ∃ avail, RepInv { g with segAvail := avail } ∧ segmentMap k g name range flags =
      Glctx.mapped { g with segAvail := avail } segp
        (mapEffect k g.pagesize segp (g.heap segp) range flags) := by
  obtain ⟨avail, hget⟩ := segmentGet_live hrep hlive hname
  have hrep' := segmentGet_repInv hrep name
  rw [hget] at hrep'
  refine ⟨avail, hrep', ?_⟩
  simp only [segmentMap, hget]
  rw [if_neg (not_not.mpr hstart)]
  cases htype : (g.heap segp).segType with
  | segtNone => exact absurd htype hlive.2
  | segtAnon =>
      exact mapAnonSegment_effect (g := { g with segAvail := avail }) k range flags htype hstart
  | segtFile =>
      exact mapFileSegment_effect (g := { g with segAvail := avail }) k hps range flags htype hstart
  | segtShm => exact mapShmSegment_effect (g := { g with segAvail := avail }) k range flags htype

end Effect

/-! ## The record a `map` leaves -/

/-- The range a `map` of a file segment asks for: its own, or the recorded one. -/
def askedRange (s : Segment) (range : Option Range) : Range :=
  range.getD ⟨s.segOffset, s.segLength, 0⟩

/-- The length in effect for a request `r` on a file: the request rounded up; or, when
that is zero and the file is open and reaches up to the offset, what is left of the
file, rounded up. -/
def lengthInEffect (k : Kernel) (pagesize : Word) (fd : Int) (r : Range) : Word :=
  if upTo pagesize r.length = 0 ∧ fd ≠ segFdNone ∧
      ¬ fileSize k fd < downTo pagesize r.offset then
    upTo pagesize (fileSize k fd) - downTo pagesize r.offset
  else upTo pagesize r.length

section Records

variable (k : Kernel) (pagesize : Word) (s : Segment) (range : Option Range) (flags : Flags)

theorem overrideFlags_segFlags :
    (s.overrideFlags flags).segFlags = if flags ≠ 0 then flags else s.segFlags := by
  unfold Segment.overrideFlags
  split <;> rfl

theorem overrideRange_asked : ((s.overrideFlags flags).overrideRange range).segOffset =
      (askedRange s range).offset ∧
    ((s.overrideFlags flags).overrideRange range).segLength = (askedRange s range).length := by
  unfold Segment.overrideFlags
  cases range <;> split <;> exact ⟨rfl, rfl⟩

theorem override_retunes :
    Retunes s ((s.overrideFlags flags).overrideRange range) :=
  (retunes_overrideFlags s flags).trans (retunes_overrideRange _ range)

theorem override_segProt : ((s.overrideFlags flags).overrideRange range).segProt = s.segProt := by
  unfold Segment.overrideFlags
  cases range <;> split <;> rfl

theorem fileRecord_segOffset : (fileRecord k pagesize s range flags).segOffset =
    downTo pagesize (askedRange s range).offset := by
  rw [← (overrideRange_asked s range flags).1]
  rfl

theorem fileRecord_segLength : (fileRecord k pagesize s range flags).segLength =
    lengthInEffect k pagesize s.segFd (askedRange s range) := by
  obtain ⟨hoff, hlen⟩ := overrideRange_asked s range flags
  have hfd := (override_retunes s range flags).fd
  rw [lengthInEffect, ← hoff, ← hlen, ← hfd]
  rfl

theorem fileRecord_segFlags : (fileRecord k pagesize s range flags).segFlags =
    if flags ≠ 0 then flags else s.segFlags := by
  rw [← overrideFlags_segFlags, ← overrideRange_flags (s.overrideFlags flags) range]
  rfl

end Records

/-- Two records that differ at most in what a `map` rewrites. -/
theorem eq_iff_of_retunes {s s' : Segment} (h : Retunes s s')
    (hps : s'.segPagesize = s.segPagesize) (hprot : s'.segProt = s.segProt) :
    s' = s ↔ s'.segFlags = s.segFlags ∧ s'.segOffset = s.segOffset ∧
      s'.segLength = s.segLength := by
  constructor
  · rintro rfl
    exact ⟨rfl, rfl, rfl⟩
  · rintro ⟨hflags, hoff, hlen⟩
    obtain ⟨hname, hstart, hpath, htype, hslot, hfd, hid⟩ := h
    cases s
    cases s'
    simp only at hname hstart hpath htype hslot hfd hid hps hprot hflags hoff hlen
    subst hname hstart hpath htype hslot hfd hid hps hprot hflags hoff hlen
    rfl

/-! ## A failed `map` -/

/-- `s'` is `s`, or `s` with its offset and length rounded to the page size, which the
rounding records. -/
def Intact (pagesize : Word) (s s' : Segment) : Prop := s' = s ∨ s' = s.pageAlign pagesize

/-- The request of a `map` says nothing new: flags and range, if given, are those
recorded once they are rounded. -/
def MapKeeps (k : Kernel) (pagesize : Word) (s : Segment) (range : Option Range)
    (flags : Flags) : Prop :=
  match s.segType with
  | .segtAnon => flags = 0 ∨ flags = s.segFlags
  | .segtFile => (flags = 0 ∨ flags = s.segFlags) ∧
      downTo pagesize (askedRange s range).offset = downTo pagesize s.segOffset ∧
      lengthInEffect k pagesize s.segFd (askedRange s range) = upTo pagesize s.segLength
  | .segtShm | .segtNone => True

/-- A record that is rounded already is intact only as the rounded old one. -/
theorem intact_iff {pagesize : Word} {s s' : Segment} (h : s'.pageAlign pagesize = s') :
    Intact pagesize s s' ↔ s' = s.pageAlign pagesize := by
  constructor
  · rintro (rfl | heq)
    · exact h.symm
    · exact heq
  · exact Or.inr

theorem sameFlags_iff (s : Segment) (flags : Flags) :
    (if flags ≠ 0 then flags else s.segFlags) = s.segFlags ↔ flags = 0 ∨ flags = s.segFlags := by
  by_cases hzero : flags = 0
  · rw [if_neg (not_not.mpr hzero)]
    exact ⟨fun _ => Or.inl hzero, fun _ => rfl⟩
  · rw [if_pos hzero]
    exact ⟨Or.inr, fun h => h.resolve_left hzero⟩

theorem anonRecord_intact_iff {pagesize : Word} (hps : IsPageSize pagesize) (s : Segment)
    (flags : Flags) :
    Intact pagesize s (anonRecord pagesize s flags) ↔ flags = 0 ∨ flags = s.segFlags := by
  have hre : Retunes (s.pageAlign pagesize) (anonRecord pagesize s flags) := by
    have h := retunes_overrideFlags s flags
    exact ⟨h.name, h.start, h.path, h.type, h.slot, h.fd, h.shmid⟩
  have hfields : (anonRecord pagesize s flags).segProt = (s.pageAlign pagesize).segProt ∧
      (anonRecord pagesize s flags).segOffset = (s.pageAlign pagesize).segOffset ∧
      (anonRecord pagesize s flags).segLength = (s.pageAlign pagesize).segLength := by
    unfold anonRecord Segment.overrideFlags
    split <;> exact ⟨rfl, rfl, rfl⟩
  have halign : (anonRecord pagesize s flags).pageAlign pagesize = anonRecord pagesize s flags :=
    pageAlign_pageAlign hps _
  rw [intact_iff halign, eq_iff_of_retunes hre rfl hfields.1, ← sameFlags_iff,
    ← overrideFlags_segFlags]
  exact ⟨fun h => h.1, fun h => ⟨h, hfields.2⟩⟩

theorem divides_lengthInEffect (k : Kernel) {pagesize : Word} (hps : IsPageSize pagesize)
    (fd : Int) (r : Range) : Divides pagesize (lengthInEffect k pagesize fd r) := by
  have hup : ∀ size, Divides pagesize (upTo pagesize size) := fun size =>
    divides_roundUp (s := { Segment.zero with segPagesize := pagesize }) hps size
  unfold lengthInEffect
  split
  · exact hps.divides_sub (hup _)
      (divides_roundDown (s := { Segment.zero with segPagesize := pagesize }) hps _)
  · exact hup _

theorem fileRecord_pageAlign (k : Kernel) {pagesize : Word} (hps : IsPageSize pagesize)
    (s : Segment) (range : Option Range) (flags : Flags) :
    (fileRecord k pagesize s range flags).pageAlign pagesize =
      fileRecord k pagesize s range flags := by
  refine (eq_iff_of_retunes (retunes_pageAlign _ pagesize) rfl rfl).mpr ⟨rfl, ?_, ?_⟩
  · show downTo pagesize (fileRecord k pagesize s range flags).segOffset = _
    rw [fileRecord_segOffset]
    exact downTo_downTo hps _
  · show upTo pagesize (fileRecord k pagesize s range flags).segLength = _
    rw [fileRecord_segLength]
    exact roundUp_of_divides (s := { Segment.zero with segPagesize := pagesize }) hps
      (divides_lengthInEffect k hps _ _)

theorem fileRecord_intact_iff (k : Kernel) {pagesize : Word} (hps : IsPageSize pagesize)
    (s : Segment) (range : Option Range) (flags : Flags) :
    Intact pagesize s (fileRecord k pagesize s range flags) ↔
      (flags = 0 ∨ flags = s.segFlags) ∧
        downTo pagesize (askedRange s range).offset = downTo pagesize s.segOffset ∧
        lengthInEffect k pagesize s.segFd (askedRange s range) = upTo pagesize s.segLength := by
  have hre : Retunes (s.pageAlign pagesize) (fileRecord k pagesize s range flags) := by
    have h := override_retunes s range flags
    exact ⟨h.name, h.start, h.path, h.type, h.slot, h.fd, h.shmid⟩
  rw [intact_iff (fileRecord_pageAlign k hps s range flags),
    eq_iff_of_retunes hre rfl (override_segProt s range flags), fileRecord_segFlags,
    fileRecord_segOffset, fileRecord_segLength, ← sameFlags_iff]
  rfl

/-- A failed attach leaves the record as it was. -/
theorem mapEffect_shm_failed (k : Kernel) (pagesize : Word) (segp : SegPtr) {s : Segment}
    (hstart : s.segStart = mapFailed) (range : Option Range) (flags : Flags)
    (hfail : (mapEffect k pagesize segp s range flags).1.segStart = mapFailed)
    (htype : s.segType = .segtShm) : (mapEffect k pagesize segp s range flags).1 = s := by
  simp only [mapEffect, htype] at hfail ⊢
  rw [hfail, ← hstart, ← htype]

/-- The record a failed `map` leaves is intact exactly when the request says nothing
new. -/
theorem mapEffect_intact_iff (k : Kernel) {pagesize : Word} (hps : IsPageSize pagesize)
    (segp : SegPtr) {s : Segment} (hstart : s.segStart = mapFailed) (range : Option Range)
    (flags : Flags) (hfail : (mapEffect k pagesize segp s range flags).1.segStart = mapFailed) :
    Intact pagesize s (mapEffect k pagesize segp s range flags).1 ↔
      MapKeeps k pagesize s range flags := by
  -- a failed call leaves MAP_FAILED where it was
  have hsame : ∀ (r : Segment) (st : Word), r.segStart = mapFailed → st = mapFailed →
      ({ r with segStart := st } : Segment) = r := by
    rintro r st hr rfl
    rw [← hr]
  cases htype : s.segType with
  | segtNone =>
      simp only [mapEffect, MapKeeps, htype]
      exact ⟨fun _ => trivial, fun _ => Or.inl rfl⟩
  | segtShm =>
      simp only [MapKeeps, htype]
      exact ⟨fun _ => trivial,
        fun _ => Or.inl (mapEffect_shm_failed k pagesize segp hstart range flags hfail htype)⟩
  | segtAnon =>
      simp only [mapEffect, htype] at hfail
      have hrec : (mapEffect k pagesize segp s range flags).1 = anonRecord pagesize s flags := by
        have hst : (anonRecord pagesize s flags).segStart = mapFailed :=
          (retunes_overrideFlags s flags).start.trans hstart
        simp only [mapEffect, htype]
        exact hsame _ _ hst hfail
      simp only [MapKeeps, htype]
      rw [hrec]
      exact anonRecord_intact_iff hps s flags
  | segtFile =>
      have hrec : (mapEffect k pagesize segp s range flags).1 =
          fileRecord k pagesize s range flags := by
        have hst : (fileRecord k pagesize s range flags).segStart = mapFailed :=
          (override_retunes s range flags).start.trans hstart
        simp only [mapEffect, htype] at hfail ⊢
        split
        · rfl
        · next hearly =>
          rw [if_neg hearly] at hfail
          exact hsame _ _ hst hfail
      simp only [MapKeeps, htype]
      rw [hrec]
      exact fileRecord_intact_iff k hps s range flags

/-- What a later `map` without arguments makes of a segment that is intact. -/
theorem mapEffect_of_intact (k : Kernel) {pagesize : Word} (hps : IsPageSize pagesize)
    (segp : SegPtr) {s s' : Segment} (hintact : Intact pagesize s s')
    (hnone : s.segType ≠ .segtNone) (hshm : s.segType = .segtShm → s' = s) :
    mapEffect k pagesize segp s' none 0 = mapEffect k pagesize segp s none 0 := by
  rcases hintact with rfl | rfl
  · rfl
  · have halign := pageAlign_pageAlign hps s
    have hanon : anonRecord pagesize (s.pageAlign pagesize) 0 = anonRecord pagesize s 0 := halign
    have hfile : fileRecord k pagesize (s.pageAlign pagesize) none 0 =
        fileRecord k pagesize s none 0 := congrArg (fitToFile k pagesize) halign
    have hsame : (s.pageAlign pagesize).segType = s.segType := rfl
    cases ht : s.segType with
    | segtNone => exact absurd ht hnone
    | segtAnon => simp only [mapEffect, hsame, ht, hanon]
    | segtFile => simp only [mapEffect, hsame, ht, hfile]
    | segtShm => rw [hshm ht]

/-- A failed `map` leaves the registration as it was: every live segment is intact, and
a later `map` without arguments has the same result, the same effect and the same
calls as if the failed one had not been issued. -/
structure KeepsRegistration (k : Kernel) (g : Glctx) (name : CStr) (range : Option Range)
    (flags : Flags) : Prop where
  intact : ∀ q, g.Live q → (segmentMap k g name range flags).2.Live q ∧
    Intact g.pagesize (g.heap q) ((segmentMap k g name range flags).2.heap q)
  later : ∀ k', (segmentMap k' (segmentMap k g name range flags).2 name none 0).1 =
      (segmentMap k' g name none 0).1 ∧
    (∀ q, g.Live q → (segmentMap k' (segmentMap k g name range flags).2 name none 0).2.heap q =
      (segmentMap k' g name none 0).2.heap q) ∧
    ∃ calls, (segmentMap k' g name none 0).2.log = g.log ++ calls ∧
      (segmentMap k' (segmentMap k g name range flags).2 name none 0).2.log =
        (segmentMap k g name range flags).2.log ++ calls

section Failed

variable {g : Glctx} {name : CStr}

/-- A `map` of a name that no live segment has. -/
theorem segmentMap_none (k : Kernel) (range : Option Range) (flags : Flags) {g₁ : Glctx}
    (hget : segmentGet g name = (none, g₁)) : segmentMap k g name range flags = (.segErr, g₁) := by
  simp only [segmentMap, hget]

/-- A lookup that finds nothing leaves the live segments as they are, and finds nothing
again. -/
theorem segmentGet_none_again (h : RepInv g) {g₁ : Glctx} (hget : segmentGet g name = (none, g₁)) :
    g₁.log = g.log ∧ (∀ q, g.Live q → g₁.Live q ∧ g₁.heap q = g.heap q) ∧
      (segmentGet g₁ name).1 = none := by
  have hlog := segmentGet_log g name
  rw [hget] at hlog
  refine ⟨hlog, ?_, ?_⟩
  · rcases segmentGet_cases h name with ⟨p, avail, heq, -⟩ | ⟨-, q, -, heq, -⟩ |
        ⟨-, -, -, ⟨hlt, heq⟩ | ⟨-, heq⟩⟩
    · rw [heq] at hget
      cases hget
    · rw [heq] at hget
      cases hget
      exact fun q hq => ⟨hq, rfl⟩
    · rw [heq] at hget
      cases hget
      exact fun q hq => ⟨(h.live_newSlot q).mpr hq, h.newSlot_heap_of_mem _ hq.1⟩
    · rw [heq] at hget
      cases hget
      exact fun q hq => ⟨hq, rfl⟩
  · have h₁ : RepInv g₁ := by
      have hrep := segmentGet_repInv h name
      rwa [hget] at hrep
    have hfree := (segmentGet_none h hget).1
    rcases hget₁ : segmentGet g₁ name with ⟨_ | p, g₂⟩
    · rfl
    · obtain ⟨hlive, hname, -⟩ := segmentGet_some h₁ hget₁
      exact absurd hname (hfree p hlive)

/-- The record of a live segment is written over by one with its name, type and slot. -/
theorem Intact.sameId {pagesize : Word} {s s' : Segment} (h : Intact pagesize s s') :
    s'.segName = s.segName ∧ s'.segType = s.segType ∧ s'.segSlot = s.segSlot := by
  rcases h with rfl | rfl <;> exact ⟨rfl, rfl, rfl⟩

/-- A failed `map` of a segment that is there. -/
theorem keepsRegistration_found_iff (hrep : RepInv g) (hps : IsPageSize g.pagesize)
    {segp : SegPtr} (hlive : g.Live segp) (hname : (g.heap segp).segName = some name)
    (hstart : (g.heap segp).segStart = mapFailed) {k : Kernel} {range : Option Range}
    {flags : Flags}
    (hfail : (mapEffect k g.pagesize segp (g.heap segp) range flags).1.segStart = mapFailed) :
    KeepsRegistration k g name range flags ↔ MapKeeps k g.pagesize (g.heap segp) range flags := by
  obtain ⟨avail, hrepa, hmap⟩ := segmentMap_effect k hrep hps hlive hname hstart range flags
  rw [← mapEffect_intact_iff k hps segp hstart range flags hfail]
  have hshm := mapEffect_shm_failed k g.pagesize segp hstart range flags hfail
  generalize mapEffect k g.pagesize segp (g.heap segp) range flags = effect at hmap hfail hshm
  set g₁ := (segmentMap k g name range flags).2 with hg₁
  have hheap : g₁.heap = Function.update g.heap segp effect.1 := by rw [hg₁, hmap]; rfl
  have hent : g₁.entries = g.entries := by rw [hg₁, hmap]; rfl
  have hself : g₁.heap segp = effect.1 := by rw [hheap, Function.update_self]
  have hother : ∀ q, q ≠ segp → g₁.heap q = g.heap q := by
    intro q hne
    rw [hheap, Function.update_of_ne hne]
  constructor
  · intro hkeeps
    have hintact := (hkeeps.intact segp hlive).2
    rwa [← hg₁, hself] at hintact
  · intro hintact
    obtain ⟨hsname, hstype, hsslot⟩ := hintact.sameId
    have hlive₁ : ∀ q, g.Live q → g₁.Live q := by
      intro q hq
      refine ⟨by rw [hent]; exact hq.1, ?_⟩
      by_cases hne : q = segp
      · rw [hne, hself, hstype]
        exact hlive.2
      · rw [hother q hne]
        exact hq.2
    refine ⟨fun q hq => ⟨hlive₁ q hq, ?_⟩, fun k' => ?_⟩
    · by_cases hne : q = segp
      · rw [← hg₁, hne, hself]
        exact hintact
      · rw [← hg₁, hother q hne]
        exact Or.inl rfl
    · -- the second `map` finds the segment, with a record it makes the same of
      have hrep₁ : RepInv g₁ := by
        rw [hg₁, hmap]
        exact (hrepa.edit (s := effect.1) hlive hsname hstype hsslot).relog _
      obtain ⟨avail₁, -, hmap₁⟩ := segmentMap_effect k' hrep₁
        (by rw [hg₁, hmap]; exact hps) (hlive₁ segp hlive) (by rw [hself, hsname]; exact hname)
        (by rw [hself]; exact hfail) none 0
      obtain ⟨avail₂, -, hmap₂⟩ := segmentMap_effect k' hrep hps hlive hname hstart none 0
      have hpage : g₁.pagesize = g.pagesize := by rw [hg₁, hmap]; rfl
      rw [hself, hpage, mapEffect_of_intact k' hps segp hintact hlive.2 hshm] at hmap₁
      rw [← hg₁, hmap₁, hmap₂]
      refine ⟨rfl, ?_, _, rfl, rfl⟩
      intro q _
      by_cases hne : q = segp
      · subst hne
        simp [Glctx.mapped]
      · simp [Glctx.mapped, hne, hother q hne]

end Failed

/-- The concrete kernel, out of memory. -/
def failingKernel : Kernel := { sampleKernel with mmap := fun _ _ _ _ _ _ => mapFailed }

/-- `anon a 4k` and `file f` on the concrete machine. -/
def sampleRegistered : Glctx :=
  (Op.register sampleKernel .segtFile ['f'] ⟨0, 0, 0⟩ 0).exec (sampleAnon.exec sampleTable)

theorem sampleRegistered_reachable : (segSpec anyOp).Reachable sampleRegistered := by
  refine .step (.step (sampleTable_reachable anyOp) ⟨sampleAnon, ?_, trivial, rfl⟩)
    ⟨.register sampleKernel .segtFile ['f'] ⟨0, 0, 0⟩ 0, ?_, trivial, rfl⟩ <;>
    exact ⟨by decide, by decide⟩

end Memtoy
