import Memtoy.Segment.Refinement
import Memtoy.Segment.Remap

/-!
# Segment.Record — one segment's record under the calls of the API

What a call does to a live segment depends on that segment's record alone:
`Op.effectOn` is the function, `Op.exec_heap` says that the table follows it. A
property of one segment over a whole run is then a property of its record under a
sequence of `effectOn`s, whatever the other segments do in between.
-/

namespace Memtoy

open CString MachineWord

/-- The record of a live segment after a call. -/
def Op.effectOn (op : Op) (pagesize : Word) (segp : SegPtr) (s : Segment) : Segment :=
  match op with
  | .map k name range flags =>
      if s.segName = some name ∧ s.segStart = mapFailed then
        (mapEffect k pagesize segp s range flags).1
      else s
  | .unmap name =>
      if s.segName = some name ∧ s.isMaps = false then { s with segStart := mapFailed } else s
  | .remove name =>
      if s.segName = some name ∧ s.isMaps = false then { Segment.zero with segSlot := s.segSlot }
      else s
  | .mprotect k name prot =>
      if s.segName = some name ∧ k.mprotect s.segStart s.segLength prot = true then
        { s with segProt := prot }
      else s
  | _ => s

/-- A `map` leaves the name and the type. -/
theorem mapEffect_identity (k : Kernel) (pagesize : Word) (segp : SegPtr) (s : Segment)
    (range : Option Range) (flags : Flags) :
    (mapEffect k pagesize segp s range flags).1.segName = s.segName ∧
      (mapEffect k pagesize segp s range flags).1.segType = s.segType := by
  have hanon := retunes_overrideFlags s flags
  have hfile := override_retunes s range flags
  cases htype : s.segType with
  | segtNone =>
      simp only [mapEffect, htype]
      exact ⟨trivial, trivial⟩
  | segtAnon =>
      simp only [mapEffect, htype]
      exact ⟨hanon.name, hanon.type.trans htype⟩
  | segtFile =>
      simp only [mapEffect, htype]
      split <;> exact ⟨hfile.name, hfile.type.trans htype⟩
  | segtShm =>
      simp only [mapEffect, htype]
      exact ⟨trivial, trivial⟩

/-- A call that does not remove the segment leaves its name and its type. -/
theorem Op.effectOn_identity (op : Op) (pagesize : Word) (segp : SegPtr) (s : Segment)
    (hlive : (op.effectOn pagesize segp s).segType ≠ .segtNone) :
    (op.effectOn pagesize segp s).segName = s.segName ∧
      (op.effectOn pagesize segp s).segType = s.segType := by
  cases op with
  | map k name range flags =>
      simp only [Op.effectOn]
      split
      · exact mapEffect_identity k pagesize segp s range flags
      · exact ⟨rfl, rfl⟩
  | remove name =>
      simp only [Op.effectOn] at hlive ⊢
      split
      · next hrem =>
        rw [if_pos hrem] at hlive
        exact absurd rfl hlive
      · exact ⟨rfl, rfl⟩
  | unmap name =>
      simp only [Op.effectOn]
      split <;> exact ⟨rfl, rfl⟩
  | mprotect k name prot =>
      simp only [Op.effectOn]
      split <;> exact ⟨rfl, rfl⟩
  | _ => exact ⟨rfl, rfl⟩

/-- `segp` is an entry of `g'` with the record `s`. -/
def HasRecord (g' : Glctx) (segp : SegPtr) (s : Segment) : Prop :=
  segp ∈ g'.entries ∧ g'.heap segp = s

section Calls

variable {g : Glctx} {segp : SegPtr}

/-- A lookup leaves the live records alone. -/
theorem segmentGet_hasRecord (h : RepInv g) (name : CStr) (hlive : g.Live segp) :
    HasRecord (segmentGet g name).2 segp (g.heap segp) := by
  have hmem : (segp, g.heap segp) ∈ (segmentGet g name).2.liveSegs := by
    rw [segmentGet_liveSegs h name]
    exact Glctx.mem_liveSegs.mpr ⟨hlive, rfl⟩
  obtain ⟨hl, heq⟩ := Glctx.mem_liveSegs.mp hmem
  exact ⟨hl.1, heq⟩

/-- The result of a lookup is `segp` exactly for its name. -/
theorem segmentGet_eq_iff (h : RepInv g) {name : CStr} {p : SegPtr} {g₁ : Glctx}
    (hget : segmentGet g name = (some p, g₁)) (hlive : g.Live segp) :
    p = segp ↔ (g.heap segp).segName = some name := by
  obtain ⟨hp, hn, -⟩ := segmentGet_some h hget
  constructor
  · rintro rfl
    exact hn
  · intro hname
    exact h.unique p segp hp hlive (hn.trans hname.symm)

theorem segmentGet_none_ne (h : RepInv g) {name : CStr} {g₁ : Glctx}
    (hget : segmentGet g name = (none, g₁)) (hlive : g.Live segp) :
    (g.heap segp).segName ≠ some name := by
  intro hname
  obtain ⟨avail, hfound⟩ := segmentGet_live h hlive hname
  rw [hfound] at hget
  cases hget

/-- A call that looks a segment up and writes at most its record: the record of the
segment with the name, and the others. -/
theorem hasRecord_of_lookup (h : RepInv g) (hlive : g.Live segp) (name : CStr) {g' : Glctx}
    {s : Segment}
    (hfree : (g.heap segp).segName ≠ some name → s = g.heap segp)
    (hnone : ∀ g₁, segmentGet g name = (none, g₁) → g' = g₁)
    (hsome : ∀ p avail, segmentGet g name = (some p, { g with segAvail := avail }) →
      g'.entries = g.entries ∧ (∀ q, q ≠ p → g'.heap q = g.heap q) ∧
        (p = segp → g'.heap segp = s)) : HasRecord g' segp s := by
  rcases hget : segmentGet g name with ⟨_ | p, g₁⟩
  · have hkeep := segmentGet_hasRecord h name hlive
    rw [hget] at hkeep
    rw [hnone g₁ hget, hfree (segmentGet_none_ne h hget hlive)]
    exact hkeep
  · have hiff := segmentGet_eq_iff h hget hlive
    obtain ⟨-, -, avail, rfl⟩ := segmentGet_some h hget
    obtain ⟨hent, hother, hself⟩ := hsome p avail hget
    refine ⟨by rw [hent]; exact hlive.1, ?_⟩
    by_cases hpq : p = segp
    · exact hself hpq
    · rw [hother segp (fun hc => hpq hc.symm), hfree (fun hc => hpq (hiff.mpr hc))]

theorem unmapSegment_heap_of_ne (g : Glctx) {p q : SegPtr} (hne : q ≠ p) :
    (unmapSegment g p).heap q = g.heap q := by
  by_cases hskip : (g.heap p).segStart = mapFailed ∨ (g.heap p).isMaps = true
  · rw [unmapSegment_of_not_mapped hskip]
  · obtain ⟨hst, hm⟩ := not_or.mp hskip
    rw [unmapSegment_eq hst (by simpa using hm)]
    simp [hne]

theorem segmentUnmap_hasRecord (h : RepInv g) (hlive : g.Live segp) (name : CStr) :
    HasRecord (segmentUnmap g name).2 segp ((Op.unmap name).effectOn g.pagesize segp (g.heap segp)) := by
  refine hasRecord_of_lookup h hlive name ?_ ?_ ?_
  · intro hne
    exact if_neg (fun hc => hne hc.1)
  · intro g₁ hget
    simp only [segmentUnmap, hget]
  · intro p avail hget
    have hiff := segmentGet_eq_iff h hget hlive
    simp only [segmentUnmap, hget, Op.effectOn]
    by_cases hm : (g.heap p).isMaps = true
    · rw [if_pos hm]
      refine ⟨rfl, fun _ _ => rfl, ?_⟩
      rintro rfl
      rw [if_neg (fun hc => by rw [hm] at hc; exact absurd hc.2 (by simp))]
    · have hm' : (g.heap p).isMaps = false := by simpa using hm
      rw [if_neg hm]
      refine ⟨unmapSegment_entries _ p, fun q hne => unmapSegment_heap_of_ne _ hne, ?_⟩
      rintro rfl
      rw [if_pos ⟨hiff.mp rfl, hm'⟩]
      exact unmapSegment_heap (g := { g with segAvail := avail }) hm'

theorem segmentRemove_hasRecord (h : RepInv g) (hlive : g.Live segp) (name : CStr) :
    HasRecord (segmentRemove g name).2 segp
      ((Op.remove name).effectOn g.pagesize segp (g.heap segp)) := by
  refine hasRecord_of_lookup h hlive name ?_ ?_ ?_
  · intro hne
    exact if_neg (fun hc => hne hc.1)
  · intro g₁ hget
    simp only [segmentRemove, hget]
  · intro p avail hget
    have hiff := segmentGet_eq_iff h hget hlive
    simp only [segmentRemove, hget, Op.effectOn]
    by_cases hm : (g.heap p).isMaps = true
    · rw [if_pos hm]
      refine ⟨rfl, fun _ _ => rfl, ?_⟩
      rintro rfl
      rw [if_neg (fun hc => by rw [hm] at hc; exact absurd hc.2 (by simp))]
    · have hm' : (g.heap p).isMaps = false := by simpa using hm
      have hheap := freeSegSlot_unmapSegment_heap (g := { g with segAvail := avail }) hm'
      rw [if_neg hm]
      refine ⟨?_, ?_, ?_⟩
      · show (freeSegSlot (unmapSegment { g with segAvail := avail } p) p).entries = g.entries
        rw [freeSegSlot_entries, unmapSegment_entries]
        rfl
      · intro q hne
        show (freeSegSlot (unmapSegment { g with segAvail := avail } p) p).heap q = g.heap q
        rw [hheap, Function.update_of_ne hne]
      · rintro rfl
        rw [if_pos ⟨hiff.mp rfl, hm'⟩]
        show (freeSegSlot (unmapSegment { g with segAvail := avail } p) p).heap p = _
        rw [hheap, Function.update_self]

theorem segmentMprotect_hasRecord (k : Kernel) (h : RepInv g) (hlive : g.Live segp) (name : CStr)
    (prot : Flags) : HasRecord (segmentMprotect k g name prot).2 segp
      ((Op.mprotect k name prot).effectOn g.pagesize segp (g.heap segp)) := by
  refine hasRecord_of_lookup h hlive name ?_ ?_ ?_
  · intro hne
    exact if_neg (fun hc => hne hc.1)
  · intro g₁ hget
    simp only [segmentMprotect, hget]
  · intro p avail hget
    have hiff := segmentGet_eq_iff h hget hlive
    simp only [segmentMprotect, hget, Op.effectOn]
    by_cases hok : k.mprotect (g.heap p).segStart (g.heap p).segLength prot = true
    · rw [if_pos hok]
      refine ⟨rfl, fun q hne => Function.update_of_ne hne _ _, ?_⟩
      rintro rfl
      rw [if_pos ⟨hiff.mp rfl, hok⟩]
      exact Function.update_self ..
    · rw [if_neg hok]
      refine ⟨rfl, fun _ _ => rfl, ?_⟩
      rintro rfl
      rw [if_neg (fun hc => hok hc.2)]
      rfl

theorem segmentMap_hasRecord (k : Kernel) (h : RepInv g) (hps : IsPageSize g.pagesize)
    (hlive : g.Live segp) (name : CStr) (range : Option Range) (flags : Flags) :
    HasRecord (segmentMap k g name range flags).2 segp
      ((Op.map k name range flags).effectOn g.pagesize segp (g.heap segp)) := by
  refine hasRecord_of_lookup h hlive name ?_ ?_ ?_
  · intro hne
    exact if_neg (fun hc => hne hc.1)
  · intro g₁ hget
    simp only [segmentMap, hget]
  · intro p avail hget
    have hiff := segmentGet_eq_iff h hget hlive
    obtain ⟨hp, hn, -⟩ := segmentGet_some h hget
    simp only [Op.effectOn]
    by_cases hst : (g.heap p).segStart = mapFailed
    · obtain ⟨avail', -, hmap⟩ := segmentMap_effect k h hps hp hn hst range flags
      rw [hmap]
      refine ⟨rfl, fun q hne => Function.update_of_ne hne _ _, ?_⟩
      rintro rfl
      rw [if_pos ⟨hiff.mp rfl, hst⟩]
      exact Function.update_self ..
    · have hsame : segmentMap k g name range flags = (.segOk, { g with segAvail := avail }) := by
        simp only [segmentMap, hget]
        rw [if_pos hst]
      rw [hsame]
      refine ⟨rfl, fun _ _ => rfl, ?_⟩
      rintro rfl
      rw [if_neg (fun hc => hst hc.2)]

theorem segmentRegister_hasRecord (k : Kernel) (h : RepInv g) (hlive : g.Live segp)
    {type : SegType} (name : CStr) (range : Range) {flags : Flags} (htype : type ≠ .segtNone)
    (hmaps : flags &&& segfMaps = 0) :
    HasRecord (segmentRegister k g type name range flags).2 segp (g.heap segp) := by
  have hmem : (segp, g.heap segp) ∈ g.liveSegs := Glctx.mem_liveSegs.mpr ⟨hlive, rfl⟩
  have hmem' : (segp, g.heap segp) ∈ (segmentRegister k g type name range flags).2.liveSegs := by
    rcases segmentRegister_live k h name range htype hmaps with
      ⟨-, hsame, -⟩ | ⟨-, -, -, -, p, s, -, -, -, hperm, -⟩
    · rw [hsame]
      exact hmem
    · exact hperm.mem_iff.mpr (List.mem_cons_of_mem _ hmem)
  obtain ⟨hl, heq⟩ := Glctx.mem_liveSegs.mp hmem'
  exact ⟨hl.1, heq⟩

/-- The calls that write no record, with the name they look up. -/
def Op.reads : Op → Option CStr
  | .get name | .touch _ _ name _ _ | .mbind _ name _ _ _ _ | .location _ _ _ name _
  | .lockUnlock _ name _ _ _ => some name
  | _ => none

/-- The lookup is all they do to the table. -/
theorem Op.exec_reads {op : Op} {name : CStr} (hop : op.reads = some name) (g : Glctx) :
    (op.exec g).entries = (segmentGet g name).2.entries ∧
      (op.exec g).heap = (segmentGet g name).2.heap := by
  cases op with
  | get =>
      cases hop
      exact ⟨rfl, rfl⟩
  | touch ev fuel _ range rw =>
      cases hop
      simp only [Op.exec, segmentTouch]
      rcases segmentGet g name with ⟨_ | p, g₁⟩
      · exact ⟨rfl, rfl⟩
      · simp only
        split
        · exact ⟨rfl, rfl⟩
        · split
          · exact ⟨rfl, rfl⟩
          · split
            · exact ⟨rfl, rfl⟩
            · split <;> exact ⟨rfl, rfl⟩
  | mbind k _ range policy nodemask flags =>
      cases hop
      simp only [Op.exec, segmentMbind]
      rcases segmentGet g name with ⟨_ | p, g₁⟩
      · exact ⟨rfl, rfl⟩
      · simp only
        split
        · exact ⟨rfl, rfl⟩
        · split
          · exact ⟨rfl, rfl⟩
          · split <;> exact ⟨rfl, rfl⟩
  | location k sig fuel _ range =>
      cases hop
      simp only [Op.exec, segmentLocation]
      rcases segmentGet g name with ⟨_ | p, g₁⟩
      · exact ⟨rfl, rfl⟩
      · simp only
        split
        · exact ⟨rfl, rfl⟩
        · split
          · exact ⟨rfl, rfl⟩
          · split
            · exact ⟨rfl, rfl⟩
            · split
              · exact ⟨rfl, rfl⟩
              · split <;> exact ⟨rfl, rfl⟩
  | lockUnlock k _ range lock shm =>
      cases hop
      simp only [Op.exec, segmentLockUnlock]
      rcases segmentGet g name with ⟨_ | p, g₁⟩
      · exact ⟨rfl, rfl⟩
      · simp only
        split
        · exact ⟨rfl, rfl⟩
        · split
          · split
            · exact ⟨rfl, rfl⟩
            · split <;> exact ⟨rfl, rfl⟩
          · split
            · exact ⟨rfl, rfl⟩
            · split <;> exact ⟨rfl, rfl⟩
  | register | remove | unmap | map | mprotect => cases hop

theorem reads_hasRecord (h : RepInv g) (hlive : g.Live segp) {op : Op} {name : CStr}
    (hop : op.reads = some name) : HasRecord (op.exec g) segp (g.heap segp) := by
  obtain ⟨hent, hheap⟩ := op.exec_reads hop g
  obtain ⟨hmem, heq⟩ := segmentGet_hasRecord h name hlive
  exact ⟨by rw [hent]; exact hmem, by rw [hheap]; exact heq⟩

/-- The record of a live segment after any call. -/
theorem Op.exec_heap (op : Op) (hok : op.Ok) (h : RepInv g) (hps : IsPageSize g.pagesize)
    (hlive : g.Live segp) :
    HasRecord (op.exec g) segp (op.effectOn g.pagesize segp (g.heap segp)) := by
  cases op with
  | register k type name range flags =>
      exact segmentRegister_hasRecord k h hlive name range hok.1 hok.2
  | remove name => exact segmentRemove_hasRecord h hlive name
  | unmap name => exact segmentUnmap_hasRecord h hlive name
  | map k name range flags => exact segmentMap_hasRecord k h hps hlive name range flags
  | mprotect k name prot => exact segmentMprotect_hasRecord k h hlive name prot
  | get | touch | mbind | location | lockUnlock => exact reads_hasRecord h hlive rfl

end Calls

/-! ## Registration -/

/-- What `open_file` adds to the record it was given. -/
theorem openFile_ok (k : Kernel) {g : Glctx} {segp : SegPtr} {s : Segment}
    (hok : (openFile k (g.setSeg segp s) segp).1 = .segOk) :
    (openFile k (g.setSeg segp s) segp).2.entries = g.entries ∧
      ∃ prot fd, (openFile k (g.setSeg segp s) segp).2.heap =
        Function.update g.heap segp { s with segProt := prot, segFd := fd } := by
  revert hok
  simp only [openFile, Glctx.setSeg_heap, Function.update_self]
  split
  · intro hc
    cases hc
  · split
    · intro hc
      cases hc
    · next mode prot _ =>
      split
      · intro hc
        cases hc
      · intro _
        refine ⟨rfl, prot, k.openFile (s.segPath.getD []) mode, ?_⟩
        simp [Glctx.emit, Glctx.setSeg]

/-- What `get_shm_segment` makes of the record it was given. -/
theorem getShmSegment_ok (k : Kernel) {g : Glctx} {segp : SegPtr} {s : Segment}
    (hok : (getShmSegment k (g.setSeg segp s) segp).1 = .segOk) :
    (getShmSegment k (g.setSeg segp s) segp).2.entries = g.entries ∧
      ∃ pagesize id, (getShmSegment k (g.setSeg segp s) segp).2.heap =
        Function.update g.heap segp { s.pageAlign pagesize with segShmid := id } := by
  revert hok
  simp only [getShmSegment, Glctx.setSeg_heap, Function.update_self]
  generalize (if (shmR ||| shmW ||| (s.segFlags &&& shmHugetlb)) &&& shmHugetlb ≠ 0 then
    (g.setSeg segp s).hugePagesize else (g.setSeg segp s).pagesize) = pagesize
  split
  · intro hc
    cases hc
  · intro _
    refine ⟨rfl, pagesize, k.shmget (s.pageAlign pagesize).segLength
      (shmR ||| shmW ||| (s.segFlags &&& shmHugetlb)), ?_⟩
    simp [Glctx.emit, Glctx.setSeg]

/-- What a registration writes of its arguments. -/
structure Registers (type : SegType) (name : CStr) (range : Range) (flags : Flags)
    (s : Segment) : Prop where
  type_eq : s.segType = type
  name_eq : s.segName = some (basename name)
  start_eq : s.segStart = mapFailed
  flags_eq : s.segFlags = flags
  range_eq : type ≠ .segtShm → s.segOffset = range.offset ∧ s.segLength = range.length

theorem registers_newRecord (slot : Segment) (type : SegType) (name : CStr) (range : Range)
    (flags : Flags) :
    Registers type name range flags (newRecord slot type (basenameEdit name) range flags) :=
  ⟨rfl, congrArg some (basename_basenameEdit name), rfl, rfl, fun _ => ⟨rfl, rfl⟩⟩

/-- A registration that succeeds makes a segment out of an unused slot. -/
theorem segmentRegister_new (k : Kernel) {g : Glctx} (h : RepInv g) {type : SegType}
    (name : CStr) (range : Range) {flags : Flags} (htype : type ≠ .segtNone)
    (hmaps : flags &&& segfMaps = 0)
    (hok : (segmentRegister k g type name range flags).1 = .segOk) :
    ∃ segp s, ¬ g.Live segp ∧ HasRecord (segmentRegister k g type name range flags).2 segp s ∧
      Registers type name range flags s := by
  rcases hget : segmentGet g (basename name) with ⟨_ | p, g₁⟩
  · have h₁ := segmentGet_repInv h (basename name)
    rw [hget] at h₁
    obtain ⟨-, ⟨q, hav, hun⟩ | ⟨rfl, hav, hfull, hall⟩⟩ := segmentGet_none h hget
    · have hnew : ¬ g.Live q := by
        intro hq
        obtain ⟨-, heq⟩ := segmentGet_hasRecord h (basename name) hq
        rw [hget] at heq
        exact hq.2 (by rw [← heq]; exact hun.2)
      have hreg := registers_newRecord (g₁.heap q) type name range flags
      revert hok
      simp only [segmentRegister, hget, getSegSlot_cached hav]
      rw [if_neg (not_not.mpr hmaps)]
      set s := newRecord (g₁.heap q) type (basenameEdit name) range flags
      cases type with
      | segtNone => exact absurd rfl htype
      | segtAnon =>
          intro _
          exact ⟨q, s, hnew, ⟨hun.1, Function.update_self ..⟩, hreg⟩
      | segtFile =>
          intro hok
          obtain ⟨hent, prot, fd, hheap⟩ := openFile_ok k hok
          refine ⟨q, { s with segPath := some (basenameEdit name), segProt := prot, segFd := fd },
            hnew, ⟨by rw [hent]; exact hun.1, ?_⟩, ?_⟩
          · rw [hheap, Function.update_self]
          · exact ⟨hreg.type_eq, hreg.name_eq, hreg.start_eq, hreg.flags_eq, hreg.range_eq⟩
      | segtShm =>
          intro hok
          obtain ⟨hent, pagesize, id, hheap⟩ := getShmSegment_ok k hok
          refine ⟨q, { s.pageAlign pagesize with segShmid := id }, hnew,
            ⟨by rw [hent]; exact hun.1, ?_⟩, ?_⟩
          · rw [hheap, Function.update_self]
          · exact ⟨hreg.type_eq, hreg.name_eq, hreg.start_eq, hreg.flags_eq, fun hne => absurd rfl hne⟩
    · simp only [segmentRegister, hget, getSegSlot_full h hav hfull hall] at hok
      cases hok
  · simp only [segmentRegister, hget] at hok
    rw [if_neg (not_not.mpr hmaps)] at hok
    cases hok

end Memtoy
