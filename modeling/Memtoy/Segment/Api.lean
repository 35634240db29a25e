import Memtoy.Segment.Steps

/-!
# Segment.Api — the segment layer as a transition spec

The calls of the segment API with their arguments and the kernel's answers are
the labels of a spec whose initial states are what `segment_init` can leave.
Each call is decomposed into primitive steps (`Op.star`), so a property kept by
`Prim` holds of every reachable table (`reachable_inv`).
-/

namespace Memtoy

open CString Relation

/-! ## Lookups -/

/-- The three ways `segment_get` can end on a table in shape. -/
theorem segmentGet_cases {g : Glctx} (h : RepInv g) (name : CStr) :
    (∃ p avail, segmentGet g name = (some p, { g with segAvail := avail }) ∧ g.Live p ∧
      (g.heap p).segName = some name ∧ AvailStep g.heap g.entries g.segAvail avail) ∨
    (g.NameFree name ∧ ∃ q, g.Unused q ∧
      segmentGet g name = (none, { g with segAvail := some q }) ∧
      AvailStep g.heap g.entries g.segAvail (some q)) ∨
    (g.NameFree name ∧ g.segAvail = none ∧ (∀ p ∈ g.entries, g.Live p) ∧
      (g.entries.length < maxSegments ∧ segmentGet g name =
          (none, { (newSlot g g.entries.length).2 with segAvail := some g.brk }) ∨
        g.entries.length = maxSegments ∧ segmentGet g name = (none, g))) := by
  have hspec := scanName_spec g.heap name
    (List.replicate (maxSegments - g.entries.length) none) g.entries g.segAvail 0
  rw [← h.shape_cons, Nat.zero_add] at hspec
  rcases hspec with ⟨p, avail, hscan, hmem, htype, hname, hstep⟩ |
      ⟨avail, hscan, hno, hstep, hall⟩
  · -- the scan stops at a used entry with the name
    left
    refine ⟨p, avail, ?_, ⟨hmem, htype⟩, hname, hstep⟩
    simp only [segmentGet, hscan]
  · right
    have hfree : g.NameFree name := fun p hp => hno p hp.1 hp.2
    rcases avail with _ | q
    · -- nothing cached: every entry is live
      right
      have hav : g.segAvail = none := by
        rcases hstep with hstep | ⟨hnone, -⟩
        · exact hstep.symm
        · exact hnone
      refine ⟨hfree, hav, fun p hp => ⟨hp, hall rfl p hp⟩, ?_⟩
      have hg : ({ g with segAvail := none } : Glctx) = g := by rw [← hav]
      by_cases hlt : g.entries.length < maxSegments
      · left
        refine ⟨hlt, ?_⟩
        simp only [segmentGet, hscan, hg]
        rw [if_pos ⟨trivial, hlt⟩]
        rfl
      · right
        have hb := h.bound
        refine ⟨by omega, ?_⟩
        simp only [segmentGet, hscan, hg]
        rw [if_neg (fun hc => hlt hc.2)]
    · -- a slot is in the cache, from before or from this scan
      left
      have hq : g.Unused q := by
        rcases hstep with hstep | ⟨-, q', hq', htype, heq⟩
        · exact h.avail q hstep.symm
        · cases heq
          exact ⟨hq', htype⟩
      refine ⟨hfree, q, hq, ?_, hstep⟩
      simp only [segmentGet, hscan]
      rw [if_neg (by simp)]

/-- Caching an unused slot is no step or one primitive step. -/
theorem star_of_availStep {g : Glctx} {avail : Option SegPtr}
    (h : AvailStep g.heap g.entries g.segAvail avail) :
    ReflTransGen Prim g { g with segAvail := avail } := by
  rcases h with rfl | ⟨hnone, q, hq, htype, rfl⟩
  · exact .refl
  · exact .single (.cache hnone ⟨hq, htype⟩)

theorem segmentGet_star {g : Glctx} (h : RepInv g) (name : CStr) :
    ReflTransGen Prim g (segmentGet g name).2 := by
  rcases segmentGet_cases h name with ⟨p, avail, heq, -, -, hstep⟩ | ⟨-, q, -, heq, hstep⟩ |
      ⟨-, hav, -, ⟨hlt, heq⟩ | ⟨-, heq⟩⟩
  · rw [heq]
    exact star_of_availStep hstep
  · rw [heq]
    exact star_of_availStep hstep
  · rw [heq]
    refine ReflTransGen.tail (.single (.alloc hlt)) ?_
    refine @Prim.cache (newSlot g g.entries.length).2 g.brk ?_ ?_
    · exact hav
    · refine ⟨?_, ?_⟩
      · rw [h.entries_newSlot]
        exact List.mem_append_right _ (List.mem_singleton_self _)
      · simp [newSlot, Segment.zero]
  · rw [heq]

theorem segmentGet_log (g : Glctx) (name : CStr) : (segmentGet g name).2.log = g.log := by
  simp only [segmentGet]
  split
  · rfl
  · split <;> rfl

/-- A lookup that finds a segment leaves everything but `seg_avail` alone. -/
theorem segmentGet_some {g g' : Glctx} (h : RepInv g) {name : CStr} {p : SegPtr}
    (heq : segmentGet g name = (some p, g')) :
    g.Live p ∧ (g.heap p).segName = some name ∧ ∃ avail, g' = { g with segAvail := avail } := by
  rcases segmentGet_cases h name with ⟨q, avail, hget, hlive, hname, -⟩ | ⟨-, q, -, hget, -⟩ |
      ⟨-, -, -, ⟨-, hget⟩ | ⟨-, hget⟩⟩
  · rw [hget] at heq
    cases heq
    exact ⟨hlive, hname, avail, rfl⟩
  · rw [hget] at heq
    cases heq
  · rw [hget] at heq
    cases heq
  · rw [hget] at heq
    cases heq

/-- The lookup of a live segment finds it. -/
theorem segmentGet_live {g : Glctx} (h : RepInv g) {segp : SegPtr} {name : CStr}
    (hlive : g.Live segp) (hname : (g.heap segp).segName = some name) :
    ∃ avail, segmentGet g name = (some segp, { g with segAvail := avail }) := by
  rcases segmentGet_cases h name with ⟨p, avail, hget, hp, hpname, -⟩ | ⟨hfree, -⟩ | ⟨hfree, -⟩
  · rw [h.unique p segp hp hlive (hpname.trans hname.symm)] at hget
    exact ⟨avail, hget⟩
  · exact absurd hname (hfree segp hlive)
  · exact absurd hname (hfree segp hlive)

theorem RepInv.uncache {g : Glctx} (h : RepInv g) : RepInv { g with segAvail := none } := by
  refine ⟨h.shape, h.bound, h.slot, h.fresh, ?_, h.named, h.unique, h.cleared⟩
  intro p hp
  simp at hp

theorem segmentGet_repInv {g : Glctx} (h : RepInv g) (name : CStr) :
    RepInv (segmentGet g name).2 :=
  Trans.preserved_of_star RepInv (fun _ _ hstep => hstep.repInv) (segmentGet_star h name) h

/-- After a lookup that finds nothing, either a slot is cached or the table is
full of live segments. -/
theorem segmentGet_none {g g' : Glctx} (h : RepInv g) {name : CStr}
    (heq : segmentGet g name = (none, g')) :
    g'.NameFree name ∧
      ((∃ q, g'.segAvail = some q ∧ g'.Unused q) ∨
        (g' = g ∧ g.segAvail = none ∧ g.entries.length = maxSegments ∧
          ∀ p ∈ g.entries, g.Live p)) := by
  rcases segmentGet_cases h name with ⟨q, avail, hget, -⟩ | ⟨hfree, q, hun, hget, -⟩ |
      ⟨hfree, hav, hall, ⟨hlt, hget⟩ | ⟨hfull, hget⟩⟩
  · rw [hget] at heq
    cases heq
  · rw [hget] at heq
    cases heq
    exact ⟨hfree, Or.inl ⟨q, rfl, hun⟩⟩
  · rw [hget] at heq
    cases heq
    refine ⟨?_, Or.inl ⟨g.brk, rfl, ?_⟩⟩
    · intro p hp
      have hlive := (h.live_newSlot p).mp hp
      have hheap := h.newSlot_heap_of_mem g.entries.length hlive.1
      show ((newSlot g g.entries.length).2.heap p).segName ≠ some name
      rw [hheap]
      exact hfree p hlive
    · refine ⟨?_, ?_⟩
      · show g.brk ∈ (newSlot g g.entries.length).2.entries
        rw [h.entries_newSlot]
        exact List.mem_append_right _ (List.mem_singleton_self _)
      · simp [newSlot, Segment.zero]
  · rw [hget] at heq
    cases heq
    exact ⟨hfree, Or.inr ⟨rfl, hav, hfull, hall⟩⟩

/-- In a full table of live segments `get_seg_slot` finds nothing. -/
theorem getSegSlot_full {g : Glctx} (h : RepInv g) (hav : g.segAvail = none)
    (hfull : g.entries.length = maxSegments) (hall : ∀ p ∈ g.entries, g.Live p) :
    getSegSlot g = (none, g) := by
  have hspec := scanUnused_spec g.heap (List.replicate (maxSegments - g.entries.length) none)
    g.entries 0
  rw [← h.shape_cons, Nat.zero_add] at hspec
  rcases hspec with ⟨p, hp, -, htype⟩ | ⟨hscan, -⟩
  · exact absurd htype (hall p hp).2
  · simp [getSegSlot, hav, hscan, hfull]

theorem getSegSlot_cached {g : Glctx} {p : SegPtr} (hav : g.segAvail = some p) :
    getSegSlot g = (some p, { g with segAvail := none }) := by
  simp [getSegSlot, hav]

/-- Calls that create and release nothing, one after the other. -/
theorem star_log {g g' : Glctx} (calls : List SysCall) (hcalls : ∀ c ∈ calls, c.Neutral)
    (hg' : g' = { g with log := g.log ++ calls }) : ReflTransGen Prim g g' := by
  subst hg'
  induction calls using List.reverseRecOn with
  | nil => simpa using ReflTransGen.refl
  | append_singleton calls c ih =>
      have hinit : ∀ c' ∈ calls, c'.Neutral := fun c' hc' => hcalls c' (by simp [hc'])
      have hlast : c.Neutral := hcalls c (by simp)
      have hprim : Prim { g with log := g.log ++ calls } _ := .call hlast
      refine ReflTransGen.tail (ih hinit) ?_
      simpa [Glctx.emit] using hprim

/-! ## Filling a slot -/

theorem isMaps_eq_false {s : Segment} : s.isMaps = false ↔ s.segFlags &&& segfMaps = 0 := by
  simp [Segment.isMaps]

/-- The mode `open_file` settles on. -/
def openMode (k : Kernel) (path : CStr) : Option OpenMode :=
  if k.access path .rdwr then some .rdwr
  else if k.access path .rdonly then some .rdonly
  else if k.access path .wronly then some .wronly
  else none

/-- The size and the flags `get_shm_segment` asks the kernel for. -/
def shmRequest (g : Glctx) (range : Range) (flags : Flags) : Word × Flags :=
  let shmflg := shmR ||| shmW ||| (flags &&& shmHugetlb)
  let pagesize := if shmflg &&& shmHugetlb ≠ 0 then g.hugePagesize else g.pagesize
  (roundUpToSegmentPagesize range.length { Segment.zero with segPagesize := pagesize }, shmflg)

/-- The open/shmget step of a registration succeeds, if there is one. -/
def Opens (k : Kernel) (g : Glctx) (type : SegType) (name : CStr) (range : Range)
    (flags : Flags) : Prop :=
  match type with
  | .segtFile => k.stat (basenameEdit name) = some true ∧
      ∃ mode, openMode k (basenameEdit name) = some mode ∧ 0 ≤ k.openFile (basenameEdit name) mode
  | .segtShm => k.shmget (shmRequest g range flags).1 (shmRequest g range flags).2 ≠ shmIdNone
  | .segtAnon | .segtNone => True

/-- What filling the unused slot `segp` of `g` comes to: a new segment when
`opens`, and otherwise the slot as it was, in the cache. -/
structure Fills (g : Glctx) (segp : SegPtr) (opens : Prop) (name : CStr) (type : SegType)
    (r : SegRet × Glctx) : Prop where
  ok : opens → ∃ s calls, r = (.segOk, { g.setSeg segp s with log := g.log ++ calls }) ∧
    s.segName = some name ∧ s.segType = type ∧ s.segSlot = (g.heap segp).segSlot ∧
    NewSegment g segp s calls
  err : ¬ opens → ∃ calls, r = (.segErr, { g with segAvail := some segp, log := g.log ++ calls }) ∧
    ∀ c ∈ calls, c.Neutral

/-- Writing a record that owns nothing over an unused slot and freeing it again
leaves the slot as it was. -/
theorem freeSegSlot_cleared {g : Glctx} {segp : SegPtr} (h : RepInv g) (hun : g.Unused segp)
    (hav : g.segAvail = none) {s : Segment} (calls : List SysCall)
    (hslot : s.segSlot = (g.heap segp).segSlot) (hnone : releaseCalls segp s = []) :
    freeSegSlot { g.setSeg segp s with log := g.log ++ calls } segp =
      { g with segAvail := some segp, log := g.log ++ calls } := by
  have hheap : Function.update g.heap segp { Segment.zero with segSlot := s.segSlot } = g.heap := by
    rw [hslot, ← h.cleared segp hun, Function.update_eq_self]
  rw [freeSegSlot_eq]
  simp only [Glctx.setSeg, Function.update_self, Function.update_idem, hheap, hnone,
    List.append_nil, hav, Option.none_or]

section Filling

variable {g : Glctx} {segp : SegPtr} {s : Segment} {name : CStr}

theorem openFile_fills (k : Kernel) (h : RepInv g) (hun : g.Unused segp)
    (hav : g.segAvail = none) (hslot : s.segSlot = (g.heap segp).segSlot)
    (hname : s.segName = some name) {path : CStr} (hpath : s.segPath = some path)
    (htype : s.segType = .segtFile) (hstart : s.segStart = mapFailed)
    (hmaps : s.isMaps = false) (hfd : s.segFd = segFdNone) (hid : s.segShmid = shmIdNone) :
    Fills g segp
      (k.stat path = some true ∧ ∃ mode, openMode k path = some mode ∧ 0 ≤ k.openFile path mode)
      name .segtFile (openFile k (g.setSeg segp s) segp) := by
  have hnone : ∀ prot, releaseCalls segp { s with segProt := prot } = [] := by
    intro prot
    simp [releaseCalls, htype, hfd]
  have hfree : (SegRet.segErr, freeSegSlot (g.setSeg segp s) segp) =
      (.segErr, { g with segAvail := some segp, log := g.log ++ [] }) := by
    have hclear := freeSegSlot_cleared h hun hav [] hslot (hnone s.segProt)
    simp only [List.append_nil] at hclear ⊢
    exact congrArg (Prod.mk _) hclear
  simp only [openFile, Glctx.setSeg_heap, Function.update_self, hpath, Option.getD_some]
  split
  · -- `stat` fails, or it is no regular file
    next hstat =>
    exact ⟨fun hopens => absurd hopens.1 hstat, fun _ => ⟨[], hfree, by simp⟩⟩
  · next hstat =>
    have hreg : k.stat path = some true := by simpa using hstat
    split
    · -- neither readable nor writable
      next hmode =>
      have hno : openMode k path = none := by
        simp only [openMode]
        split_ifs at hmode ⊢
        rfl
      refine ⟨?_, fun _ => ⟨[], hfree, by simp⟩⟩
      rintro ⟨-, mode, hsome, -⟩
      rw [hno] at hsome
      cases hsome
    · next mode prot hmode =>
      have hsome : openMode k path = some mode := by
        simp only [openMode]
        split_ifs at hmode ⊢ <;> cases hmode <;> rfl
      split
      · -- `open` fails: the protection was set already, and is cleared with the rest
        next hneg =>
        refine ⟨?_, fun _ => ⟨[.openFile segp path mode (k.openFile path mode)], ?_, ?_⟩⟩
        · rintro ⟨-, mode', hsome', hpos⟩
          rw [hsome] at hsome'
          cases hsome'
          omega
        · refine congrArg (Prod.mk _) ?_
          have hclear := freeSegSlot_cleared h hun hav
            [.openFile segp path mode (k.openFile path mode)] (s := { s with segProt := prot })
            hslot (hnone prot)
          rw [← hclear]
          simp [Glctx.emit, hpath]
        · intro c hc
          rw [List.mem_singleton.mp hc]
          exact hneg
      · next hpos =>
        refine ⟨fun _ => ⟨{ s with segProt := prot, segFd := k.openFile path mode }, _, ?_, hname,
          htype, hslot, .file path mode hmaps htype hstart (Int.not_lt.mp hpos) hid⟩, ?_⟩
        · simp [Glctx.emit, Glctx.setSeg, hpath]
        · intro hnot
          exact absurd ⟨hreg, mode, hsome, Int.not_lt.mp hpos⟩ hnot

theorem getShmSegment_fills (k : Kernel) (h : RepInv g) (hun : g.Unused segp)
    (hav : g.segAvail = none) (hslot : s.segSlot = (g.heap segp).segSlot)
    (hname : s.segName = some name) {range : Range} {flags : Flags}
    (hlen : s.segLength = range.length) (hflags : s.segFlags = flags)
    (htype : s.segType = .segtShm) (hstart : s.segStart = mapFailed)
    (hmaps : s.isMaps = false) (hfd : s.segFd = segFdNone) (hid : s.segShmid = shmIdNone) :
    Fills g segp (k.shmget (shmRequest g range flags).1 (shmRequest g range flags).2 ≠ shmIdNone)
      name .segtShm (getShmSegment k (g.setSeg segp s) segp) := by
  have hreq : ∀ pagesize, (s.pageAlign pagesize).segLength =
      roundUpToSegmentPagesize range.length { Segment.zero with segPagesize := pagesize } := by
    intro pagesize
    simp [Segment.pageAlign, roundUpToSegmentPagesize, hlen]
  have hpage : (if (shmR ||| shmW ||| (flags &&& shmHugetlb)) &&& shmHugetlb ≠ 0 then
      g.hugePagesize else g.pagesize) = g.pagesize ∨
      (if (shmR ||| shmW ||| (flags &&& shmHugetlb)) &&& shmHugetlb ≠ 0 then
      g.hugePagesize else g.pagesize) = g.hugePagesize := by
    split
    · exact Or.inr rfl
    · exact Or.inl rfl
  simp only [getShmSegment, Glctx.setSeg_heap, Function.update_self, Glctx.setSeg_setSeg,
    Glctx.setSeg_pagesize, Glctx.setSeg_hugePagesize, hflags, shmRequest, ← hreq]
  generalize (if (shmR ||| shmW ||| (flags &&& shmHugetlb)) &&& shmHugetlb ≠ 0 then
    g.hugePagesize else g.pagesize) = pagesize at hpage
  generalize hshmflg : shmR ||| shmW ||| (flags &&& shmHugetlb) = shmflg
  split
  · -- the length was rounded before `shmget` failed, and is cleared with the rest
    next hfail =>
    refine ⟨fun hopens => absurd hfail hopens, fun _ => ⟨[_], congrArg (Prod.mk _)
      (freeSegSlot_cleared h hun hav [_] (s := s.pageAlign pagesize) hslot ?_), ?_⟩⟩
    · simp [releaseCalls, Segment.pageAlign, htype, hid]
    · intro c hc
      rw [List.mem_singleton.mp hc]
      exact hfail
  · next hok =>
    refine ⟨fun _ => ⟨{ s.pageAlign pagesize with
      segShmid := k.shmget (s.pageAlign pagesize).segLength shmflg }, _, ?_, hname, htype, hslot,
      .shm shmflg hmaps htype hstart hfd hok hpage rfl⟩, fun hnot => absurd hok hnot⟩
    simp [Glctx.emit, Glctx.setSeg]

/-- A registration that found a slot in the cache fills it. -/
theorem segmentRegister_fills (k : Kernel) {g₀ : Glctx} (h : RepInv g) (hun : g.Unused segp)
    (hav : g.segAvail = some segp) {type : SegType} {path : CStr} (range : Range) {flags : Flags}
    (hget : segmentGet g₀ (basename path) = (none, g)) (htype : type ≠ .segtNone)
    (hmaps : flags &&& segfMaps = 0) :
    Fills { g with segAvail := none } segp (Opens k g type path range flags) (basename path) type
      (segmentRegister k g₀ type path range flags) := by
  have h' : RepInv { g with segAvail := none } := h.uncache
  have hname : (newRecord (g.heap segp) type (basenameEdit path) range flags).segName =
      some (basename path) := by
    simp [newRecord, basename_basenameEdit]
  have hmaps' : ∀ (type : SegType) (seg : Option CStr),
      ({ newRecord (g.heap segp) type (basenameEdit path) range flags with
        segPath := seg } : Segment).isMaps = false :=
    fun _ _ => isMaps_eq_false.mpr hmaps
  simp only [segmentRegister, hget, getSegSlot_cached hav]
  rw [if_neg (by simpa using hmaps)]
  cases type with
  | segtNone => exact absurd rfl htype
  | segtAnon =>
      refine ⟨fun _ => ⟨_, [], ?_, hname, rfl, rfl, .anon (hmaps' _ _) rfl rfl rfl rfl⟩,
        fun hno => absurd trivial hno⟩
      simp [Glctx.setSeg]
  | segtFile =>
      exact openFile_fills k (s := { newRecord (g.heap segp) .segtFile (basenameEdit path) range
        flags with segPath := some (basenameEdit path) }) h' hun rfl rfl hname rfl rfl rfl
        (hmaps' _ _) rfl rfl
  | segtShm =>
      exact getShmSegment_fills k (s := newRecord (g.heap segp) .segtShm (basenameEdit path) range
        flags) h' hun rfl rfl hname rfl rfl rfl rfl (hmaps' _ _) rfl rfl

/-- The record of a segment from the maps file, in a slot from the cache. -/
theorem segmentRegister_mapsRecord (k : Kernel) {g₀ : Glctx} (hav : g.segAvail = some segp)
    (type : SegType) {path : CStr} (range : Range) {flags : Flags}
    (hget : segmentGet g₀ (basename path) = (none, g)) (hmaps : flags &&& segfMaps ≠ 0) :
    segmentRegister k g₀ type path range flags =
      (.segOk, { g.setSeg segp (mapsRecord (newRecord (g.heap segp) type (basenameEdit path) range
        flags) (basenameEdit path) range) with segAvail := none }) := by
  simp only [segmentRegister, hget, getSegSlot_cached hav]
  rw [if_pos hmaps]
  rfl

/-- The registration of a segment from the maps file. -/
theorem segmentRegister_maps (k : Kernel) {g₀ : Glctx} (h : RepInv g) (hun : g.Unused segp)
    (hav : g.segAvail = some segp) {type : SegType} {path : CStr} {range : Range} {flags : Flags}
    (hget : segmentGet g₀ (basename path) = (none, g)) (hmaps : flags &&& segfMaps ≠ 0)
    (hentry : (type = .segtAnon ∨ type = .segtFile) ∧ range.start ≠ mapFailed ∧
      range.length ≠ 0) :
    ∃ s, segmentRegister k g₀ type path range flags =
        (.segOk, { g.setSeg segp s with segAvail := none }) ∧
      s.segName = some (basename path) ∧ s.segSlot = (g.heap segp).segSlot ∧
      NewSegment g segp s [] := by
  obtain ⟨htype, hstart, hlen⟩ := hentry
  refine ⟨_, segmentRegister_mapsRecord k hav type range hget hmaps, ?_, ?_, ?_⟩
  · rw [mapsRecord_eq]
    simp [newRecord, basename_basenameEdit]
  · rw [mapsRecord_eq]
    rfl
  · have hpage : (g.heap segp).segPagesize = 0 := by
      rw [h.cleared segp hun]
      rfl
    rw [mapsRecord_eq]
    refine .maps ?_ htype hstart hlen hpage rfl rfl
    simpa [Segment.isMaps, newRecord] using hmaps

/-- Filling a cached slot is one primitive step, or calls that come to nothing. -/
theorem Fills.star {opens : Prop} {type : SegType} {r : SegRet × Glctx}
    (hfills : Fills { g with segAvail := none } segp opens name type r) (hun : g.Unused segp)
    (hav : g.segAvail = some segp) (hfree : g.NameFree name) : ReflTransGen Prim g r.2 := by
  by_cases hopens : opens
  · obtain ⟨s, calls, rfl, hname, -, hslot, hnew⟩ := hfills.ok hopens
    have hnew' : NewSegment g segp s calls := by
      cases hnew with
      | maps h1 h2 h3 h4 h5 h6 h7 => exact .maps h1 h2 h3 h4 h5 h6 h7
      | anon h1 h2 h3 h4 h5 => exact .anon h1 h2 h3 h4 h5
      | file path mode h1 h2 h3 h4 h5 => exact .file path mode h1 h2 h3 h4 h5
      | shm shmflg h1 h2 h3 h4 h5 h6 h7 => exact .shm shmflg h1 h2 h3 h4 h5 h6 h7
    exact .single (.claim hun (Or.inr hav) hname hfree hslot hnew')
  · obtain ⟨calls, rfl, hcalls⟩ := hfills.err hopens
    exact star_log calls hcalls (by rw [← hav])

end Filling

/-! ## The mapping functions, step by step -/

section Mapping

variable {g : Glctx} {segp : SegPtr}

/-- The step both `mmap` callers end with. -/
theorem star_mmap {s : Segment} {addr upper lower : Word} {flags : Flags} {fd : Int}
    {offset memp : Word} (hp : g.Live segp)
    (htype : (g.heap segp).segType = .segtAnon ∨ (g.heap segp).segType = .segtFile)
    (hstart : (g.heap segp).segStart = mapFailed) (hre : Retunes (g.heap segp) s)
    (hflags : s.segFlags &&& segfMaps = 0 ∨ s.segFlags = (g.heap segp).segFlags)
    (hpage : s.segPagesize = g.pagesize)
    (hlen : s.segLength =
      roundUpToSegmentPagesize upper s - roundDownToSegmentPagesize lower s) :
    ReflTransGen Prim g (if memp = mapFailed then
        (SegRet.segErr, (g.setSeg segp s).emit
          (.mmap segp addr s.segLength s.segProt flags fd offset memp))
      else (.segOk, ((g.setSeg segp s).emit
          (.mmap segp addr s.segLength s.segProt flags fd offset memp)).setSeg segp
            { s with segStart := memp })).2 := by
  have hprim := Prim.retune hp htype hstart hre hflags
  split
  · next hfail => exact .tail (.single hprim) (.call hfail)
  · next hok =>
    set g₁ := g.setSeg segp s with hg₁
    have hheap : g₁.heap segp = s := by simp [hg₁]
    have hp₁ : g₁.Live segp := ⟨hp.1, by rw [hheap, hre.type]; exact hp.2⟩
    have hmap := Prim.mapped (g := g₁) addr upper lower flags fd offset hp₁
      (by rw [hheap, hre.type]; exact htype) (by rw [hheap, hre.start]; exact hstart) hok
      (by rw [hheap]; exact hpage) (by rw [hheap]; exact hlen)
    rw [hheap] at hmap
    exact .tail (.single hprim) hmap

theorem roundDown_zero (s : Segment) : roundDownToSegmentPagesize 0#64 s = 0#64 := by
  simp [roundDownToSegmentPagesize]

theorem mapAnonSegment_star (k : Kernel) {s : Segment} (hp : g.Live segp)
    (htype : (g.heap segp).segType = .segtAnon) (hstart : (g.heap segp).segStart = mapFailed)
    (hre : Retunes (g.heap segp) s)
    (hflags : s.segFlags &&& segfMaps = 0 ∨ s.segFlags = (g.heap segp).segFlags) :
    ReflTransGen Prim g (mapAnonSegment k (g.setSeg segp s) segp).2 := by
  simp only [mapAnonSegment, Glctx.setSeg_heap, Function.update_self, Glctx.setSeg_setSeg,
    Glctx.setSeg_pagesize]
  have hlen : (s.pageAlign g.pagesize).segLength =
      roundUpToSegmentPagesize s.segLength (s.pageAlign g.pagesize) -
        roundDownToSegmentPagesize 0#64 (s.pageAlign g.pagesize) := by
    rw [roundDown_zero, BitVec.sub_zero]
    rfl
  exact star_mmap hp (Or.inl htype) hstart (hre.trans (retunes_pageAlign s _)) hflags rfl hlen

theorem mapFileSegment_star (k : Kernel) {s : Segment} (hp : g.Live segp)
    (htype : (g.heap segp).segType = .segtFile) (hstart : (g.heap segp).segStart = mapFailed)
    (hre : Retunes (g.heap segp) s)
    (hflags : s.segFlags &&& segfMaps = 0 ∨ s.segFlags = (g.heap segp).segFlags) :
    ReflTransGen Prim g (mapFileSegment k (g.setSeg segp s) segp).2 := by
  simp only [mapFileSegment, Glctx.setSeg_heap, Function.update_self, Glctx.setSeg_setSeg,
    Glctx.setSeg_pagesize]
  have hre₁ := hre.trans (retunes_pageAlign s g.pagesize)
  set s₁ := s.pageAlign g.pagesize with hs₁
  set s₂ : Segment := { s₁ with segOffset := roundDownToSegmentPagesize s₁.segOffset s₁ } with hs₂
  have hre₂ : Retunes (g.heap segp) s₂ := hre₁.trans ⟨rfl, rfl, rfl, rfl, rfl, rfl, rfl⟩
  split
  · -- no file descriptor
    exact .single (.retune hp (Or.inr htype) hstart hre₁ hflags)
  · split
    · -- the offset is past the end of the file
      exact .single (.retune hp (Or.inr htype) hstart hre₂ hflags)
    · -- the new length is a difference of two page boundaries
      set s₃ : Segment := { s₂ with
        segLength :=
          if s₂.segLength = 0 then roundUpToSegmentPagesize (fileSize k s₁.segFd) s₂ - s₂.segOffset
          else roundUpToSegmentPagesize s₂.segLength s₂ } with hs₃
      have hre₃ : Retunes (g.heap segp) s₃ := hre₂.trans ⟨rfl, rfl, rfl, rfl, rfl, rfl, rfl⟩
      by_cases hzero : s₂.segLength = 0
      · have hlen : s₃.segLength = roundUpToSegmentPagesize (fileSize k s₁.segFd) s₃ -
            roundDownToSegmentPagesize s₁.segOffset s₃ := by
          rw [hs₃]
          simp only [if_pos hzero]
          rfl
        exact star_mmap hp (Or.inr htype) hstart hre₃ hflags rfl hlen
      · have hlen : s₃.segLength = roundUpToSegmentPagesize s₂.segLength s₃ -
            roundDownToSegmentPagesize 0#64 s₃ := by
          rw [roundDown_zero, BitVec.sub_zero, hs₃]
          simp only [if_neg hzero]
          rfl
        exact star_mmap hp (Or.inr htype) hstart hre₃ hflags rfl hlen

theorem mapShmSegment_star (k : Kernel) (hp : g.Live segp)
    (htype : (g.heap segp).segType = .segtShm) (hstart : (g.heap segp).segStart = mapFailed) :
    ReflTransGen Prim g (mapShmSegment k g segp).2 := by
  simp only [mapShmSegment]
  split
  · -- a failed `shmat` stores MAP_FAILED over MAP_FAILED
    next hfail =>
    have hsame : (g.emit (.shmat segp (g.heap segp).segShmid
        (k.shmat (g.heap segp).segShmid))).setSeg segp
          { g.heap segp with segStart := k.shmat (g.heap segp).segShmid } =
        g.emit (.shmat segp (g.heap segp).segShmid (k.shmat (g.heap segp).segShmid)) := by
      have hrec : ({ g.heap segp with segStart := k.shmat (g.heap segp).segShmid } : Segment) =
          g.heap segp := by rw [hfail, ← hstart]
      rw [hrec]
      simp [Glctx.setSeg, Glctx.emit]
    rw [hsame]
    exact .single (.call hfail)
  · next hok => exact .single (.attached hp htype hstart hok)

end Mapping

/-! ## The API calls, step by step -/

theorem overrideFlags_flags (s : Segment) {flags : Flags} (hflags : flags &&& segfMaps = 0) :
    (s.overrideFlags flags).segFlags &&& segfMaps = 0 ∨
      (s.overrideFlags flags).segFlags = s.segFlags := by
  unfold Segment.overrideFlags
  split
  · exact Or.inl hflags
  · exact Or.inr rfl

@[simp] theorem overrideRange_flags (s : Segment) (range : Option Range) :
    (s.overrideRange range).segFlags = s.segFlags := by
  cases range <;> rfl

section Calls

variable {g : Glctx}

/-- A lookup followed by steps that do not depend on `seg_avail`. -/
theorem star_of_lookup (h : RepInv g) {g' g'' : Glctx} {name : CStr} {r : Option SegPtr}
    (heq : segmentGet g name = (r, g')) (hstar : ReflTransGen Prim g' g'') :
    ReflTransGen Prim g g'' := by
  have hget := segmentGet_star h name
  rw [heq] at hget
  exact hget.trans hstar

theorem segmentRegister_star (k : Kernel) (h : RepInv g) {type : SegType} (name : CStr)
    (range : Range) (flags : Flags) (htype : type ≠ .segtNone)
    (hmaps : flags &&& segfMaps ≠ 0 →
      (type = .segtAnon ∨ type = .segtFile) ∧ range.start ≠ mapFailed ∧ range.length ≠ 0) :
    ReflTransGen Prim g (segmentRegister k g type name range flags).2 := by
  rcases hget : segmentGet g (basename name) with ⟨_ | p, g₁⟩
  · refine star_of_lookup h hget ?_
    obtain ⟨hfree, ⟨q, hav, hun⟩ | ⟨rfl, hav, hfull, hall⟩⟩ := segmentGet_none h hget
    · have h₁ : RepInv g₁ := by
        have hrep := segmentGet_repInv h (basename name)
        rwa [hget] at hrep
      by_cases hm : flags &&& segfMaps = 0
      · exact (segmentRegister_fills k h₁ hun hav range hget htype hm).star hun hav hfree
      · obtain ⟨s, heq, hname, hslot, hnew⟩ := segmentRegister_maps k h₁ hun hav hget hm (hmaps hm)
        rw [heq]
        have hclaim := Prim.claim hun (Or.inr hav) hname hfree hslot hnew
        simpa using ReflTransGen.single hclaim
    · simp only [segmentRegister, hget, getSegSlot_full h hav hfull hall]
      exact .refl
  · simp only [segmentRegister, hget]
    exact star_of_lookup h hget .refl

theorem unmapSegment_star {segp : SegPtr} (hp : g.Live segp)
    (hmaps : (g.heap segp).isMaps = false) :
    ReflTransGen Prim g (unmapSegment g segp) := by
  by_cases hstart : (g.heap segp).segStart = mapFailed
  · rw [unmapSegment_of_not_mapped (Or.inl hstart)]
  · exact .single (.unmapped hp hstart hmaps)

/-- After `unmap_segment` the segment is as before, except that it is unmapped. -/
theorem unmapSegment_heap {segp : SegPtr} (hmaps : (g.heap segp).isMaps = false) :
    (unmapSegment g segp).heap segp = { g.heap segp with segStart := mapFailed } := by
  by_cases hstart : (g.heap segp).segStart = mapFailed
  · rw [unmapSegment_of_not_mapped (Or.inl hstart), ← hstart]
  · rw [unmapSegment_eq hstart hmaps]
    simp

@[simp] theorem unmapSegment_seglist (segp : SegPtr) :
    (unmapSegment g segp).seglist = g.seglist := by
  simp only [unmapSegment]
  split
  · rfl
  · cases (g.heap segp).segType <;> rfl

theorem segmentRemove_star (h : RepInv g) (name : CStr) :
    ReflTransGen Prim g (segmentRemove g name).2 := by
  simp only [segmentRemove]
  split
  · next hget => exact star_of_lookup h hget .refl
  · next segp g₁ hget =>
    refine star_of_lookup h hget ?_
    obtain ⟨hp, -, avail, rfl⟩ := segmentGet_some h hget
    split
    · exact .refl
    · next hmaps =>
      have hm : (g.heap segp).isMaps = false := by simpa using hmaps
      have hunmap := unmapSegment_star (g := { g with segAvail := avail }) hp hm
      have hheap := unmapSegment_heap (g := { g with segAvail := avail }) hm
      refine .tail hunmap (.freed ⟨?_, ?_⟩ ?_ ?_)
      · rw [Glctx.entries, unmapSegment_seglist]
        exact hp.1
      · rw [hheap]
        exact hp.2
      · rw [hheap]
      · rw [hheap]
        exact hm

theorem segmentUnmap_star (h : RepInv g) (name : CStr) :
    ReflTransGen Prim g (segmentUnmap g name).2 := by
  simp only [segmentUnmap]
  split
  · next hget => exact star_of_lookup h hget .refl
  · next segp g₁ hget =>
    refine star_of_lookup h hget ?_
    obtain ⟨hp, -, avail, rfl⟩ := segmentGet_some h hget
    split
    · exact .refl
    · next hmaps => exact unmapSegment_star hp (by simpa using hmaps)

theorem segmentMap_star (k : Kernel) (h : RepInv g) (name : CStr) (range : Option Range)
    {flags : Flags} (hflags : flags &&& segfMaps = 0) :
    ReflTransGen Prim g (segmentMap k g name range flags).2 := by
  simp only [segmentMap]
  split
  · next hget => exact star_of_lookup h hget .refl
  · next segp g₁ hget =>
    refine star_of_lookup h hget ?_
    obtain ⟨hp, -, avail, rfl⟩ := segmentGet_some h hget
    split
    · exact .refl
    · next hstart =>
      have hst : (g.heap segp).segStart = mapFailed := by simpa using hstart
      have hre := retunes_overrideFlags (g.heap segp) flags
      have hfl := overrideFlags_flags (g.heap segp) hflags
      split
      · next ht => exact mapAnonSegment_star k hp ht hst hre hfl
      · next ht =>
        refine mapFileSegment_star k hp ht hst (hre.trans (retunes_overrideRange _ range)) ?_
        rw [overrideRange_flags]
        exact hfl
      · next ht => exact mapShmSegment_star k hp ht hst
      · exact .refl

theorem segmentMprotect_star (k : Kernel) (h : RepInv g) (name : CStr) (prot : Flags) :
    ReflTransGen Prim g (segmentMprotect k g name prot).2 := by
  simp only [segmentMprotect]
  split
  · next hget => exact star_of_lookup h hget .refl
  · next segp g₁ hget =>
    refine star_of_lookup h hget ?_
    obtain ⟨hp, -, avail, rfl⟩ := segmentGet_some h hget
    split
    · next hok =>
      rw [hok]
      exact .single (.reprotected hp)
    · next hok => exact .single (.call (by simpa [SysCall.Neutral] using hok))

theorem segmentTouch_star (ev : Nat → PageEvent) (fuel : Nat) (h : RepInv g) (name : CStr)
    (range : Range) (rw : Bool) :
    ReflTransGen Prim g (segmentTouch ev fuel g name range rw).2 := by
  simp only [segmentTouch]
  split
  · next hget => exact star_of_lookup h hget .refl
  · next hget =>
    refine star_of_lookup h hget ?_
    split
    · exact .refl
    · split
      · exact .refl
      · split
        · exact .single (.call trivial)
        · split <;> exact .single (.call trivial)

theorem segmentMbind_star (k : Kernel) (h : RepInv g) (name : CStr) (range : Range)
    (policy : Int) (nodemask : Option Nat) (flags : Flags) :
    ReflTransGen Prim g (segmentMbind k g name range policy nodemask flags).2 := by
  simp only [segmentMbind]
  split
  · next hget => exact star_of_lookup h hget .refl
  · next hget =>
    refine star_of_lookup h hget ?_
    split
    · exact .refl
    · split
      · exact .refl
      · split <;> exact .single (.call trivial)

theorem segmentLocation_star (k : Kernel) (sig : Nat → Bool) (fuel : Nat) (h : RepInv g)
    (name : CStr) (range : Range) :
    ReflTransGen Prim g (segmentLocation k sig fuel g name range).2 := by
  simp only [segmentLocation]
  split
  · next hget => exact star_of_lookup h hget .refl
  · next segp g₁ hget =>
    refine star_of_lookup h hget ?_
    split
    · exact .refl
    · split
      · exact .refl
      · split
        · exact .refl
        · split
          · exact .refl
          · next run _ =>
            have hcalls : ∀ c ∈ run.visited.map (SysCall.getNode segp), c.Neutral := by
              intro c hc
              obtain ⟨vaddr, -, rfl⟩ := List.mem_map.mp hc
              trivial
            split <;> exact star_log _ hcalls rfl

theorem segmentLockUnlock_star (k : Kernel) (h : RepInv g) (name : CStr) (range : Range)
    (lock shm : Bool) : ReflTransGen Prim g (segmentLockUnlock k g name range lock shm).2 := by
  simp only [segmentLockUnlock]
  split
  · next hget => exact star_of_lookup h hget .refl
  · next hget =>
    refine star_of_lookup h hget ?_
    split
    · exact .refl
    · split
      · split
        · exact .refl
        · split <;> exact .single (.call trivial)
      · split
        · exact .refl
        · split <;> exact .single (.call trivial)

end Calls

/-! ## The spec -/

/-- A page size: a power of two that holds at least one `unsigned long`. -/
def IsPageSize (n : Word) : Prop := ∃ k, 3 ≤ k ∧ k < 64 ∧ n = BitVec.twoPow 64 k

/-- What `init_glctx` finds out about the machine: the system page size, and the
huge page size of `/proc/meminfo`, zero when there is none. -/
structure Config where
  pagesize : Word
  hugePagesize : Word
  pagesize_ok : IsPageSize pagesize
  huge_ok : hugePagesize = 0 ∨ IsPageSize hugePagesize

/-- A line of `/proc/<mypid>/maps` as `get_task_segments` hands it on. -/
structure MapsEntry where
  type : SegType
  path : CStr
  start : Word
  endp : Word
  offset : Word
  type_ok : type = .segtAnon ∨ type = .segtFile
  start_lt : start < endp

def MapsEntry.range (m : MapsEntry) : Range where
  offset := m.offset
  length := m.endp - m.start
  start := m.start

theorem MapsEntry.range_ok (m : MapsEntry) :
    m.range.start ≠ mapFailed ∧ m.range.length ≠ 0 := by
  have hlt := m.start_lt
  simp only [range, mapFailed]
  constructor
  · intro heq
    have hmax : m.start.toNat = 2 ^ 64 - 1 := by rw [heq]; rfl
    bv_omega
  · intro heq
    change m.endp - m.start = 0#64 at heq
    bv_omega

/-- The table `segment_init` allocates. -/
def emptyTable (cfg : Config) : Glctx where
  pagesize := cfg.pagesize
  hugePagesize := cfg.hugePagesize
  heap := fun _ => Segment.zero
  brk := 0
  seglist := List.replicate (maxSegments + 1) none
  segAvail := none
  log := []

/-- `get_task_segments()`: all are copy-on-write. -/
def getTaskSegments (k : Kernel) (maps : List MapsEntry) (g : Glctx) : Glctx :=
  maps.foldl
    (fun g m => (segmentRegister k g m.type m.path m.range (mapPrivate ||| segfMaps)).2) g

/-- `segment_init()`. -/
def segmentInit (k : Kernel) (cfg : Config) (maps : List MapsEntry) : Glctx :=
  getTaskSegments k maps (emptyTable cfg)

/-- A call of the segment API, with its arguments and what the kernel and the
signals do during it. `segment_range` and `segment_show` of a name change the
table as `get` does. -/
inductive Op where
  | get (name : CStr)
  | register (k : Kernel) (type : SegType) (name : CStr) (range : Range) (flags : Flags)
  | remove (name : CStr)
  | unmap (name : CStr)
  | map (k : Kernel) (name : CStr) (range : Option Range) (flags : Flags)
  | mprotect (k : Kernel) (name : CStr) (prot : Flags)
  | touch (ev : Nat → PageEvent) (fuel : Nat) (name : CStr) (range : Range) (rw : Bool)
  | mbind (k : Kernel) (name : CStr) (range : Range) (policy : Int) (nodemask : Option Nat)
      (flags : Flags)
  | location (k : Kernel) (sig : Nat → Bool) (fuel : Nat) (name : CStr) (range : Range)
  | lockUnlock (k : Kernel) (name : CStr) (range : Range) (lock shm : Bool)

/-- What the callers in `commands.c` promise: a segment is registered under one
of the three types, and flags never carry `SEGF_MAPS`. -/
def Op.Ok : Op → Prop
  | .register _ type _ _ flags => type ≠ .segtNone ∧ flags &&& segfMaps = 0
  | .map _ _ _ flags => flags &&& segfMaps = 0
  | _ => True

/-- The table after a call. -/
def Op.exec : Op → Glctx → Glctx
  | .get name, g => (segmentGet g name).2
  | .register k type name range flags, g => (segmentRegister k g type name range flags).2
  | .remove name, g => (segmentRemove g name).2
  | .unmap name, g => (segmentUnmap g name).2
  | .map k name range flags, g => (segmentMap k g name range flags).2
  | .mprotect k name prot, g => (segmentMprotect k g name prot).2
  | .touch ev fuel name range rw, g => (segmentTouch ev fuel g name range rw).2
  | .mbind k name range policy nodemask flags, g =>
      (segmentMbind k g name range policy nodemask flags).2
  | .location k sig fuel name range, g => (segmentLocation k sig fuel g name range).2
  | .lockUnlock k name range lock shm, g => (segmentLockUnlock k g name range lock shm).2

/-- Every call is a sequence of primitive steps. -/
theorem Op.star (op : Op) (hok : op.Ok) {g : Glctx} (h : RepInv g) :
    ReflTransGen Prim g (op.exec g) := by
  cases op with
  | get name => exact segmentGet_star h name
  | register k type name range flags =>
      exact segmentRegister_star k h name range flags hok.1 (fun hm => absurd hok.2 hm)
  | remove name => exact segmentRemove_star h name
  | unmap name => exact segmentUnmap_star h name
  | map k name range flags => exact segmentMap_star k h name range hok
  | mprotect k name prot => exact segmentMprotect_star k h name prot
  | touch ev fuel name range rw => exact segmentTouch_star ev fuel h name range rw
  | mbind k name range policy nodemask flags =>
      exact segmentMbind_star k h name range policy nodemask flags
  | location k sig fuel name range => exact segmentLocation_star k sig fuel h name range
  | lockUnlock k name range lock shm => exact segmentLockUnlock_star k h name range lock shm

/-- The segment layer: `segment_init` on any machine and any maps file, then any
calls that meet `P`. -/
def segSpec (P : Op → Prop) : Trans.Spec Glctx where
  Init := fun g => ∃ k cfg maps, g = segmentInit k cfg maps
  Next := fun g g' => ∃ op : Op, op.Ok ∧ P op ∧ g' = op.exec g

/-- Every call with any kernel outcome. -/
def anyOp (_ : Op) : Prop := True

theorem emptyTable_entries (cfg : Config) : (emptyTable cfg).entries = [] := by
  simp [Glctx.entries_eq, emptyTable]

theorem emptyTable_repInv (cfg : Config) : RepInv (emptyTable cfg) := by
  have hent := emptyTable_entries cfg
  have hno : ∀ p, p ∉ (emptyTable cfg).entries := by
    intro p
    rw [hent]
    exact List.not_mem_nil
  refine ⟨?_, ?_, ?_, ?_, ?_, ?_, ?_, ?_⟩
  · rw [hent]
    rfl
  · rw [hent]
    exact Nat.zero_le _
  · intro i p hp
    rw [hent] at hp
    simp at hp
  · intro p hp
    exact absurd hp (hno p)
  · intro p hp
    cases hp
  · intro p hp
    exact absurd hp.1 (hno p)
  · intro p q hp
    exact absurd hp.1 (hno p)
  · intro p hp
    exact absurd hp.1 (hno p)

/-- An entry of the maps is registered as any segment is. -/
theorem mapsEntry_star (k : Kernel) (h : RepInv g) (m : MapsEntry) :
    ReflTransGen Prim g (segmentRegister k g m.type m.path m.range (mapPrivate ||| segfMaps)).2 := by
  apply segmentRegister_star k h
  · rcases m.type_ok with ht | ht <;> rw [ht] <;> simp
  · exact fun _ => ⟨m.type_ok, m.range_ok⟩

/-- What the registration of an entry keeps, that of all keeps. -/
theorem getTaskSegments_keeps {P : Glctx → Prop} {k : Kernel}
    (hreg : ∀ g (m : MapsEntry), P g →
      P (segmentRegister k g m.type m.path m.range (mapPrivate ||| segfMaps)).2)
    {maps : List MapsEntry} {g : Glctx} (hg : P g) : P (getTaskSegments k maps g) := by
  induction maps generalizing g with
  | nil => exact hg
  | cons m maps ih => exact ih (hreg g m hg)

/-- What the empty table has and every primitive step keeps, `segment_init`
leaves. -/
theorem segmentInit_inv {inv : Glctx → Prop} (hempty : ∀ cfg, inv (emptyTable cfg))
    (hprim : ∀ g g', RepInv g → Prim g g' → inv g → inv g') (k : Kernel) (cfg : Config)
    (maps : List MapsEntry) :
    RepInv (segmentInit k cfg maps) ∧ inv (segmentInit k cfg maps) := by
  apply getTaskSegments_keeps (P := fun g => RepInv g ∧ inv g)
  · rintro g m ⟨h, hg⟩
    exact star_preserves hprim (mapsEntry_star k h m) h hg
  · exact ⟨emptyTable_repInv cfg, hempty cfg⟩

/-- The invariant rule of the segment layer: what the empty table has and every
primitive step keeps holds in every reachable state. -/
theorem reachable_inv {inv : Glctx → Prop} (hempty : ∀ cfg, inv (emptyTable cfg))
    (hprim : ∀ g g', RepInv g → Prim g g' → inv g → inv g') {P : Op → Prop} {g : Glctx}
    (h : (segSpec P).Reachable g) : RepInv g ∧ inv g := by
  refine Trans.Spec.invariant (fun g => RepInv g ∧ inv g) ?_ ?_ h
  · rintro g ⟨k, cfg, maps, rfl⟩
    exact segmentInit_inv hempty hprim k cfg maps
  · rintro g g' ⟨op, hok, -, rfl⟩ ⟨hrep, hg⟩
    exact star_preserves hprim (op.star hok hrep) hrep hg

/-- The representation invariant holds in every reachable state. -/
theorem reachable_repInv {P : Op → Prop} {g : Glctx} (h : (segSpec P).Reachable g) : RepInv g :=
  (reachable_inv (fun _ => trivial) (fun _ _ _ _ _ => trivial) h
    : RepInv g ∧ (fun _ => True) g).1

/-! ## A concrete machine

4 kB pages, 2 MB huge pages, one heap line in the maps file, and a kernel that
grants every request but the empty ones. -/

def sampleConfig : Config where
  pagesize := 0x1000#64
  hugePagesize := 0x200000#64
  pagesize_ok := ⟨12, by decide, by decide, by decide⟩
  huge_ok := Or.inr ⟨21, by decide, by decide, by decide⟩

def sampleKernel : Kernel where
  stat := fun _ => some true
  access := fun _ _ => true
  openFile := fun _ _ => 3
  fstat := fun _ => some 0x2000#64
  shmget := fun size _ => if size = 0 then shmIdNone else 7
  shmat := fun _ => 0x7f0000000000#64
  shmLock := fun _ _ => true
  mmap := fun addr length _ _ _ _ =>
    if length = 0 then mapFailed else if addr = 0 then 0x7f0000000000#64 else addr
  mprotect := fun _ _ _ => true
  mbind := fun _ _ _ _ _ => true
  getNode := fun _ => 0
  mlock := fun _ _ _ => true

def sampleHeap : MapsEntry where
  type := .segtAnon
  path := ['h', 'e', 'a', 'p']
  start := 0x1000000#64
  endp := 0x1021000#64
  offset := 0
  type_ok := Or.inl rfl
  start_lt := by decide

/-- The table `segment_init` leaves on the concrete machine. -/
def sampleTable : Glctx := segmentInit sampleKernel sampleConfig [sampleHeap]

theorem sampleTable_reachable (P : Op → Prop) : (segSpec P).Reachable sampleTable :=
  .init ⟨sampleKernel, sampleConfig, [sampleHeap], rfl⟩

end Memtoy
