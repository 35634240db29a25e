import Mathlib.Logic.Relation
import Memtoy.Lib.Trans
import Memtoy.Segment.Invariant

/-!
# Segment.Steps — what one call can do to the table

Every function of the segment API is a sequence of a few primitive steps on the
table: cache an unused slot, allocate a slot, claim one for a new segment, edit
or (un)map a live one, free one. `Prim` lists them with their guards, once;
the invariants of the later modules are proved step by step over `Prim` and
hold of every API call because every call is a sequence of such steps.
-/

namespace Memtoy

open CString Relation

/-! ## Closed forms of the two releasing functions -/

/-- The calls `free_seg_slot` makes for a record. -/
def releaseCalls (segp : SegPtr) (s : Segment) : List SysCall :=
  (if s.segType = .segtFile ∧ s.segFd ≠ segFdNone then [.close segp s.segFd] else []) ++
    (if s.segType = .segtShm ∧ s.segShmid ≠ shmIdNone then [.shmRmid segp s.segShmid] else [])

theorem freeSegSlot_eq (g : Glctx) (segp : SegPtr) :
    freeSegSlot g segp =
      { g with
        heap := Function.update g.heap segp { Segment.zero with segSlot := (g.heap segp).segSlot }
        segAvail := g.segAvail.or (some segp)
        log := g.log ++ releaseCalls segp (g.heap segp) } := by
  rcases hav : g.segAvail with _ | q <;>
    by_cases hf : (g.heap segp).segType = .segtFile ∧ (g.heap segp).segFd ≠ segFdNone <;>
      by_cases hs : (g.heap segp).segType = .segtShm ∧ (g.heap segp).segShmid ≠ shmIdNone <;>
        simp [freeSegSlot, releaseCalls, hf, hs, hav, Glctx.setSeg, Glctx.emit]

/-- The call `unmap_segment` makes for a mapped record. -/
def unmapCalls (segp : SegPtr) (s : Segment) : List SysCall :=
  match s.segType with
  | .segtAnon | .segtFile => [.munmap segp s.segStart s.segLength]
  | .segtShm => [.shmdt segp s.segStart]
  | .segtNone => []

theorem unmapSegment_eq {g : Glctx} {segp : SegPtr} (hstart : (g.heap segp).segStart ≠ mapFailed)
    (hmaps : (g.heap segp).isMaps = false) :
    unmapSegment g segp =
      { g with
        heap := Function.update g.heap segp { g.heap segp with segStart := mapFailed }
        log := g.log ++ unmapCalls segp (g.heap segp) } := by
  cases htype : (g.heap segp).segType <;>
    simp [unmapSegment, unmapCalls, hstart, hmaps, htype, Glctx.setSeg, Glctx.emit]

theorem unmapSegment_of_not_mapped {g : Glctx} {segp : SegPtr}
    (h : (g.heap segp).segStart = mapFailed ∨ (g.heap segp).isMaps = true) :
    unmapSegment g segp = g := by
  simp only [unmapSegment]
  rw [if_pos h]

/-! ## Primitive steps -/

/-- Calls that leave no resource behind and release none: failed attempts, and
the calls that work on a mapping. -/
def SysCall.Neutral : SysCall → Prop
  | .openFile _ _ _ fd => fd < 0
  | .shmget _ _ _ shmid => shmid = shmIdNone
  | .shmat _ _ start => start = mapFailed
  | .mmap _ _ _ _ _ _ _ memp => memp = mapFailed
  | .mprotect _ _ _ _ ok => ok = false
  | .close .. | .shmRmid .. | .shmdt .. | .munmap .. => False
  | .shmLock .. | .touchMemory .. | .mbind .. | .getNode .. | .mlock .. => True

/-- `s'` differs from `s` at most in its geometry, flags and protection. -/
structure Retunes (s s' : Segment) : Prop where
  name : s'.segName = s.segName
  start : s'.segStart = s.segStart
  path : s'.segPath = s.segPath
  type : s'.segType = s.segType
  slot : s'.segSlot = s.segSlot
  fd : s'.segFd = s.segFd
  shmid : s'.segShmid = s.segShmid

theorem Retunes.trans {s s' s'' : Segment} (h : Retunes s s') (h' : Retunes s' s'') :
    Retunes s s'' :=
  ⟨h'.name.trans h.name, h'.start.trans h.start, h'.path.trans h.path, h'.type.trans h.type,
    h'.slot.trans h.slot, h'.fd.trans h.fd, h'.shmid.trans h.shmid⟩

theorem retunes_pageAlign (s : Segment) (pagesize : Word) : Retunes s (s.pageAlign pagesize) :=
  ⟨rfl, rfl, rfl, rfl, rfl, rfl, rfl⟩

theorem retunes_overrideFlags (s : Segment) (flags : Flags) :
    Retunes s (s.overrideFlags flags) := by
  unfold Segment.overrideFlags
  split <;> exact ⟨rfl, rfl, rfl, rfl, rfl, rfl, rfl⟩

theorem retunes_overrideRange (s : Segment) (range : Option Range) :
    Retunes s (s.overrideRange range) := by
  cases range <;> exact ⟨rfl, rfl, rfl, rfl, rfl, rfl, rfl⟩

/-- The records a registration can leave in a slot, with the calls it makes for
them: a segment of the maps file, or a new one that is not mapped yet. -/
inductive NewSegment (g : Glctx) (segp : SegPtr) : Segment → List SysCall → Prop where
  | maps {s : Segment} : s.isMaps = true → s.segType = .segtAnon ∨ s.segType = .segtFile →
      s.segStart ≠ mapFailed → s.segLength ≠ 0 → s.segPagesize = 0 → s.segFd = segFdNone →
      s.segShmid = shmIdNone → NewSegment g segp s []
  | anon {s : Segment} : s.isMaps = false → s.segType = .segtAnon → s.segStart = mapFailed →
      s.segFd = segFdNone → s.segShmid = shmIdNone → NewSegment g segp s []
  | file {s : Segment} (path : CStr) (mode : OpenMode) : s.isMaps = false →
      s.segType = .segtFile → s.segStart = mapFailed → 0 ≤ s.segFd → s.segShmid = shmIdNone →
      NewSegment g segp s [.openFile segp path mode s.segFd]
  | shm {s s₀ : Segment} {pagesize : Word} (shmflg : Flags) : s.isMaps = false →
      s.segType = .segtShm → s.segStart = mapFailed → s.segFd = segFdNone →
      s.segShmid ≠ shmIdNone → pagesize = g.pagesize ∨ pagesize = g.hugePagesize →
      s = { s₀.pageAlign pagesize with segShmid := s.segShmid } →
      NewSegment g segp s [.shmget segp s.segLength shmflg s.segShmid]

theorem NewSegment.type_ne {g : Glctx} {segp : SegPtr} {s : Segment} {calls : List SysCall}
    (h : NewSegment g segp s calls) : s.segType ≠ .segtNone := by
  cases h with
  | maps _ htype => rcases htype with ht | ht <;> simp [ht]
  | anon _ htype => simp [htype]
  | file _ _ _ htype => simp [htype]
  | shm _ _ htype => simp [htype]

/-- The primitive steps of the segment layer. -/
inductive Prim : Glctx → Glctx → Prop where
  /-- A scan remembers an unused slot. -/
  | cache {g : Glctx} {segp : SegPtr} : g.segAvail = none → g.Unused segp →
      Prim g { g with segAvail := some segp }
  /-- A previously unused entry of `seglist` gets a slot. -/
  | alloc {g : Glctx} : g.entries.length < maxSegments →
      Prim g (newSlot g g.entries.length).2
  /-- A new segment takes an unused slot. -/
  | claim {g : Glctx} {segp : SegPtr} {s : Segment} {name : CStr} {calls : List SysCall} :
      g.Unused segp → (g.segAvail = none ∨ g.segAvail = some segp) →
      s.segName = some name → g.NameFree name → s.segSlot = (g.heap segp).segSlot →
      NewSegment g segp s calls →
      Prim g { g.setSeg segp s with segAvail := none, log := g.log ++ calls }
  /-- A call that creates and releases nothing. -/
  | call {g : Glctx} {c : SysCall} : c.Neutral → Prim g (g.emit c)
  /-- The geometry, flags and protection of an unmapped anonymous or file segment
  change. -/
  | retune {g : Glctx} {segp : SegPtr} {s : Segment} :
      g.Live segp → (g.heap segp).segType = .segtAnon ∨ (g.heap segp).segType = .segtFile →
      (g.heap segp).segStart = mapFailed → Retunes (g.heap segp) s →
      s.segFlags &&& segfMaps = 0 ∨ s.segFlags = (g.heap segp).segFlags →
      Prim g (g.setSeg segp s)
  /-- A successful `mmap` of a record whose length runs between two page
  boundaries. -/
  | mapped {g : Glctx} {segp : SegPtr} (addr upper lower : Word) (flags : Flags) (fd : Int)
      (offset : Word) {memp : Word} :
      g.Live segp → (g.heap segp).segType = .segtAnon ∨ (g.heap segp).segType = .segtFile →
      (g.heap segp).segStart = mapFailed → memp ≠ mapFailed →
      (g.heap segp).segPagesize = g.pagesize →
      (g.heap segp).segLength = roundUpToSegmentPagesize upper (g.heap segp) -
        roundDownToSegmentPagesize lower (g.heap segp) →
      Prim g ((g.emit (.mmap segp addr (g.heap segp).segLength (g.heap segp).segProt flags fd
          offset memp)).setSeg segp
        { g.heap segp with segStart := memp })
  /-- A successful `shmat`. -/
  | attached {g : Glctx} {segp : SegPtr} {start : Word} :
      g.Live segp → (g.heap segp).segType = .segtShm →
      (g.heap segp).segStart = mapFailed → start ≠ mapFailed →
      Prim g ((g.emit (.shmat segp (g.heap segp).segShmid start)).setSeg segp
        { g.heap segp with segStart := start })
  /-- A successful `mprotect`. -/
  | reprotected {g : Glctx} {segp : SegPtr} {prot : Flags} : g.Live segp →
      Prim g ((g.emit (.mprotect segp (g.heap segp).segStart (g.heap segp).segLength prot
          true)).setSeg segp
        { g.heap segp with segProt := prot })
  /-- A mapped segment is unmapped. -/
  | unmapped {g : Glctx} {segp : SegPtr} : g.Live segp → (g.heap segp).segStart ≠ mapFailed →
      (g.heap segp).isMaps = false → Prim g (unmapSegment g segp)
  /-- An unmapped segment is freed. -/
  | freed {g : Glctx} {segp : SegPtr} : g.Live segp → (g.heap segp).segStart = mapFailed →
      (g.heap segp).isMaps = false → Prim g (freeSegSlot g segp)

/-! ## Primitive steps keep the representation invariant -/

namespace RepInv

variable {g : Glctx} {segp : SegPtr} {s : Segment}

/-- The log is a history: the invariant does not look at it. -/
theorem relog (h : RepInv g) (log : List SysCall) : RepInv { g with log := log } :=
  ⟨h.shape, h.bound, h.slot, h.fresh, h.avail, h.named, h.unique, h.cleared⟩

theorem emit (h : RepInv g) (c : SysCall) : RepInv (g.emit c) := h.relog _

/-- Writing one record of the table. A record in use needs a name that no other live
segment has; an unused one must be cleared. -/
theorem write {g' : Glctx} (h : RepInv g) (hlist : g'.seglist = g.seglist) (hbrk : g'.brk = g.brk)
    (hheap : g'.heap = Function.update g.heap segp s)
    (hslot : s.segSlot = (g.heap segp).segSlot)
    (havail : ∀ q, g'.segAvail = some q → g'.Unused q)
    (hused : s.segType ≠ .segtNone → ∃ name, s.segName = some name ∧
      ∀ q, q ≠ segp → g.Live q → (g.heap q).segName ≠ some name)
    (hunused : s.segType = .segtNone → s = { Segment.zero with segSlot := s.segSlot }) :
    RepInv g' := by
  have hent : g'.entries = g.entries := congrArg List.reduceOption hlist
  have hself : g'.heap segp = s := by simp [hheap]
  have hother : ∀ q, q ≠ segp → g'.heap q = g.heap q := by
    intro q hne
    simp [hheap, hne]
  have hlive : ∀ q, q ≠ segp → g'.Live q → g.Live q := by
    intro q hne hq
    exact ⟨hent ▸ hq.1, hother q hne ▸ hq.2⟩
  refine ⟨by rw [hlist, hent, ← h.shape], hent ▸ h.bound, ?_, ?_, havail, ?_, ?_, ?_⟩
  · -- slot numbers
    intro i q hq
    rw [hent] at hq
    by_cases hne : q = segp
    · subst hne
      rw [hself, hslot]
      exact h.slot i q hq
    · rw [hother q hne]
      exact h.slot i q hq
  · intro q hq
    rw [hbrk]
    exact h.fresh q (hent ▸ hq)
  · -- names of live segments
    intro q hq
    by_cases hne : q = segp
    · subst hne
      rw [hself]
      obtain ⟨name, hname, -⟩ := hused (hself ▸ hq.2)
      exact ⟨name, hname⟩
    · rw [hother q hne]
      exact h.named q (hlive q hne hq)
  · -- names are unique: the written record against the others, and the others as before
    intro p q hp hq heq
    by_cases hpn : p = segp <;> by_cases hqn : q = segp
    · rw [hpn, hqn]
    · subst hpn
      obtain ⟨name, hname, hfree⟩ := hused (hself ▸ hp.2)
      rw [hself, hother q hqn, hname] at heq
      exact absurd heq.symm (hfree q hqn (hlive q hqn hq))
    · subst hqn
      obtain ⟨name, hname, hfree⟩ := hused (hself ▸ hq.2)
      rw [hself, hother p hpn, hname] at heq
      exact absurd heq (hfree p hpn (hlive p hpn hp))
    · rw [hother p hpn, hother q hqn] at heq
      exact h.unique p q (hlive p hpn hp) (hlive q hqn hq) heq
  · -- unused records are cleared
    intro q hq
    by_cases hne : q = segp
    · subst hne
      rw [hself]
      exact hunused (hself ▸ hq.2)
    · have htype := hq.2
      rw [hother q hne] at htype ⊢
      exact h.cleared q ⟨hent ▸ hq.1, htype⟩

/-- An unused slot other than the written one is still unused. -/
theorem unused_of_ne {g' : Glctx} {q : SegPtr} (hq : g.Unused q) (hne : q ≠ segp)
    (hlist : g'.seglist = g.seglist) (hheap : g'.heap = Function.update g.heap segp s) :
    g'.Unused q := by
  have hent : g'.entries = g.entries := congrArg List.reduceOption hlist
  refine ⟨hent ▸ hq.1, ?_⟩
  rw [hheap, Function.update_of_ne hne]
  exact hq.2

/-- Editing a live segment without changing its name, type or slot number. -/
theorem edit (h : RepInv g) (hp : g.Live segp) (hname : s.segName = (g.heap segp).segName)
    (htype : s.segType = (g.heap segp).segType) (hslot : s.segSlot = (g.heap segp).segSlot) :
    RepInv (g.setSeg segp s) := by
  refine h.write rfl rfl rfl hslot ?_ ?_ ?_
  · intro q hq
    have hun := h.avail q hq
    have hne : q ≠ segp := by
      rintro rfl
      exact hp.2 hun.2
    exact unused_of_ne hun hne rfl rfl
  · intro _
    obtain ⟨name, hn⟩ := h.named segp hp
    refine ⟨name, hname.trans hn, fun q hne hq heq => hne ?_⟩
    exact h.unique q segp hq hp (heq.trans hn.symm)
  · intro hnone
    exact absurd (htype.symm.trans hnone) hp.2

theorem cache (h : RepInv g) (hp : g.Unused segp) : RepInv { g with segAvail := some segp } := by
  refine ⟨h.shape, h.bound, h.slot, h.fresh, ?_, h.named, h.unique, h.cleared⟩
  intro q hq
  have hqp : segp = q := by simpa using hq
  subst hqp
  exact hp

theorem seglist_newSlot (h : RepInv g) :
    (newSlot g g.entries.length).2.seglist = (g.entries ++ [g.brk]).map some ++
      List.replicate (maxSegments - g.entries.length) none := by
  have hset : (newSlot g g.entries.length).2.seglist =
      g.seglist.set g.entries.length (some g.brk) := rfl
  rw [hset, h.shape_cons, List.set_append_right _ _ (by simp)]
  simp

theorem entries_newSlot (h : RepInv g) :
    (newSlot g g.entries.length).2.entries = g.entries ++ [g.brk] := by
  rw [Glctx.entries_eq, h.seglist_newSlot]
  simp

/-- The pointer `calloc` returns is not an entry yet. -/
theorem brk_notMem (h : RepInv g) : g.brk ∉ g.entries := by
  intro hmem
  exact absurd (h.fresh _ hmem) (lt_irrefl _)

theorem newSlot_heap_of_mem (h : RepInv g) {q : SegPtr} (i : Nat) (hq : q ∈ g.entries) :
    (newSlot g i).2.heap q = g.heap q := by
  have hne : q ≠ g.brk := by
    rintro rfl
    exact h.brk_notMem hq
  simp [newSlot, hne]

theorem live_newSlot (h : RepInv g) (q : SegPtr) :
    (newSlot g g.entries.length).2.Live q ↔ g.Live q := by
  simp only [Glctx.Live, h.entries_newSlot, List.mem_append, List.mem_singleton]
  constructor
  · rintro ⟨hmem | rfl, htype⟩
    · rw [h.newSlot_heap_of_mem _ hmem] at htype
      exact ⟨hmem, htype⟩
    · simp [newSlot, Segment.zero] at htype
  · rintro ⟨hmem, htype⟩
    rw [h.newSlot_heap_of_mem _ hmem]
    exact ⟨Or.inl hmem, htype⟩

theorem newSlot (h : RepInv g) (hlt : g.entries.length < maxSegments) :
    RepInv (newSlot g g.entries.length).2 := by
  have hent := h.entries_newSlot
  have hheap := fun q hq => h.newSlot_heap_of_mem (q := q) g.entries.length hq
  have hnew : (Memtoy.newSlot g g.entries.length).2.heap g.brk =
      { Segment.zero with segSlot := g.entries.length } := by simp [Memtoy.newSlot]
  refine ⟨?_, ?_, ?_, ?_, ?_, ?_, ?_, ?_⟩
  · rw [hent, h.seglist_newSlot]
    have hlen : maxSegments + 1 - (g.entries ++ [g.brk]).length =
        maxSegments - g.entries.length := by simp
    rw [hlen]
  · rw [hent, List.length_append, List.length_singleton]
    omega
  · intro i q hq
    rw [hent, List.getElem?_append] at hq
    split at hq
    · rw [hheap q (List.mem_of_getElem? hq)]
      exact h.slot i q hq
    · next hge =>
      have hi : i - g.entries.length = 0 := by
        by_contra hne
        simp [hne] at hq
      rw [hi] at hq
      have hq' : g.brk = q := by simpa using hq
      subst hq'
      rw [hnew]
      show g.entries.length = i
      omega
  · intro q hq
    rw [hent, List.mem_append, List.mem_singleton] at hq
    show q < g.brk + 1
    rcases hq with hq | rfl
    · exact Nat.lt_succ_of_lt (h.fresh q hq)
    · exact Nat.lt_succ_self _
  · intro q hq
    obtain ⟨hmem, htype⟩ := h.avail q hq
    refine ⟨?_, ?_⟩
    · rw [hent]
      exact List.mem_append_left _ hmem
    · rw [hheap q hmem]
      exact htype
  · intro q hq
    have hlive := (h.live_newSlot q).mp hq
    rw [hheap q hlive.1]
    exact h.named q hlive
  · intro p q hp hq heq
    have hp' := (h.live_newSlot p).mp hp
    have hq' := (h.live_newSlot q).mp hq
    rw [hheap p hp'.1, hheap q hq'.1] at heq
    exact h.unique p q hp' hq' heq
  · intro q hq
    obtain ⟨hmem, htype⟩ := hq
    rw [hent, List.mem_append, List.mem_singleton] at hmem
    rcases hmem with hmem | rfl
    · rw [hheap q hmem] at htype ⊢
      exact h.cleared q ⟨hmem, htype⟩
    · rw [hnew]

/-- A new live record with a name of its own takes an unused slot. -/
theorem claim (h : RepInv g) {name : CStr} (htype : s.segType ≠ .segtNone)
    (hname : s.segName = some name) (hfree : g.NameFree name)
    (hslot : s.segSlot = (g.heap segp).segSlot) :
    RepInv { g.setSeg segp s with segAvail := none } := by
  refine h.write rfl rfl rfl hslot ?_ ?_ ?_
  · intro q hq
    cases hq
  · intro _
    exact ⟨name, hname, fun q _ hq => hfree q hq⟩
  · intro hnone
    exact absurd hnone htype

/-- A live segment gives its slot back. -/
theorem free (h : RepInv g) (hp : g.Live segp) : RepInv (freeSegSlot g segp) := by
  rw [freeSegSlot_eq]
  refine h.write rfl rfl rfl rfl ?_ (fun htype => absurd rfl htype) (fun _ => rfl)
  intro q hq
  -- the cache keeps its slot, or takes the one given back
  by_cases hne : q = segp
  · subst hne
    exact ⟨hp.1, by simp [Segment.zero]⟩
  · have hav : g.segAvail = some q := by
      rcases hav : g.segAvail with _ | r
      · exact absurd (by simpa [hav, eq_comm] using hq) hne
      · simpa [hav] using hq
    exact unused_of_ne (h.avail q hav) hne rfl rfl

end RepInv

/-- Every primitive step keeps the representation invariant. -/
theorem Prim.repInv {g g' : Glctx} (hstep : Prim g g') (h : RepInv g) : RepInv g' := by
  cases hstep with
  | cache _ hp => exact h.cache hp
  | alloc hlt => exact h.newSlot hlt
  | claim _ _ hname hfree hslot hnew =>
      exact (h.claim hnew.type_ne hname hfree hslot).relog _
  | call _ => exact h.emit _
  | retune hp _ _ hre _ => exact h.edit hp hre.name hre.type hre.slot
  | mapped _ _ _ _ _ _ hp _ _ _ _ _ => exact (h.emit _).edit hp rfl rfl rfl
  | attached hp _ _ _ => exact (h.emit _).edit hp rfl rfl rfl
  | reprotected hp => exact (h.emit _).edit hp rfl rfl rfl
  | @unmapped segp hp hstart hmaps =>
      rw [unmapSegment_eq hstart hmaps]
      exact (h.edit (s := { g.heap segp with segStart := mapFailed }) hp rfl rfl rfl).relog _
  | freed hp _ _ => exact h.free hp

/-! ## Invariants of the single records -/

/-- Every live record has the property. -/
def AllLive (Q : Segment → Prop) (g : Glctx) : Prop := ∀ segp, g.Live segp → Q (g.heap segp)

/-- A write to one record of the table, seen from that record and the others. -/
theorem AllLive.write {Q : Segment → Prop} {g g' : Glctx} (h : AllLive Q g) {segp : SegPtr}
    {s : Segment} (hent : g'.entries = g.entries)
    (hheap : g'.heap = Function.update g.heap segp s) (hs : s.segType ≠ .segtNone → Q s) :
    AllLive Q g' := by
  intro q hq
  by_cases hne : q = segp
  · subst hne
    have hself : g'.heap q = s := by rw [hheap, Function.update_self]
    have htype := hq.2
    rw [hself] at htype ⊢
    exact hs htype
  · have heq : g'.heap q = g.heap q := by rw [hheap, Function.update_of_ne hne]
    rw [heq]
    exact h q ⟨by rw [← hent]; exact hq.1, by rw [← heq]; exact hq.2⟩

/-- A new slot is not live. -/
theorem AllLive.alloc {Q : Segment → Prop} {g : Glctx} (h : AllLive Q g) (hrep : RepInv g) :
    AllLive Q (newSlot g g.entries.length).2 := by
  intro q hq
  have hlive := (hrep.live_newSlot q).mp hq
  rw [hrep.newSlot_heap_of_mem _ hlive.1]
  exact h q hlive

/-- What every primitive step from a table in shape keeps, a sequence of them
keeps, and the table stays in shape. -/
theorem star_preserves {inv : Glctx → Prop}
    (hprim : ∀ g g', RepInv g → Prim g g' → inv g → inv g') {g g' : Glctx}
    (hstar : ReflTransGen Prim g g') (h : RepInv g) (hinv : inv g) : RepInv g' ∧ inv g' := by
  refine Trans.preserved_of_star (fun g => RepInv g ∧ inv g) ?_ hstar ⟨h, hinv⟩
  rintro s s' hstep ⟨hrep, hs⟩
  exact ⟨hstep.repInv hrep, hprim s s' hrep hstep hs⟩

end Memtoy
