import Mathlib.Logic.Function.Basic
import Memtoy.Lib.CString

/-!
# Segment.Model — the segment table of `segment.c`

The data model and the functions of `segment.c`, one definition per function,
with explicit state passing over the part of `global_context` they use.

* A `segment_t *` is the number of the `calloc` that made it; the structures
  themselves live in `heap`. They are never freed, only cleared.
* `seglist` is the raw array of `MAX_SEGMENTS + 1` pointers, NULL entries
  included, so that the scans can be followed entry by entry.
* What the kernel answers is a `Kernel`, one per call of the API: every
  outcome of every system call is some `Kernel`.
* `log` is a history variable: the system calls issued so far, each with the
  segment it was issued for and its result.

`calloc` and `strdup` succeed throughout.
-/

namespace Memtoy

open CString

/-! ## Machine words, flags and constants -/

/-- `unsigned long`, `size_t`, `off_t` and `void *`: 64-bit patterns. -/
abbrev Word := BitVec 64

/-- An `int` used as a set of flags. -/
abbrev Flags := BitVec 32

/-- A `segment_t *` other than NULL. -/
abbrev SegPtr := Nat

def maxSegments : Nat := 63

/-- `(void *)-1`, the failure result of `mmap` and `shmat`. -/
def mapFailed : Word := BitVec.allOnes 64

def segFdNone : Int := -1
def shmIdNone : Int := -1

/-- `BOGUS_SIZE` and `DEFAULT_LENGTH` are both `(size_t)-1`. -/
def bogusSize : Word := BitVec.allOnes 64
def defaultLength : Word := BitVec.allOnes 64

/-- `SEGF_MAPS`: segment from `/proc/<mypid>/maps`. -/
def segfMaps : Flags := 0x80000000#32

def mapShared : Flags := 0x1#32
def mapPrivate : Flags := 0x2#32
def mapFixed : Flags := 0x10#32
def mapAnonymous : Flags := 0x20#32
def shmHugetlb : Flags := 0x800#32
def shmR : Flags := 0x100#32
def shmW : Flags := 0x80#32
def protRead : Flags := 0x1#32
def protWrite : Flags := 0x2#32
def protExec : Flags := 0x4#32

/-- The `seg_type_t` of a segment; `segtNone` marks an unused slot. -/
inductive SegType where
  | segtNone
  | segtAnon
  | segtFile
  | segtShm
deriving DecidableEq, Repr

/-- The return value of the segment API. -/
inductive SegRet where
  | segErr
  | segOk
deriving DecidableEq, Repr

/-- The mode `open_file` opens a file in. -/
inductive OpenMode where
  | rdwr
  | rdonly
  | wronly
deriving DecidableEq, Repr

/-- `range_t`. -/
structure Range where
  offset : Word
  length : Word
  start : Word
deriving DecidableEq, Repr

/-- `struct segment`. -/
structure Segment where
  segName : Option CStr
  segStart : Word
  segLength : Word
  segOffset : Word
  segPath : Option CStr
  segPagesize : Word
  segType : SegType
  segSlot : Nat
  segFlags : Flags
  segProt : Flags
  segFd : Int
  segShmid : Int
deriving DecidableEq, Repr

/-- The all-zero structure `calloc` returns and `memset` leaves. -/
def Segment.zero : Segment where
  segName := none
  segStart := 0
  segLength := 0
  segOffset := 0
  segPath := none
  segPagesize := 0
  segType := .segtNone
  segSlot := 0
  segFlags := 0
  segProt := 0
  segFd := 0
  segShmid := 0

/-- `seg_flags & SEGF_MAPS`. -/
def Segment.isMaps (s : Segment) : Bool := s.segFlags &&& segfMaps != 0

/-! ## The kernel -/

/-- What the kernel answers to the calls made during one API call. -/
structure Kernel where
  /-- `none` when `stat` fails, otherwise `S_ISREG(st_mode)`. -/
  stat : CStr → Option Bool
  /-- `access(path, mode) == 0`, for R_OK|W_OK, R_OK and W_OK. -/
  access : CStr → OpenMode → Bool
  /-- The descriptor, or a negative number. -/
  openFile : CStr → OpenMode → Int
  /-- The size, or `none` when `fstat` fails. -/
  fstat : Int → Option Word
  /-- `shmget(IPC_PRIVATE, size, shmflg)`. -/
  shmget : Word → Flags → Int
  shmat : Int → Word
  /-- `shmctl` with `SHM_LOCK` or `SHM_UNLOCK` succeeds. -/
  shmLock : Int → Bool → Bool
  /-- `mmap(addr, length, prot, flags, fd, offset)`. -/
  mmap : Word → Word → Flags → Flags → Int → Word → Word
  /-- `mprotect(addr, length, prot) == 0`. -/
  mprotect : Word → Word → Flags → Bool
  /-- `mbind(start, length, policy, nodebits, flags) != -1`. -/
  mbind : Word → Word → Int → Option Nat → Flags → Bool
  /-- `get_node()`: the node of the page at an address, or -1. -/
  getNode : Word → Int
  /-- `mlock`/`munlock` `!= -1`. -/
  mlock : Bool → Word → Word → Bool

/-- The calls the segment layer issues on a segment's resources, each with the
segment it is issued for. Calls that create something carry what came back. -/
inductive SysCall where
  | openFile (segp : SegPtr) (path : CStr) (mode : OpenMode) (fd : Int)
  | close (segp : SegPtr) (fd : Int)
  | shmget (segp : SegPtr) (size : Word) (shmflg : Flags) (shmid : Int)
  | shmRmid (segp : SegPtr) (shmid : Int)
  | shmLock (segp : SegPtr) (shmid : Int) (lock : Bool)
  | shmat (segp : SegPtr) (shmid : Int) (start : Word)
  | shmdt (segp : SegPtr) (start : Word)
  | mmap (segp : SegPtr) (addr length : Word) (prot flags : Flags) (fd : Int)
      (offset : Word) (memp : Word)
  | munmap (segp : SegPtr) (start length : Word)
  | mprotect (segp : SegPtr) (start length : Word) (prot : Flags) (ok : Bool)
  | touchMemory (segp : SegPtr) (rw : Bool) (memp length pagesize : Word)
  | mbind (segp : SegPtr) (start length : Word) (policy : Int) (nodebits : Option Nat)
      (flags : Flags)
  | getNode (segp : SegPtr) (vaddr : Word)
  | mlock (segp : SegPtr) (lock : Bool) (start length : Word)
deriving DecidableEq, Repr

/-! ## The table -/

/-- The part of `global_context` the segment layer works on. -/
structure Glctx where
  pagesize : Word
  hugePagesize : Word
  heap : SegPtr → Segment
  /-- The next pointer `calloc` hands out. -/
  brk : SegPtr
  seglist : List (Option SegPtr)
  segAvail : Option SegPtr
  log : List SysCall

namespace Glctx

/-- Write a segment structure. -/
def setSeg (g : Glctx) (segp : SegPtr) (s : Segment) : Glctx :=
  { g with heap := Function.update g.heap segp s }

/-- Issue a system call. -/
def emit (g : Glctx) (c : SysCall) : Glctx :=
  { g with log := g.log ++ [c] }

variable (g : Glctx) (segp : SegPtr) (s : Segment) (c : SysCall)

@[simp] theorem setSeg_heap : (g.setSeg segp s).heap = Function.update g.heap segp s := rfl
@[simp] theorem setSeg_brk : (g.setSeg segp s).brk = g.brk := rfl
@[simp] theorem setSeg_seglist : (g.setSeg segp s).seglist = g.seglist := rfl
@[simp] theorem setSeg_segAvail : (g.setSeg segp s).segAvail = g.segAvail := rfl
@[simp] theorem setSeg_log : (g.setSeg segp s).log = g.log := rfl
@[simp] theorem setSeg_pagesize : (g.setSeg segp s).pagesize = g.pagesize := rfl
@[simp] theorem setSeg_hugePagesize : (g.setSeg segp s).hugePagesize = g.hugePagesize := rfl

/-- The last write to a structure is the one that counts. -/
@[simp] theorem setSeg_setSeg (s' : Segment) :
    (g.setSeg segp s).setSeg segp s' = g.setSeg segp s' := by
  simp [setSeg]

@[simp] theorem emit_heap : (g.emit c).heap = g.heap := rfl
@[simp] theorem emit_brk : (g.emit c).brk = g.brk := rfl
@[simp] theorem emit_seglist : (g.emit c).seglist = g.seglist := rfl
@[simp] theorem emit_segAvail : (g.emit c).segAvail = g.segAvail := rfl
@[simp] theorem emit_log : (g.emit c).log = g.log ++ [c] := rfl
@[simp] theorem emit_pagesize : (g.emit c).pagesize = g.pagesize := rfl
@[simp] theorem emit_hugePagesize : (g.emit c).hugePagesize = g.hugePagesize := rfl

end Glctx

/-- `*segpp = segp = new_segment(); segp->seg_slot = segpp - gcp->seglist;`
with `segpp` at index `i`. -/
def newSlot (g : Glctx) (i : Nat) : SegPtr × Glctx :=
  (g.brk,
    { g with
      heap := Function.update g.heap g.brk { Segment.zero with segSlot := i }
      brk := g.brk + 1
      seglist := g.seglist.set i (some g.brk) })

/-- How a scan of `seglist` for an unused slot ends: at a slot, or at the NULL
entry with index `i`. -/
inductive SlotScan where
  | found (segp : SegPtr)
  | stop (i : Nat)
deriving DecidableEq, Repr

/-- The `for` loop of `get_seg_slot`, from the entry with index `i` on. -/
def scanUnused (heap : SegPtr → Segment) : List (Option SegPtr) → Nat → SlotScan
  | [], i => .stop i
  | none :: _, i => .stop i
  | some segp :: rest, i =>
      if (heap segp).segType = .segtNone then .found segp else scanUnused heap rest (i + 1)

/-- `get_seg_slot()`: allocate a segment table slot for a new segment. -/
def getSegSlot (g : Glctx) : Option SegPtr × Glctx :=
  match g.segAvail with
  | some segp => (some segp, { g with segAvail := none })
  | none =>
      match scanUnused g.heap g.seglist 0 with
      | .found segp => (some segp, g)
      | .stop i =>
          if i < maxSegments then
            -- previously unused slot
            ((newSlot g i).1, (newSlot g i).2)
          else (none, g)

/-- `unmap_segment()`: common to `segment_unmap()` and `segment_remove()`. -/
def unmapSegment (g : Glctx) (segp : SegPtr) : Glctx :=
  let s := g.heap segp
  if s.segStart = mapFailed ∨ s.isMaps then g
  else
    let g := match s.segType with
      | .segtAnon | .segtFile => g.emit (.munmap segp s.segStart s.segLength)
      | .segtShm => g.emit (.shmdt segp s.segStart)
      | .segtNone => g
    g.setSeg segp { s with segStart := mapFailed }

/-- `free_seg_slot()`: clear out the segment, but preserve slot #. -/
def freeSegSlot (g : Glctx) (segp : SegPtr) : Glctx :=
  let s := g.heap segp
  let g := if s.segType = .segtFile ∧ s.segFd ≠ segFdNone then
    g.emit (.close segp s.segFd) else g
  let g := if s.segType = .segtShm ∧ s.segShmid ≠ shmIdNone then
    g.emit (.shmRmid segp s.segShmid) else g
  let g := g.setSeg segp { Segment.zero with segSlot := s.segSlot }
  if g.segAvail = none then { g with segAvail := some segp } else g

/-- The `for` loop of `segment_cleanup`. -/
def cleanupScan : List (Option SegPtr) → Glctx → Glctx
  | [], g => g
  | none :: _, g => g
  | some segp :: rest, g =>
      if (g.heap segp).segType ≠ .segtShm then cleanupScan rest g
      else cleanupScan rest (freeSegSlot g segp)

/-- `segment_cleanup()`: called from the "at exit" `cleanup()`. -/
def segmentCleanup (g : Glctx) : Glctx := cleanupScan g.seglist g

/-! ## Rounding -/

def roundUpToSegmentPagesize (size : Word) (s : Segment) : Word :=
  let pagemask := s.segPagesize - 1
  (size + pagemask) &&& ~~~pagemask

def roundDownToSegmentPagesize (size : Word) (s : Segment) : Word :=
  let pagemask := s.segPagesize - 1
  size &&& ~~~pagemask

/-- Set the page size, then round the length up and the offset down to it: the
opening lines of `map_anon_segment`, `map_file_segment` and `get_shm_segment`. -/
def Segment.pageAlign (s : Segment) (pagesize : Word) : Segment :=
  let s := { s with segPagesize := pagesize }
  let s := { s with segLength := roundUpToSegmentPagesize s.segLength s }
  { s with segOffset := roundDownToSegmentPagesize s.segOffset s }

/-! ## Creating and mapping segments -/

/-- `if (!flags) flags = MAP_PRIVATE;` -/
def defaultPrivate (flags : Flags) : Flags := if flags = 0 then mapPrivate else flags

/-- `map_anon_segment()`. -/
def mapAnonSegment (k : Kernel) (g : Glctx) (segp : SegPtr) : SegRet × Glctx :=
  let flags := (g.heap segp).segFlags
  let s := (g.heap segp).pageAlign g.pagesize
  let g := g.setSeg segp s
  let flags := defaultPrivate flags
  let flags := if s.segOffset ≠ 0 then flags ||| mapFixed else flags
  let flags := flags ||| mapAnonymous
  let memp := k.mmap s.segOffset s.segLength s.segProt flags 0 0
  let g := g.emit (.mmap segp s.segOffset s.segLength s.segProt flags 0 0 memp)
  if memp = mapFailed then (.segErr, g)
  else (.segOk, g.setSeg segp { s with segStart := memp })

/-- `open_file()`: open and validate file when registering a file segment. -/
def openFile (k : Kernel) (g : Glctx) (segp : SegPtr) : SegRet × Glctx :=
  let s := g.heap segp
  let path := s.segPath.getD []
  if k.stat path ≠ some true then (.segErr, freeSegSlot g segp)
  else
    -- open with maximal privileges, adjust the protections if need be
    let mode :=
      if k.access path .rdwr then some (OpenMode.rdwr, s.segProt)
      else if k.access path .rdonly then some (.rdonly, s.segProt &&& ~~~protWrite)
      else if k.access path .wronly then some (.wronly, s.segProt &&& ~~~protRead)
      else none
    match mode with
    | none => (.segErr, freeSegSlot g segp)
    | some (flags, prot) =>
        let s := { s with segProt := prot }
        let g := g.setSeg segp s
        let fd := k.openFile path flags
        let g := g.emit (.openFile segp path flags fd)
        if fd < 0 then (.segErr, freeSegSlot g segp)
        else (.segOk, g.setSeg segp { s with segFd := fd })

/-- `file_size()`: re-fetch file size at map time. -/
def fileSize (k : Kernel) (fd : Int) : Word := (k.fstat fd).getD bogusSize

/-- `map_file_segment()`: map a [range of a] registered file segment. -/
def mapFileSegment (k : Kernel) (g : Glctx) (segp : SegPtr) : SegRet × Glctx :=
  let flags := (g.heap segp).segFlags
  let s := (g.heap segp).pageAlign g.pagesize
  let g := g.setSeg segp s
  let flags := defaultPrivate flags
  let fd := s.segFd
  if fd = segFdNone then (.segErr, g)
  else
    let size := fileSize k fd
    let s := { s with segOffset := roundDownToSegmentPagesize s.segOffset s }
    let g := g.setSeg segp s
    if size < s.segOffset then (.segErr, g)
    else
      let s := { s with
        segLength :=
          if s.segLength = 0 then roundUpToSegmentPagesize size s - s.segOffset
          else roundUpToSegmentPagesize s.segLength s }
      let g := g.setSeg segp s
      let memp := k.mmap 0 s.segLength s.segProt flags fd s.segOffset
      let g := g.emit (.mmap segp 0 s.segLength s.segProt flags fd s.segOffset memp)
      if memp = mapFailed then (.segErr, g)
      else (.segOk, g.setSeg segp { s with segStart := memp })

/-- `get_shm_segment()`: create [shmget] a new shared memory segment. -/
def getShmSegment (k : Kernel) (g : Glctx) (segp : SegPtr) : SegRet × Glctx :=
  let shmflg := shmR ||| shmW ||| ((g.heap segp).segFlags &&& shmHugetlb)
  let pagesize := if shmflg &&& shmHugetlb ≠ 0 then g.hugePagesize else g.pagesize
  let s := (g.heap segp).pageAlign pagesize
  let g := g.setSeg segp s
  let shmid := k.shmget s.segLength shmflg
  let g := g.emit (.shmget segp s.segLength shmflg shmid)
  if shmid = shmIdNone then (.segErr, freeSegSlot g segp)
  else (.segOk, g.setSeg segp { s with segShmid := shmid })

/-- `map_shm_segment()`: attach [shmat] a shared memory segment. -/
def mapShmSegment (k : Kernel) (g : Glctx) (segp : SegPtr) : SegRet × Glctx :=
  let s := g.heap segp
  let start := k.shmat s.segShmid
  let g := g.emit (.shmat segp s.segShmid start)
  let g := g.setSeg segp { s with segStart := start }
  if start = mapFailed then (.segErr, g) else (.segOk, g)

/-! ## Segment API -/

/-- How the scan of `segment_get` ends, with the value of `seg_avail` then: at
the segment with the name, or at the NULL entry with index `i`. -/
inductive NameScan where
  | hit (segp : SegPtr) (avail : Option SegPtr)
  | miss (avail : Option SegPtr) (i : Nat)
deriving DecidableEq, Repr

/-- The `for` loop of `segment_get`, from the entry with index `i` on. It
remembers the first unused slot it passes in `seg_avail`. -/
def scanName (heap : SegPtr → Segment) (name : CStr) :
    List (Option SegPtr) → Option SegPtr → Nat → NameScan
  | [], avail, i => .miss avail i
  | none :: _, avail, i => .miss avail i
  | some segp :: rest, avail, i =>
      if (heap segp).segType = .segtNone then
        scanName heap name rest (if avail = none then some segp else avail) (i + 1)
      else if (heap segp).segName = some name then .hit segp avail
      else scanName heap name rest avail (i + 1)

/-- `segment_get()`: lookup named segment. -/
def segmentGet (g : Glctx) (name : CStr) : Option SegPtr × Glctx :=
  match scanName g.heap name g.seglist g.segAvail 0 with
  | .hit segp avail => (some segp, { g with segAvail := avail })
  | .miss avail i =>
      let g := { g with segAvail := avail }
      if avail = none ∧ i < maxSegments then
        -- prealloc an available segment
        (none, { (newSlot g i).2 with segAvail := some (newSlot g i).1 })
      else (none, g)

/-- The record `segment_register` writes before it turns to the kernel; `slot`
is the slot's old contents. -/
def newRecord (slot : Segment) (type : SegType) (name : CStr) (range : Range)
    (flags : Flags) : Segment :=
  { slot with
    segName := some (basename name)
    segStart := mapFailed
    segLength := range.length
    segOffset := range.offset
    segType := type
    segFlags := flags
    segProt := protRead ||| protWrite
    segFd := segFdNone
    segShmid := shmIdNone }

/-- The record of a segment from `/proc/<mypid>/maps`. -/
def mapsRecord (s : Segment) (name : CStr) (range : Range) : Segment :=
  let s := { s with segStart := range.start }
  if s.segType = .segtFile then
    { s with segPath := some name, segProt := s.segProt ||| protExec }
  else s

theorem mapsRecord_eq (s : Segment) (name : CStr) (range : Range) :
    mapsRecord s name range = { s with
      segStart := range.start
      segPath := if s.segType = .segtFile then some name else s.segPath
      segProt := if s.segType = .segtFile then s.segProt ||| protExec else s.segProt } := by
  by_cases hfile : s.segType = .segtFile <;> simp [mapsRecord, hfile]

/-- `segment_register()`: register an anon, file or shm segment based on args. -/
def segmentRegister (k : Kernel) (g : Glctx) (type : SegType) (name : CStr) (range : Range)
    (flags : Flags) : SegRet × Glctx :=
  match segmentGet g (basename name) with
  | (some _, g) => (if flags &&& segfMaps ≠ 0 then .segOk else .segErr, g)
  | (none, g) =>
      let name := basenameEdit name
      match getSegSlot g with
      | (none, g) => (.segErr, g)
      | (some segp, g) =>
          let s := newRecord (g.heap segp) type name range flags
          if flags &&& segfMaps ≠ 0 then (.segOk, g.setSeg segp (mapsRecord s name range))
          else
            match type with
            | .segtFile => openFile k (g.setSeg segp { s with segPath := some name }) segp
            | .segtShm => getShmSegment k (g.setSeg segp s) segp
            | .segtAnon | .segtNone => (.segOk, g.setSeg segp s)

/-- `segment_remove()`: remove the specified segment, if exists. -/
def segmentRemove (g : Glctx) (name : CStr) : SegRet × Glctx :=
  match segmentGet g name with
  | (none, g) => (.segErr, g)
  | (some segp, g) =>
      if (g.heap segp).isMaps then (.segErr, g)
      else (.segOk, freeSegSlot (unmapSegment g segp) segp)

/-- `segment_unmap()`: unmap the specified segment, leave it in the table. -/
def segmentUnmap (g : Glctx) (name : CStr) : SegRet × Glctx :=
  match segmentGet g name with
  | (none, g) => (.segErr, g)
  | (some segp, g) =>
      if (g.heap segp).isMaps then (.segErr, g)
      else (.segOk, unmapSegment g segp)

/-- `if (flags != 0) segp->seg_flags = flags;` -/
def Segment.overrideFlags (s : Segment) (flags : Flags) : Segment :=
  if flags ≠ 0 then { s with segFlags := flags } else s

/-- `if (range != NULL) { ... }` of `segment_map`. -/
def Segment.overrideRange (s : Segment) : Option Range → Segment
  | none => s
  | some range => { s with segOffset := range.offset, segLength := range.length }

/-- `segment_map()`: [re] map a previously unmapped segment, no-op if already
mapped. -/
def segmentMap (k : Kernel) (g : Glctx) (name : CStr) (range : Option Range) (flags : Flags) :
    SegRet × Glctx :=
  match segmentGet g name with
  | (none, g) => (.segErr, g)
  | (some segp, g) =>
      let s := g.heap segp
      if s.segStart ≠ mapFailed then (.segOk, g)
      else
        match s.segType with
        | .segtAnon => mapAnonSegment k (g.setSeg segp (s.overrideFlags flags)) segp
        | .segtFile =>
            mapFileSegment k (g.setSeg segp ((s.overrideFlags flags).overrideRange range)) segp
        | .segtShm => mapShmSegment k g segp
        | .segtNone => (.segErr, g)

/-- `segment_range()`. -/
def segmentRange (g : Glctx) (name : CStr) : Option Range × Glctx :=
  match segmentGet g name with
  | (none, g) => (none, g)
  | (some segp, g) =>
      (some { offset := (g.heap segp).segOffset, length := (g.heap segp).segLength, start := 0 }, g)

/-- `segment_mprotect()`. -/
def segmentMprotect (k : Kernel) (g : Glctx) (name : CStr) (prot : Flags) : SegRet × Glctx :=
  match segmentGet g name with
  | (none, g) => (.segErr, g)
  | (some segp, g) =>
      let s := g.heap segp
      let ok := k.mprotect s.segStart s.segLength prot
      let g := g.emit (.mprotect segp s.segStart s.segLength prot ok)
      if ok then (.segOk, g.setSeg segp { s with segProt := prot }) else (.segErr, g)

end Memtoy
