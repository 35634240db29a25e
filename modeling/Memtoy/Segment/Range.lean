import Memtoy.Segment.Model

/-!
# Segment.Range — touch, mbind, where and lock on a range of a segment

The four operations that work on `[offset, offset + length)` of a mapped
segment, and `touch_memory` of `memtoy.c`. Each of them looks the segment up,
passes its own guards, clamps the range to the segment and then uses the
segment's memory. A use is visible in `log`; an integer division by a page size
of zero is the outcome `sigfpe`, and a loop that has not ended within `fuel`
iterations is the outcome `running`.
-/

namespace Memtoy

open CString

/-- How a range operation ends. -/
inductive Outcome (α : Type) where
  | segErr
  | segOk (a : α)
  | sigfpe
  | running
deriving DecidableEq, Repr

/-- The computation the four operations share. `none` when the rounded offset
is past the end of the segment, otherwise the offset and the length to work on;
the length is silently truncated to the end of the segment. -/
def clampRange (s : Segment) (range : Range) : Option (Word × Word) :=
  let offset := roundDownToSegmentPagesize range.offset s
  if s.segLength ≤ offset then none
  else
    let maxlength := s.segLength - offset
    let length := if range.length ≠ 0 then roundUpToSegmentPagesize range.length s
      else range.length
    let length := if length = 0 ∨ maxlength < length then maxlength else length
    some (offset, length)

/-! ## `touch_memory` -/

/-- What happens at one iteration of the access loop: the access completes, it
faults (the handler jumps back to the iteration's `sigsetjmp`), or it completes
and a handled signal is noticed after it. -/
inductive PageEvent where
  | completes
  | faults
  | signalled
deriving DecidableEq, Repr

def sizeofLong : Word := 8#64

/-- The loop of `touch_memory`, from iteration `k` at `pp` on: the addresses
whose access completed, or `none` when it is still going after `fuel`
iterations. -/
def touchLoop (ev : Nat → PageEvent) (memend stride : Word) :
    (fuel k : Nat) → (pp : Word) → Option (List Word)
  | fuel, k, pp =>
      if memend ≤ pp then some []
      else
        match fuel with
        | 0 => none
        | fuel + 1 =>
            match ev k with
            | .faults => some []
            | .signalled => some [pp]
            | .completes => (touchLoop ev memend stride fuel (k + 1) (pp + stride)).map (pp :: ·)

/-- `touch_memory()`; bounds and stride are counted in `unsigned long`s. -/
def touchMemory (ev : Nat → PageEvent) (fuel : Nat) (memp memlen pagesize : Word) :
    Option (List Word) :=
  let longsInPage := pagesize / sizeofLong
  let memend := memp + memlen / sizeofLong * sizeofLong
  touchLoop ev memend (longsInPage * sizeofLong) fuel 0 memp

/-- What `segment_touch` reports, next to what was touched. -/
structure TouchReport where
  touched : List Word
  pages : Word
deriving DecidableEq, Repr

/-- `segment_touch()`: touch each page of the specified range. -/
def segmentTouch (ev : Nat → PageEvent) (fuel : Nat) (g : Glctx) (name : CStr) (range : Range)
    (rw : Bool) : Outcome TouchReport × Glctx :=
  match segmentGet g name with
  | (none, g) => (.segErr, g)
  | (some segp, g) =>
      let s := g.heap segp
      if rw ∧ s.isMaps then (.segErr, g)
      else
        match clampRange s range with
        | none => (.segErr, g)
        | some (offset, length) =>
            let memp := s.segStart + offset
            let g := g.emit (.touchMemory segp rw memp length s.segPagesize)
            match touchMemory ev fuel memp length s.segPagesize with
            | none => (.running, g)
            | some touched =>
                -- the report divides by the segment's page size
                if s.segPagesize = 0 then (.sigfpe, g)
                else (.segOk { touched, pages := length / s.segPagesize }, g)

/-! ## `segment_mbind` -/

/-- `segment_mbind()`: set memory policy for a range of specified segment. -/
def segmentMbind (k : Kernel) (g : Glctx) (name : CStr) (range : Range) (policy : Int)
    (nodemask : Option Nat) (flags : Flags) : Outcome Unit × Glctx :=
  match segmentGet g name with
  | (none, g) => (.segErr, g)
  | (some segp, g) =>
      let s := g.heap segp
      if s.segStart = mapFailed then (.segErr, g)
      else
        match clampRange s range with
        | none => (.segErr, g)
        | some (offset, length) =>
            let start := s.segStart + offset
            let g := g.emit (.mbind segp start length policy nodemask flags)
            if k.mbind start length policy nodemask flags then (.segOk (), g) else (.segErr, g)

/-! ## `segment_location` -/

def pgPerLine : Nat := 8
def pplMask : Flags := 7#32

/-- The pieces `segment_location` prints after the header: the label of a row,
the padding of a page before the range, the node of a page, a newline. -/
inductive WhereTok where
  | label (pgid : Flags)
  | pad
  | node (node : Int)
  | newline
deriving DecidableEq, Repr

/-- The result of the node loop: whether every `get_node` succeeded, what was
printed and which pages were asked for. -/
structure NodeRun where
  ok : Bool
  out : List WhereTok
  visited : List Word
deriving DecidableEq, Repr

/-- The padded start of a partial first row. -/
def partialRow (pgid : Flags) : List WhereTok :=
  if pgid &&& pplMask ≠ 0 then
    .label (pgid &&& ~~~pplMask) :: List.replicate (pgid &&& pplMask).toNat .pad
  else []

/-- The node loop of `segment_location`, from iteration `k` at `apage` on; `sig`
says whether a signal is noticed after an iteration. -/
def nodeLoop (getNode : Word → Int) (sig : Nat → Bool) (pagesize endp : Word) :
    (fuel k : Nat) → (apage : Word) → (pgid : Flags) → (needNl : Bool) → Option NodeRun
  | fuel, k, apage, pgid, needNl =>
      if endp ≤ apage then some { ok := true, out := [.newline], visited := [] }
      else
        match fuel with
        | 0 => none
        | fuel + 1 =>
            let node := getNode apage
            if node < 0 then some { ok := false, out := [], visited := [apage] }
            else
              let row := if pgid &&& pplMask = 0 then
                (if needNl then [.newline] else []) ++ [.label pgid] else []
              let needNl := if pgid &&& pplMask = 0 then true else needNl
              let out := row ++ [.node node]
              if sig k then
                some { ok := true, out := out ++ [.newline], visited := [apage] }
              else
                (nodeLoop getNode sig pagesize endp fuel (k + 1) (apage + pagesize) (pgid + 1)
                  needNl).map fun r =>
                    { r with out := out ++ r.out, visited := apage :: r.visited }

/-- `segment_location()`: report node location of specified range of segment. -/
def segmentLocation (k : Kernel) (sig : Nat → Bool) (fuel : Nat) (g : Glctx) (name : CStr)
    (range : Range) : Outcome (List WhereTok) × Glctx :=
  match segmentGet g name with
  | (none, g) => (.segErr, g)
  | (some segp, g) =>
      let s := g.heap segp
      if s.segStart = mapFailed then (.segErr, g)
      else
        let range := if range.length = defaultLength then
          { range with length := 64#64 * s.segPagesize } else range
        match clampRange s range with
        | none => (.segErr, g)
        | some (offset, length) =>
            let apage := s.segStart + offset
            if s.segPagesize = 0 then (.sigfpe, g)
            else
              let pgid := (offset / s.segPagesize).truncate 32
              match nodeLoop k.getNode sig s.segPagesize (apage + length) fuel 0 apage pgid
                  (pgid &&& pplMask != 0) with
              | none => (.running, g)
              | some run =>
                  let g := { g with log := g.log ++ run.visited.map (.getNode segp) }
                  if run.ok then (.segOk (partialRow pgid ++ run.out), g) else (.segErr, g)

/-! ## `segment_lock_unlock` -/

/-- `segment_lock_unlock()`: mlock/munlock a [range of a] mapped segment, or
SHM_LOCK/SHM_UNLOCK a shared memory segment. -/
def segmentLockUnlock (k : Kernel) (g : Glctx) (name : CStr) (range : Range) (lock shm : Bool) :
    Outcome Unit × Glctx :=
  match segmentGet g name with
  | (none, g) => (.segErr, g)
  | (some segp, g) =>
      let s := g.heap segp
      if s.segStart = mapFailed then (.segErr, g)
      else if shm then
        -- no range for SHM_[UN]LOCK, just do it
        if s.segType ≠ .segtShm then (.segErr, g)
        else
          let g := g.emit (.shmLock segp s.segShmid lock)
          if k.shmLock s.segShmid lock then (.segOk (), g) else (.segErr, g)
      else
        match clampRange s range with
        | none => (.segErr, g)
        | some (offset, length) =>
            let start := s.segStart + offset
            let g := g.emit (.mlock segp lock start length)
            if k.mlock lock start length then (.segOk (), g) else (.segErr, g)

end Memtoy
