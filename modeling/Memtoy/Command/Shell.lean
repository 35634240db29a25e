import Memtoy.Child.Command
import Memtoy.Lib.Scan
import Memtoy.Segment.Guard

/-!
# Command.Shell — what a command handler can do

A handler of `commands.c` is a `Cmd`: it reads what the kernel and the libraries
answer (`World`), changes the part of the global context commands work on (`Shell`),
and either goes on with a value or ends with what it returns. Next to that stands a
history of what went wrong, one `Complaint` for each message about a failure and for
each `SEG_ERR`; nothing in the code looks at it.
-/

namespace Memtoy

open CString

/-! ## Complaints -/

/-- The messages of `commands.c` about a failed command; `segErr` is a `SEG_ERR` of the
segment layer, which prints messages of its own. -/
inductive Complaint where
  | missingArg (cmd arg : CStr)
  | notNumeric (what : CStr)
  | expectedLength
  | badShare
  | badAccess
  | noNuma
  | expectedHexMask
  | tooManyCpus (max : Nat)
  | expectedComma
  | expectedCpuDigit
  | cpuTooBig (max : Nat)
  | badCpuChar (bogus : CStr)
  | unknownPolicy (pol : CStr)
  | expectedAllAfterPlus
  | expectedAllAfterMove
  | expectedMove (arg : CStr)
  | unknownMbindFlag (arg : CStr)
  | badNodeChar (bogus : CStr)
  | expectedNodeDigit
  | nodeTooBig (max : Int)
  | starPolicy
  | nodeSizeFailed (node : Nat)
  | migrateFailed
  | offsetSegment
  | bogusMemMask (args : CStr)
  | childInUse (name : CStr)
  | pipeFailed (which name : CStr)
  | forkFailed (name : CStr)
  | noChild (cmd name : CStr)
  | writeFailed (name : CStr)
  | unknownSignal (name : CStr)
  | signalRange (signum : Int)
  | setMempolicyFailed
  | ambiguous (cmd : CStr)
  | unrecognized (cmd : CStr)
  | noHelp (cmd : CStr)
  | segErr
deriving DecidableEq, Repr

/-- The text on standard error; `err` is what `strerror(errno)` gives. A character is
printed as a string of length one. -/
def Complaint.text (program err : String) : Complaint → String
  | .missingArg cmd arg =>
      let cmd := String.ofList cmd
      let arg := String.ofList arg
      s!"{program}:  command '{cmd}' missing required argument: {arg}\n\n"
  | .notNumeric what =>
      let what := String.ofList what
      s!"{program}:  segment {what} must be numeric value" ++
        " followed by optional k, m, g or p [pages] scale factor.\n"
  | .expectedLength => s!"{program}:  expected <length> after <offset>\n"
  | .badShare =>
      s!"{program}:  anon seg access type must be one of:  " ++ "'private' or 'shared'\n"
  | .badAccess => s!"{program}:  segment access must be 'r[ead]' or 'w[rite]'\n"
  | .noNuma => s!"{program}:  no NUMA support on this platform\n"
  | .expectedHexMask => s!"{program}:  expected hex mask for <cpu-list>"
  | .tooManyCpus max => s!"{program}:  too many cpus [{max} max]\n"
  | .expectedComma => s!"{program}:  expected ',' after cpu mask\n"
  | .expectedCpuDigit => s!"{program}:  expected digit for <cpu-list>\n"
  | .cpuTooBig max => s!"{program}:  cpu ids must be <= {max}\n"
  | .badCpuChar bogus =>
      let bogus := String.ofList bogus
      s!"{program}:  unexpected character '{bogus}' in cpu list\n"
  | .unknownPolicy pol =>
      let pol := String.ofList pol
      s!"{program}:  unrecognized policy {pol}\n"
  | .expectedAllAfterPlus => s!"{program}:  expected 'all' after '+'\n"
  | .expectedAllAfterMove => s!"{program}: expected 'all' after 'move'\n"
  | .expectedMove arg =>
      let arg := String.ofList arg
      s!"{program}:  expected 'move' before: {arg}\n"
  | .unknownMbindFlag arg =>
      let arg := String.ofList arg
      s!"{program}: unrecognized mbind flag: {arg}\n"
  | .badNodeChar bogus =>
      let bogus := String.ofList bogus
      s!"{program}:  unexpected character '{bogus}' in node list\n"
  | .expectedNodeDigit => s!"{program}:  expected digit for <node/list>\n"
  | .nodeTooBig max => s!"{program}:  node ids must be <= {max}\n"
  | .starPolicy => s!"{program}: '*' valid only for interleave " ++ "and preferred policies\n"
  | .nodeSizeFailed node => s!"{program}:  numa_node_size() failed for node {node}\n"
  | .migrateFailed => s!"{program}: migrate_pages() failed - {err}\n"
  | .offsetSegment => "offset must be existing segment\n"
  | .bogusMemMask args =>
      let args := String.ofList args
      s!"{program}:  bogus mem mask:  {args}  \n"
  | .childInUse name =>
      let name := String.ofList name
      s!"{program}:  child name {name} already in use\n"
  | .pipeFailed which name =>
      let which := String.ofList which
      let name := String.ofList name
      s!"{program}:  {which} pipe creation for {name} failed\n\t{err}\n"
  | .forkFailed name =>
      let name := String.ofList name
      s!"{program}:  fork() for {name} failed - {err}\n"
  | .noChild cmd name =>
      let cmd := String.ofList cmd
      let name := String.ofList name
      s!"{program}-{cmd}:  I don't have a child named {name}\n"
  | .writeFailed name =>
      let name := String.ofList name
      s!"{program}:  write to child {name} failed - {err}\n"
  | .unknownSignal name =>
      let name := String.ofList name
      s!"{program} doesn't recognize signal {name}\n"
  | .signalRange signum => s!"{program} signal out of range - {signum}\n"
  | .setMempolicyFailed => s!"{program}:  set_mempolicy() failed - {err}\n"
  | .ambiguous cmd =>
      let cmd := String.ofList cmd
      s!"{program}:  ambiguous command:  {cmd}\n"
  | .unrecognized cmd =>
      let cmd := String.ofList cmd
      s!"{program}:  unrecognized command {cmd}\n"
  | .noHelp cmd =>
      let cmd := String.ofList cmd
      s!"unrecognized command:  {cmd}\n\tuse 'help' for a complete list of commands\n"
  | .segErr => ""

/-! ## State -/

/-- What the kernel, the libraries and the signals do during one command. -/
structure World where
  kernel : Kernel
  /-- How the accesses of `touch_memory` end. -/
  pageEvent : Nat → PageEvent
  /-- Whether a signal is noticed after a row of `segment_location`. -/
  signalAfter : Nat → Bool
  /-- `numa_get_membind()` -/
  memsAllowed : Nat → Bool
  /-- `numa_node_size() >= 0` -/
  nodeSizeOk : Nat → Bool
  /-- `migrate_pages() >= 0` -/
  migrateOk : Bool
  cmdPipeOk : Bool
  respPipeOk : Bool
  /-- `fork()`, in the parent. -/
  fork : Option Pid
  /-- `cmdlen == write(childp->c_cfd, cmd_str, cmdlen)` -/
  writeOk : Bool
  getMempolicyOk : Bool
  setMempolicyOk : Bool
  /-- `cmdlen` of `help_me` when `cend` is NULL. -/
  helpLen : Nat
  /-- The children the SIGCLD handler has reaped before the command. -/
  reaped : List Pid
  /-- SIGQUIT was the last signal before the command. -/
  sigquit : Bool

/-- A segment table that calls of the segment API have led to. -/
structure Table where
  g : Glctx
  reachable : (segSpec anyOp).Reachable g

/-- The table after a call. -/
def Table.exec (t : Table) (op : Op) (hok : op.Ok) : Table :=
  ⟨op.exec t.g, t.reachable.step ⟨op, hok, trivial, rfl⟩⟩

/-- The part of `global_context` commands work on. -/
structure Shell where
  table : Table
  children : List Child
  cmdName : CStr
  numaMaxNode : Int

/-- `gcp->max_cpu_id  = MAX_CPUID` -/
def maxCpuId : Nat := 128

inductive CmdRet where
  | success
  | error
deriving DecidableEq, Repr

/-- How a handler ends: it returns, with `CMD_SUCCESS` or `CMD_ERROR` or with the value
of a variable that was not set; it calls `exit()`; it uses a pointer that is NULL or not
set, or divides by zero; or it never ends. -/
inductive Ending where
  | ret (r : CmdRet)
  | garbage
  | exit (status : Nat)
  | crash
  | hangs
deriving DecidableEq, Repr

/-! ## Handlers -/

inductive Flow (α : Type) where
  | next (a : α)
  | stop (e : Ending)

structure CmdStep (α : Type) where
  flow : Flow α
  shell : Shell
  complaints : List Complaint

def Cmd (α : Type) : Type := World → Shell → CmdStep α

namespace Cmd

variable {α β : Type}

def next (a : α) : Cmd α := fun _ s => ⟨.next a, s, []⟩

def andThen (m : Cmd α) (f : α → Cmd β) : Cmd β := fun w s =>
  match m w s with
  | ⟨.stop e, s, cs⟩ => ⟨.stop e, s, cs⟩
  | ⟨.next a, s, cs⟩ => { f a w s with complaints := cs ++ (f a w s).complaints }

instance : Monad Cmd where
  pure := next
  bind := andThen

def world : Cmd World := fun w s => ⟨.next w, s, []⟩

def shell : Cmd Shell := fun _ s => ⟨.next s, s, []⟩

def setShell (s : Shell) : Cmd Unit := fun _ _ => ⟨.next (), s, []⟩

def stop (e : Ending) : Cmd α := fun _ s => ⟨.stop e, s, []⟩

/-- `return CMD_ERROR;` -/
def cmdError : Cmd α := stop (.ret .error)

/-- Print what is to be complained about, and go on. -/
def complain (cs : List Complaint) : Cmd Unit := fun _ s => ⟨.next (), s, cs⟩

/-- `if (... == error) return CMD_ERROR;` for a function that yields a value or its
error value, and prints. -/
def orError (r : Option α × List Complaint) : Cmd α := fun _ s =>
  match r with
  | (none, cs) => ⟨.stop (.ret .error), s, cs⟩
  | (some a, cs) => ⟨.next a, s, cs⟩

/-- What a call of the segment API returns, if it does. -/
inductive SegAnswer where
  | err
  | ok
  | sigfpe
  | running
deriving DecidableEq, Repr

end Cmd

def SegRet.answer : SegRet → Cmd.SegAnswer
  | .segErr => .err
  | .segOk => .ok

def Outcome.answer {α : Type} : Outcome α → Cmd.SegAnswer
  | .segErr => .err
  | .segOk _ => .ok
  | .sigfpe => .sigfpe
  | .running => .running

/-- What a call returns; for a lookup, whether it found the segment. -/
def Op.answer : Op → Glctx → Cmd.SegAnswer
  | .get name, g => if (segmentGet g name).1 = none then .err else .ok
  | .register k type name range flags, g => (segmentRegister k g type name range flags).1.answer
  | .remove name, g => (segmentRemove g name).1.answer
  | .unmap name, g => (segmentUnmap g name).1.answer
  | .map k name range flags, g => (segmentMap k g name range flags).1.answer
  | .mprotect k name prot, g => (segmentMprotect k g name prot).1.answer
  | .touch ev fuel name range rw, g => (segmentTouch ev fuel g name range rw).1.answer
  | .mbind k name range policy nodemask flags, g =>
      (segmentMbind k g name range policy nodemask flags).1.answer
  | .location k sig fuel name range, g => (segmentLocation k sig fuel g name range).1.answer
  | .lockUnlock k name range lock shm, g => (segmentLockUnlock k g name range lock shm).1.answer

/-! ## What the callers promise -/

section Promises

variable (k : Kernel) (name : CStr) (range : Range) (flags : Flags)

theorem Op.ok_get : (Op.get name).Ok := trivial
theorem Op.ok_remove : (Op.remove name).Ok := trivial
theorem Op.ok_unmap : (Op.unmap name).Ok := trivial
theorem Op.ok_mprotect (prot : Flags) : (Op.mprotect k name prot).Ok := trivial

theorem Op.ok_register {type : SegType} (htype : type ≠ .segtNone)
    (hflags : flags &&& segfMaps = 0) : (Op.register k type name range flags).Ok :=
  ⟨htype, hflags⟩

theorem Op.ok_map (rangep : Option Range) (hflags : flags &&& segfMaps = 0) :
    (Op.map k name rangep flags).Ok := hflags

theorem Op.ok_touch (ev : Nat → PageEvent) (fuel : Nat) (rw : Bool) :
    (Op.touch ev fuel name range rw).Ok := trivial

theorem Op.ok_mbind (policy : Int) (nodemask : Option Nat) :
    (Op.mbind k name range policy nodemask flags).Ok := trivial

theorem Op.ok_location (sig : Nat → Bool) (fuel : Nat) :
    (Op.location k sig fuel name range).Ok := trivial

theorem Op.ok_lockUnlock (lock shm : Bool) : (Op.lockUnlock k name range lock shm).Ok := trivial

end Promises

/-! ## Calls of the segment API -/

/-- Turns of a loop over addresses: one that has not ended after as many as there are
addresses does not end. -/
def loopFuel : Nat := 2 ^ 64

namespace Cmd

variable {α β : Type}

/-- Call the segment API: whether it returned `SEG_OK`. -/
def callSegment (op : Op) (hok : op.Ok) : Cmd Bool := fun _ s =>
  let s' := { s with table := s.table.exec op hok }
  match op.answer s.table.g with
  | .ok => ⟨.next true, s', []⟩
  | .err => ⟨.next false, s', [.segErr]⟩
  | .sigfpe => ⟨.stop .crash, s', []⟩
  | .running => ⟨.stop .hangs, s', []⟩

/-- `if (!segment_...(...)) return CMD_ERROR;` -/
def segment (op : Op) (hok : op.Ok) : Cmd Unit := do
  if ← callSegment op hok then
    next ()
  else
    cmdError

end Cmd

/-! ## A concrete world -/

/-- A world in which every call succeeds and no signal comes. -/
def sampleWorld : World where
  kernel := sampleKernel
  pageEvent := fun _ => .completes
  signalAfter := fun _ => false
  memsAllowed := fun _ => true
  nodeSizeOk := fun _ => true
  migrateOk := true
  cmdPipeOk := true
  respPipeOk := true
  fork := some 2
  writeOk := true
  getMempolicyOk := true
  setMempolicyOk := true
  helpLen := 0
  reaped := []
  sigquit := false

def sampleShell : Shell where
  table := ⟨sampleTable, sampleTable_reachable anyOp⟩
  children := []
  cmdName := []
  numaMaxNode := 0

end Memtoy
