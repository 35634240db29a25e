import Memtoy.Command.Args

/-!
# Command.Handlers — the command functions

One definition for each function in `cmd_table`, in the order of the source. What a
handler prints on standard output is left out. `args` is what follows the command's name
on a line without trailing blanks.
-/

namespace Memtoy

open CString Cmd

/-! ## Shared openings -/

/-- `if (!required_arg(args, arg_name)) return CMD_ERROR;` -/
def required (args argName : CStr) : Cmd Unit := do
  let s ← shell
  orError (requiredArg s.cmdName args argName)

/-- Skip blanks, insist on an argument, and take it off. -/
def takeArg (args argName : CStr) : Cmd (CStr × CStr) := do
  let args := skipBlanks args
  required args argName
  return nextToken args

def takeSegName (args : CStr) : Cmd (CStr × CStr) := takeArg args "<seg-name>".toList

/-- `if (get_range(args, &range, &nextarg) == CMD_ERROR) return CMD_ERROR;` -/
def takeRange (args : CStr) : Cmd (Range × CStr) := do
  let s ← shell
  orError (getRange s.table.g.pagesize args)

/-- `if (!numa_supported(gcp)) return CMD_ERROR;` -/
def needNuma : Cmd Unit := do
  let s ← shell
  orError (numaSupported s.numaMaxNode)

/-- The `<size>` argument of `anon` and `shmem`. -/
def takeSize (args : CStr) : Cmd (Word × CStr) := do
  required args "<size>".toList
  let s ← shell
  let (tok, args) := nextToken args
  let length ← orError (getScaledValue s.table.g.pagesize tok "size".toList)
  return (length, args)

/-! ## General commands -/

/-- `quit()` -/
def quit (_args : CStr) : Cmd Unit := stop (.exit 0)

/-- `show_pid()` -/
def showPid (_args : CStr) : Cmd Unit := return ()

/-- `pause_me()` -/
def pauseMe (_args : CStr) : Cmd Unit := return ()

/-- The nodes of `get_current_nodeid_list()`, in order. -/
def currentNodes (w : World) (numaMaxNode : Int) : List Nat :=
  (List.range (numaMaxNode + 1).toNat).filter w.memsAllowed

/-- `numa_info()` -/
def numaInfo (_args : CStr) : Cmd Unit := do
  needNuma
  let w ← world
  let s ← shell
  match (currentNodes w s.numaMaxNode).find? (! w.nodeSizeOk ·) with
  | some node =>
      complain [.nodeSizeFailed node]
      cmdError
  | none => return ()

/-- The `<from-node-id[s]>` of `migrate_process`, the current nodes by default. -/
def takeFromNodes (args : CStr) : Cmd Unit := do
  let w ← world
  let s ← shell
  if args ≠ [] then
    let _ ← orError (getNodemask s.numaMaxNode (nextToken args).1)
    return ()
  else if currentNodes w s.numaMaxNode = [] then cmdError
  else return ()

/-- `migrate_process()` -/
def migrateProcess (args : CStr) : Cmd Unit := do
  needNuma
  required args "<to-node-id[s]>".toList
  let s ← shell
  let (idlist, args) := nextToken args
  let _ ← orError (getNodemask s.numaMaxNode idlist)
  takeFromNodes args
  let w ← world
  if w.migrateOk then
    return ()
  else
    complain [.migrateFailed]
    cmdError

/-! ## Segments -/

/-- `show_seg()` with `segment_show()`. -/
def showSeg (args : CStr) : Cmd Unit := do
  let args := skipBlanks args
  if args = [] ∨ args.head? = some '+' then
    return ()
  else
    segment (.get (nextToken args).1) (Op.ok_get _)

/-- `segment_range(name, &range)` -/
def callSegmentRange (name : CStr) : Cmd (Option Range) := fun _ s =>
  ⟨.next (segmentRange s.table.g name).1, { s with table := s.table.exec (.get name) (Op.ok_get name) }, []⟩

/-- One turn of the option loop of `anon_seg`. -/
def anonOption (tok : CStr) (range : Range) (segflag : SegFlags) : Cmd (Range × SegFlags) :=
  if abbreviates tok wordShared then return (range, flagsShared)
  else if abbreviates tok wordPrivate then return (range, flagsPrivate)
  else
    -- name=value argument
    match strtokR ['='] tok with
    | (none, _) => stop .crash
    | (some name, value) =>
        -- `strlen(args)`, with leading '='
        let len := (tok.takeWhile (· = '=')).length + name.length
        if strncasecmpEq name "addr".toList len then
          return ({ range with offset := (strtol value 16).1 }, segflag)
        else if strncasecmpEq name "offset".toList len then do
          match ← callSegmentRange value with
          | none =>
              complain [.offsetSegment]
              stop .garbage
          | some segrange =>
              return ({ range with offset := segrange.offset + segrange.length }, segflag)
        else return (range, segflag)

/-- The option loop of `anon_seg`. -/
def anonOptions : List CStr → Range → SegFlags → Cmd (Range × SegFlags)
  | [], range, segflag => return (range, segflag)
  | tok :: toks, range, segflag => do
      let (range, segflag) ← anonOption tok range segflag
      anonOptions toks range segflag

/-- `anon_seg()` -/
def anonSeg (args : CStr) : Cmd Unit := do
  let (segname, args) ← takeSegName args
  let (length, args) ← takeSize args
  let (range, segflag) ← anonOptions (tokens whitespace args) ⟨0, length, 0⟩ flagsPrivate
  let w ← world
  segment (.register w.kernel .segtAnon segname range segflag.1)
    (Op.ok_register _ _ _ _ (by decide) segflag.2)

/-- `file_seg()` -/
def fileSeg (args : CStr) : Cmd Unit := do
  let (pathname, args) ← takeArg args "<path-name>".toList
  let (range, args) ← takeRange args
  let segflag ← if args ≠ [] then orError (getShared args) else next flagsPrivate
  let w ← world
  segment (.register w.kernel .segtFile pathname range segflag.1)
    (Op.ok_register _ _ _ _ (by decide) segflag.2)

/-- The loop of `remove_seg`. -/
def removeAll : List CStr → Cmd Unit
  | [] => return ()
  | segname :: segnames => do
      segment (.remove segname) (Op.ok_remove segname)
      removeAll segnames

/-- `remove_seg()` -/
def removeSeg (args : CStr) : Cmd Unit := do
  let args := skipBlanks args
  required args "<seg-name>".toList
  removeAll (tokens whitespace args)

/-- `touch_seg()` -/
def touchSeg (args : CStr) : Cmd Unit := do
  let (segname, args) ← takeSegName args
  let (range, args) ← takeRange args
  let write ← orError (getAccess args)
  let w ← world
  segment (.touch w.pageEvent loopFuel segname range write) (Op.ok_touch _ _ _ _ _)

/-- `unmap_seg()` -/
def unmapSeg (args : CStr) : Cmd Unit := do
  let (segname, _) ← takeSegName args
  segment (.unmap segname) (Op.ok_unmap segname)

/-- `map_seg()` -/
def mapSeg (args : CStr) : Cmd Unit := do
  let (segname, args) ← takeSegName args
  let (range, nextarg) ← takeRange args
  -- override any registered range
  let rangep := if args ≠ nextarg then some range else none
  let segflag ← if nextarg ≠ [] then orError (getShared nextarg) else next flagsNone
  let w ← world
  segment (.map w.kernel segname rangep segflag.1) (Op.ok_map _ _ _ _ segflag.2)

/-- The rest of `mbind_seg` once there is a policy; `nextarg` is where it goes on. -/
def mbindWith (segname : CStr) (range : Range) (policy : Int) (nextarg : CStr) : Cmd Unit := do
  let args := skipBlanks nextarg
  let (flags, nextarg) ←
    if args.head? = some '+' then orError (getMbindFlags args.tail) else next (0, nextarg)
  let s ← shell
  let nodes ← orError (getArgNodemask s.cmdName s.numaMaxNode (skipBlanks nextarg) policy)
  let w ← world
  segment (.mbind w.kernel segname range policy (nodes.map nodeBits) flags)
    (Op.ok_mbind _ _ _ _ _ _)

/-- `mbind_seg()` -/
def mbindSeg (args : CStr) : Cmd Unit := do
  needNuma
  let (segname, args) ← takeSegName args
  let (range, args) ← takeRange args
  required args "<policy>".toList
  let (policy, nextarg, cs) := getMbindPolicy args
  complain cs
  -- without a policy `nextarg` is still the one of `get_range`
  if policy < 0 then cmdError else mbindWith segname range policy (nextarg.getD args)

/-- `shmem_seg()` -/
def shmemSeg (args : CStr) : Cmd Unit := do
  let (segname, args) ← takeSegName args
  let (length, args) ← takeSize args
  let segflag := if args ≠ [] ∧ abbreviates (nextToken args).1 "huge".toList then flagsHuge
    else flagsShared
  let w ← world
  segment (.register w.kernel .segtShm segname ⟨0, length, 0⟩ segflag.1)
    (Op.ok_register _ _ _ _ (by decide) segflag.2)

/-- `where_seg()` -/
def whereSeg (args : CStr) : Cmd Unit := do
  needNuma
  let (segname, args) ← takeSegName args
  let (range, nextarg) ← takeRange args
  let range := if args = nextarg then { range with length := defaultLength } else range
  let w ← world
  segment (.location w.kernel w.signalAfter loopFuel segname range) (Op.ok_location _ _ _ _ _)

/-- `*args == '0' && tolower(*(args+1)) == 'x'` -/
def startsWithHex (args : CStr) : Bool :=
  args.head? = some '0' ∧ args.tail.head?.map Char.toLower = some 'x'

/-- The set `cpus` passes to `sched_setaffinity`, with what its parser returned. -/
def cpusArg (args : CStr) : Option (Nat × CpuSet) × List Complaint :=
  if startsWithHex args then getCpusetFromMask args else getCpusetFromIds args

/-- `cpus()`: the result of `sched_setaffinity` is not looked at. -/
def cpus (args : CStr) : Cmd Unit := do
  let args := skipBlanks args
  if args = [] then
    return ()
  else
    let _ ← orError (cpusArg args)

/-- The mask argument of `mems`. -/
def getMemMask (args : CStr) : Option Unit × List Complaint :=
  let r := strtoul args 0
  if r.1 = 0 ∨ r.2 ≠ [] then (none, [.bogusMemMask args]) else (some (), [])

/-- `show_mems` of `mems()`: `mems_allowed` is only set where there is NUMA support. -/
def showMems : Cmd Unit := do
  let s ← shell
  if s.numaMaxNode ≤ 0 then
    complain [.noNuma]
    stop .crash
  else
    return ()

/-- `mems()` -/
def mems (args : CStr) : Cmd Unit := do
  let args := skipBlanks args
  let s ← shell
  if args = [] then
    showMems
  else if startsWithHex args then do
    orError (getMemMask args)
    showMems
  else do
    let _ ← orError (getNodemask s.numaMaxNode args)
    showMems

/-- `lock_unlock()`; the range is ignored for `slock` and `sunlock`. -/
def lockUnlock (lock shm : Bool) (args : CStr) : Cmd Unit := do
  let (segname, args) ← takeSegName args
  let (range, _) ← if shm then next (⟨0, 0, 0⟩, args) else takeRange args
  let w ← world
  segment (.lockUnlock w.kernel segname range lock shm) (Op.ok_lockUnlock _ _ _ _ _)

def lockSeg : CStr → Cmd Unit := lockUnlock true false
def unlockSeg : CStr → Cmd Unit := lockUnlock false false
def shmLockSeg : CStr → Cmd Unit := lockUnlock true true
def shmUnlockSeg : CStr → Cmd Unit := lockUnlock false true

/-! ## Children -/

/-- `child_spawn()`, in the parent. -/
def childSpawn (args : CStr) : Cmd Unit := do
  let (childName, _) ← takeArg args "<child-name>".toList
  let w ← world
  let s ← shell
  match childFindByName s.children childName with
  | some childp =>
      complain [.childInUse childp.cName]
      cmdError
  | none =>
      if ¬ w.cmdPipeOk then
        complain [.pipeFailed "command".toList childName]
        cmdError
      else if ¬ w.respPipeOk then
        complain [.pipeFailed "response".toList childName]
        cmdError
      else
        match w.fork with
        | none =>
            complain [.forkFailed childName]
            cmdError
        | some childpid => setShell { s with children := s.children ++ [⟨childName, childpid⟩] }

/-- `child_kick()` -/
def childKick (args : CStr) : Cmd Unit := do
  let (childName, args) ← takeArg args "<child-name>".toList
  if childName.head? = some '?' then
    return ()
  else
    let s ← shell
    match childFindByName s.children childName with
    | none =>
        complain [.noChild "kick".toList childName]
        cmdError
    | some _ =>
        if args ≠ [] then
          let _ ← orError (parseSignal args)

/-! ## The task -/

/-- `snooze()` -/
def snooze (args : CStr) : Cmd Unit := do
  let args := skipBlanks args
  required args "<seconds>".toList
  if getArgSeconds args = bogusSeconds then cmdError else return ()

/-- `show_task_policy()` -/
def showTaskPolicy : Cmd Unit := do
  let w ← world
  if w.getMempolicyOk then return () else cmdError

/-- The rest of `mpol` once there is a policy. -/
def mpolWith (policy : Int) (nextarg : CStr) : Cmd Unit := do
  let s ← shell
  let _ ← orError (getArgNodemask s.cmdName s.numaMaxNode (skipBlanks nextarg) policy)
  let w ← world
  if w.setMempolicyOk then
    return ()
  else
    complain [.setMempolicyFailed]
    cmdError

/-- `mpol()` -/
def mpol (args : CStr) : Cmd Unit := do
  let args := skipBlanks args
  if args = [] then
    showTaskPolicy
  else
    let (policy, nextarg, cs) := getMbindPolicy args
    complain cs
    if policy < 0 then
      cmdError
    else
      match nextarg with
      | some nextarg => mpolWith policy nextarg
      -- `nextarg` is used and has not been set
      | none => stop .crash

/-- The `while` loop of `mprotect_seg`. -/
def getProt : List CStr → Flags → Flags
  | [], prot => prot
  | tok :: toks, prot =>
      if abbreviates tok "none".toList then 0
      else if abbreviates tok "read".toList then getProt toks (prot ||| protRead)
      else if abbreviates tok "write".toList then getProt toks (prot ||| protWrite)
      else if abbreviates tok "exec".toList then getProt toks (prot ||| protExec)
      else getProt toks prot

/-- `mprotect_seg()`: the result of `segment_mprotect` is not looked at. -/
def mprotectSeg (args : CStr) : Cmd Unit := do
  let (segname, args) ← takeSegName args
  let w ← world
  let _ ← callSegment (.mprotect w.kernel segname (getProt (tokens whitespace args) 0))
    (Op.ok_mprotect _ _ _)

/-! ## The table -/

/-- The functions in `cmd_table`. -/
inductive CmdFunc where
  | helpMe | quit | showPid | pauseMe | numaInfo | migrateProcess | showSeg | anonSeg | fileSeg
  | shmemSeg | removeSeg | mapSeg | unmapSeg | lockSeg | unlockSeg | shmLockSeg | shmUnlockSeg
  | touchSeg | mbindSeg | whereSeg | cpus | mems | childSpawn | childKick | snooze | mpol
  | mprotectSeg
deriving DecidableEq, Repr

/-- `cmd_table[]`: names and functions. -/
def cmdTable : List (CStr × CmdFunc) :=
  [("help".toList, .helpMe), ("man".toList, .helpMe), ("quit".toList, .quit),
    ("exit".toList, .quit), ("pid".toList, .showPid), ("pause".toList, .pauseMe),
    ("numa".toList, .numaInfo), ("migrate".toList, .migrateProcess), ("show".toList, .showSeg),
    ("anon".toList, .anonSeg), ("file".toList, .fileSeg), ("shmem".toList, .shmemSeg),
    ("remove".toList, .removeSeg), ("map".toList, .mapSeg), ("unmap".toList, .unmapSeg),
    ("lock".toList, .lockSeg), ("unlock".toList, .unlockSeg), ("slock".toList, .shmLockSeg),
    ("sunlock".toList, .shmUnlockSeg), ("touch".toList, .touchSeg), ("mbind".toList, .mbindSeg),
    ("where".toList, .whereSeg), ("cpus".toList, .cpus), ("mems".toList, .mems),
    ("child".toList, .childSpawn), ("kick".toList, .childKick), ("snooze".toList, .snooze),
    ("mpol".toList, .mpol), ("mprotect".toList, .mprotectSeg)]

/-- `help_me()`: with no word after the name, `cmdlen` is the difference of NULL and a
pointer. -/
def helpMe (args : CStr) : Cmd Unit := do
  let args := skipBlanks args
  let w ← world
  let cmd := args.takeWhile (· ∉ whitespace)
  let cmdlen := if cmd = args then w.helpLen else cmd.length
  if args = [] ∨ cmdTable.any fun c => strncmpEq cmd c.1 cmdlen then
    return ()
  else
    complain [.noHelp cmd]
    cmdError

/-- `cmdp->cmd_func(args)` -/
def CmdFunc.run : CmdFunc → CStr → Cmd Unit
  | .helpMe => Memtoy.helpMe
  | .quit => Memtoy.quit
  | .showPid => Memtoy.showPid
  | .pauseMe => Memtoy.pauseMe
  | .numaInfo => Memtoy.numaInfo
  | .migrateProcess => Memtoy.migrateProcess
  | .showSeg => Memtoy.showSeg
  | .anonSeg => Memtoy.anonSeg
  | .fileSeg => Memtoy.fileSeg
  | .shmemSeg => Memtoy.shmemSeg
  | .removeSeg => Memtoy.removeSeg
  | .mapSeg => Memtoy.mapSeg
  | .unmapSeg => Memtoy.unmapSeg
  | .lockSeg => Memtoy.lockSeg
  | .unlockSeg => Memtoy.unlockSeg
  | .shmLockSeg => Memtoy.shmLockSeg
  | .shmUnlockSeg => Memtoy.shmUnlockSeg
  | .touchSeg => Memtoy.touchSeg
  | .mbindSeg => Memtoy.mbindSeg
  | .whereSeg => Memtoy.whereSeg
  | .cpus => Memtoy.cpus
  | .mems => Memtoy.mems
  | .childSpawn => Memtoy.childSpawn
  | .childKick => Memtoy.childKick
  | .snooze => Memtoy.snooze
  | .mpol => Memtoy.mpol
  | .mprotectSeg => Memtoy.mprotectSeg

end Memtoy
