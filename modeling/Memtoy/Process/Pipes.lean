import Memtoy.Lib.Ancestry
import Memtoy.Lib.Descriptors
import Memtoy.Lib.Trans

/-!
# Process.Pipes — descriptors in a tree of processes

`child_spawn` makes a command pipe and a response pipe and forks; the child inherits every
descriptor its parent has open, those to the other children among them, and only the ends
named in `child_spawn` are closed again. A process is known by the number of the
`child_spawn` that made it, in the order of the calls, the first process by 0; a number is
never given again.

A descriptor table is changed by its own process only. What `child_spawn` does to it from
one `pipe()`, `fork()` or list operation to the next is one step.
-/

namespace Memtoy

open Ancestry Descriptors Trans

/-! ## State -/

abbrev Fd := Nat

/-- The number of a process. -/
abbrev Num := Nat

/-- What a descriptor refers to: an end of the pipes made for a child, or something else. -/
inductive FileEnd where
  | cmdRead (n : Num)
  | cmdWrite (n : Num)
  | respRead (n : Num)
  | respWrite (n : Num)
  | other
deriving DecidableEq, Repr

/-- The child a pipe is made for. -/
def FileEnd.num : FileEnd → Option Num
  | .cmdRead n | .cmdWrite n | .respRead n | .respWrite n => some n
  | .other => none

/-- A `child_t`: the child, `c_cfd` and `c_rfd`. -/
structure PipeChild where
  num : Num
  cCfd : Fd
  cRfd : Fd
deriving DecidableEq, Repr

/-- Where a process is in `child_spawn`. -/
inductive SpawnStage where
  | ready
  /-- `pipe(cmdpipe)` has succeeded. -/
  | cmdPiped (n : Num) (cmd0 cmd1 : Fd)
  /-- So has `pipe(resppipe)`. -/
  | bothPiped (n : Num) (cmd0 cmd1 resp0 resp1 : Fd)
  /-- In the parent, after `fork()`. -/
  | forked (n : Num) (cmd0 cmd1 resp0 resp1 : Fd)
  /-- In the parent, before `list_add_tail`. -/
  | uninserted (n : Num) (cmd1 resp0 : Fd)
  /-- In the child, before `dup2`. -/
  | born (cmd0 cmd1 resp0 resp1 : Fd)
deriving DecidableEq, Repr

def SpawnStage.Born : SpawnStage → Prop
  | .born _ _ _ _ => True
  | _ => False

/-- A process that runs. -/
structure PipeProc where
  fds : Table FileEnd
  children : List PipeChild
  responseFd : Option Fd
  stage : SpawnStage

structure Forest where
  /-- The processes that run. -/
  procs : Num → Option PipeProc
  /-- History: who called `child_spawn`. -/
  owner : Num → Option Num
  /-- The number of the next `child_spawn`. -/
  count : Num
  /-- History: who sent SIGQUIT to whom. -/
  quits : List (Num × Num)

def Forest.set (f : Forest) (p : Num) (pr : PipeProc) : Forest :=
  { f with procs := Function.update f.procs p (some pr) }

/-- The next number is given out. -/
def Forest.number (f : Forest) (p : Num) : Forest :=
  { f with owner := Function.update f.owner f.count (some p), count := f.count + 1 }

def Forest.remove (f : Forest) (p : Num) : Forest :=
  { f with procs := Function.update f.procs p none }

@[simp] theorem Forest.set_self {f : Forest} {p : Num} {pr : PipeProc} :
    (f.set p pr).procs p = some pr := Function.update_self ..

theorem Forest.set_of_ne {f : Forest} {p q : Num} {pr : PipeProc} (h : q ≠ p) :
    (f.set p pr).procs q = f.procs q := Function.update_of_ne h ..

@[simp] theorem Forest.remove_self {f : Forest} {p : Num} : (f.remove p).procs p = none :=
  Function.update_self ..

theorem Forest.remove_of_ne {f : Forest} {p q : Num} (h : q ≠ p) :
    (f.remove p).procs q = f.procs q := Function.update_of_ne h ..

@[simp] theorem Forest.number_self {f : Forest} {p : Num} :
    (f.number p).owner f.count = some p := Function.update_self ..

theorem Forest.number_of_ne {f : Forest} {p n : Num} (h : n ≠ f.count) :
    (f.number p).owner n = f.owner n := Function.update_of_ne h ..

/-! ## Steps -/

/-- What a process does to its own descriptors and records. -/
inductive ProcStep (f : Forest) : PipeProc → PipeProc → Prop where
  -- the segment layer
  | openFile {pr : PipeProc} {fd : Fd} : pr.stage = .ready → pr.fds fd = none →
      ProcStep f pr { pr with fds := openFd pr.fds fd .other }
  | closeFile {pr : PipeProc} {fd : Fd} : pr.stage = .ready → pr.fds fd = some .other → fd ≠ 0 →
      ProcStep f pr { pr with fds := closeFd pr.fds fd }
  -- child_spawn
  | respPipe {n : Num} {pr : PipeProc} {cmd0 cmd1 resp0 resp1 : Fd} :
      pr.stage = .cmdPiped n cmd0 cmd1 → pr.fds resp0 = none → pr.fds resp1 = none →
      resp0 ≠ resp1 →
      ProcStep f pr { pr with
        fds := openFd (openFd pr.fds resp0 (.respRead n)) resp1 (.respWrite n)
        stage := .bothPiped n cmd0 cmd1 resp0 resp1 }
  /-- `out_closecmd` -/
  | respPipeFails {n : Num} {pr : PipeProc} {cmd0 cmd1 : Fd} : pr.stage = .cmdPiped n cmd0 cmd1 →
      ProcStep f pr { pr with fds := closeFd (closeFd pr.fds cmd0) cmd1, stage := .ready }
  /-- `out_closeall` -/
  | forkFails {n : Num} {pr : PipeProc} {cmd0 cmd1 resp0 resp1 : Fd} :
      pr.stage = .bothPiped n cmd0 cmd1 resp0 resp1 →
      ProcStep f pr { pr with
        fds := closeFd (closeFd (closeFd (closeFd pr.fds resp0) resp1) cmd0) cmd1
        stage := .ready }
  | closeEnds {n : Num} {pr : PipeProc} {cmd0 cmd1 resp0 resp1 : Fd} :
      pr.stage = .forked n cmd0 cmd1 resp0 resp1 →
      ProcStep f pr { pr with
        fds := closeFd (closeFd pr.fds cmd0) resp1, stage := .uninserted n cmd1 resp0 }
  | insert {n : Num} {pr : PipeProc} {cmd1 resp0 : Fd} : pr.stage = .uninserted n cmd1 resp0 →
      ProcStep f pr { pr with children := pr.children ++ [⟨n, cmd1, resp0⟩], stage := .ready }
  /-- `dup2` of the command pipe to standard input, `close` of the three descriptors that
  are not needed, and `children_free(0)`. -/
  | start {pr : PipeProc} {cmd0 cmd1 resp0 resp1 : Fd} : pr.stage = .born cmd0 cmd1 resp0 resp1 →
      ProcStep f pr
        { fds := closeFd (closeFd (closeFd (dup2 pr.fds cmd0 0) cmd0) cmd1) resp0
          children := []
          responseFd := some resp1
          stage := .ready }
  /-- `sigcld_handler`, for a child that has ended -/
  | reap {pr : PipeProc} {c : PipeChild} : ¬ pr.stage.Born → c ∈ pr.children →
      f.procs c.num = none →
      ProcStep f pr { pr with
        fds := closeFd (closeFd pr.fds c.cCfd) c.cRfd, children := pr.children.erase c }

inductive PipeAct where
  | own (p : Num)
  /-- `child_spawn` makes the first pipe. -/
  | spawn (p : Num)
  | fork (p n : Num)
  /-- `exit()` with `cleanup()` -/
  | exit (p : Num)
  /-- By a signal that is not handled. -/
  | killed (p : Num)

inductive PipeStep : PipeAct → Forest → Forest → Prop where
  | own {f : Forest} {p : Num} {pr pr' : PipeProc} : f.procs p = some pr → ProcStep f pr pr' →
      PipeStep (.own p) f (f.set p pr')
  | spawn {f : Forest} {p : Num} {pr : PipeProc} {cmd0 cmd1 : Fd} : f.procs p = some pr →
      pr.stage = .ready → pr.fds cmd0 = none → pr.fds cmd1 = none → cmd0 ≠ cmd1 →
      PipeStep (.spawn p) f ((f.number p).set p { pr with
        fds := openFd (openFd pr.fds cmd0 (.cmdRead f.count)) cmd1 (.cmdWrite f.count)
        stage := .cmdPiped f.count cmd0 cmd1 })
  | fork {f : Forest} {p n : Num} {pr : PipeProc} {cmd0 cmd1 resp0 resp1 : Fd} :
      f.procs p = some pr → pr.stage = .bothPiped n cmd0 cmd1 resp0 resp1 →
      PipeStep (.fork p n) f
        ((f.set p { pr with stage := .forked n cmd0 cmd1 resp0 resp1 }).set n
          { pr with stage := .born cmd0 cmd1 resp0 resp1 })
  | exit {f : Forest} {p : Num} {pr : PipeProc} : f.procs p = some pr →
      PipeStep (.exit p) f
        { f.remove p with quits := f.quits ++ pr.children.map fun c => (p, c.num) }
  | killed {f : Forest} {p : Num} {pr : PipeProc} : f.procs p = some pr →
      PipeStep (.killed p) f (f.remove p)

/-- Whoever started memtoy may have left it any descriptors; standard input is one. -/
def firstProc (inherited : Fd → Bool) : PipeProc where
  fds := fun fd => if fd = 0 ∨ inherited fd then some .other else none
  children := []
  responseFd := none
  stage := .ready

def firstForest (inherited : Fd → Bool) : Forest where
  procs := Function.update (fun _ => none) 0 (some (firstProc inherited))
  owner := fun _ => none
  count := 1
  quits := []

def pipeSpec : Spec Forest where
  Init := fun f => ∃ inherited, f = firstForest inherited
  Next := fun f f' => ∃ a, PipeStep a f f'

end Memtoy
