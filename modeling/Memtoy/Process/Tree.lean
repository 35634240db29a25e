import Memtoy.Child.Command
import Memtoy.Segment.Ownership

/-!
# Process.Tree — shared memory in a tree of processes

The `child` command forks: the new process has a copy of the whole segment
table, shm ids included, and of the `atexit` registration of `cleanup()`. A tree
is a table of processes, each with its own context; its steps are calls of the
segment API by a running process, `child`, and the ways a process ends. `quit`,
an error in batch mode and end of file all go through `exit()`, which runs
`segment_cleanup`; a signal that is not handled does not.

Shm ids are system-wide. `shmget(IPC_PRIVATE, ...)` makes a new segment every
time, so that an id names one segment of one creator.
-/

namespace Memtoy

open CString Ledger

/-! ## The tree -/

/-- A memtoy process. Its `log` starts at its fork. -/
structure Proc where
  glctx : Glctx
  /-- What the table stood for at the fork. -/
  inherited : Holdings
  running : Bool

structure Tree where
  procs : Pid → Option Proc
  /-- History: the ids removed by the exit-time cleanup of a process. -/
  exitRmids : List (Pid × Int)

/-- `fork()`: everything is copied, nothing has been done yet. -/
def Proc.fork (pr : Proc) : Proc where
  glctx := { pr.glctx with log := [] }
  inherited := pr.glctx.holdings
  running := true

/-- `exit()` with the registered `cleanup()`. -/
def Proc.exit (pr : Proc) : Proc :=
  { pr with glctx := segmentCleanup pr.glctx, running := false }

/-- The ids `segment_cleanup` passes to `shmctl(IPC_RMID)`. -/
def cleanupIds (g : Glctx) : List Int :=
  ((segmentCleanup g).log.drop g.log.length).filterMap fun
    | .shmRmid _ shmid => some shmid
    | _ => none

def Tree.set (t : Tree) (pid : Pid) (pr : Proc) : Tree :=
  { t with procs := Function.update t.procs pid (some pr) }

/-- The process got the id from a `shmget` of its own. -/
def Created (t : Tree) (pid : Pid) (shmid : Int) : Prop :=
  ∃ pr, t.procs pid = some pr ∧ ∃ segp, Event.acquire segp shmid ∈ shmIds.events pr.glctx.log

inductive TreeAct where
  | call (pid : Pid) (op : Op)
  | child (pid child : Pid)
  | exit (pid : Pid)
  | killed (pid : Pid)

inductive TreeStep : TreeAct → Tree → Tree → Prop where
  /-- A call of the segment API; the ids it gets from `shmget` are new. -/
  | call {t : Tree} {pid : Pid} {pr : Proc} {op : Op} : t.procs pid = some pr →
      pr.running = true → op.Ok →
      (∀ segp shmid, Event.acquire segp shmid ∈
          shmIds.events ((op.exec pr.glctx).log.drop pr.glctx.log.length) →
        ∀ q, ¬ Created t q shmid) →
      TreeStep (.call pid op) t (t.set pid { pr with glctx := op.exec pr.glctx })
  | child {t : Tree} {pid child : Pid} {pr : Proc} : t.procs pid = some pr →
      pr.running = true → t.procs child = none →
      TreeStep (.child pid child) t (t.set child pr.fork)
  | exit {t : Tree} {pid : Pid} {pr : Proc} : t.procs pid = some pr → pr.running = true →
      TreeStep (.exit pid) t
        { t.set pid pr.exit with
          exitRmids := t.exitRmids ++ (cleanupIds pr.glctx).map (pid, ·) }
  | killed {t : Tree} {pid : Pid} {pr : Proc} : t.procs pid = some pr → pr.running = true →
      TreeStep (.killed pid) t (t.set pid { pr with running := false })

/-- The tree of one process, as `main` leaves it. -/
def rootTree (g : Glctx) : Tree where
  procs := Function.update (fun _ => none) 0 (some ⟨g, .nothing, true⟩)
  exitRmids := []

/-- The runs of a tree of processes whose steps all meet `P`. -/
def treeSpec (P : Tree → TreeAct → Prop) : Trans.Spec Tree :=
  Trans.Spec.under (fun t => ∃ k cfg maps, t = rootTree (segmentInit k cfg maps)) TreeStep P

/-! ## What the processes have created -/

theorem Tree.set_procs (t : Tree) (pid : Pid) (pr : Proc) :
    (t.set pid pr).procs = Function.update t.procs pid (some pr) := rfl

/-- Only the log of the process matters to what it created. -/
theorem created_set {t : Tree} {pid : Pid} {pr : Proc} {q : Pid} {shmid : Int} :
    Created (t.set pid pr) q shmid ↔
      (q = pid ∧ ∃ segp, Event.acquire segp shmid ∈ shmIds.events pr.glctx.log) ∨
        (q ≠ pid ∧ Created t q shmid) := by
  by_cases hq : q = pid
  · subst hq
    simp [Created, Tree.set_procs]
  · simp [Created, Tree.set_procs, hq]

/-- A process that only extends its log without acquiring an id has created what
it had created before. -/
theorem created_set_of_events {t : Tree} {pid : Pid} {pr pr' : Proc}
    (hpr : t.procs pid = some pr)
    (hev : ∀ segp shmid, Event.acquire segp shmid ∈ shmIds.events pr'.glctx.log ↔
      Event.acquire segp shmid ∈ shmIds.events pr.glctx.log) {q : Pid} {shmid : Int} :
    Created (t.set pid pr') q shmid ↔ Created t q shmid := by
  rw [created_set]
  by_cases hq : q = pid
  · subst hq
    simp [Created, hpr, hev]
  · simp [hq]

/-- The cleanup's calls, and its ids. -/
theorem mem_cleanupIds {init : SegPtr → Option Int} {g : Glctx} (h : RepInv g)
    (hacc : Accounts shmIds init g) {shmid : Int} (hmem : shmid ∈ cleanupIds g) :
    ∃ segp, shmIds.held g segp = some shmid := by
  obtain ⟨-, calls, hlog, hcalls⟩ := segmentCleanup_spec h hacc
  rw [cleanupIds, hlog, List.drop_left, List.mem_filterMap] at hmem
  obtain ⟨c, hc, hid⟩ := hmem
  obtain ⟨segp, id, rfl, hheld⟩ := hcalls c hc
  cases hid
  exact ⟨segp, hheld⟩

theorem cleanup_acquires {init : SegPtr → Option Int} {g : Glctx} (h : RepInv g)
    (hacc : Accounts shmIds init g) (segp : SegPtr) (shmid : Int) :
    Event.acquire segp shmid ∈ shmIds.events (segmentCleanup g).log ↔
      Event.acquire segp shmid ∈ shmIds.events g.log := by
  obtain ⟨-, calls, hlog, hcalls⟩ := segmentCleanup_spec h hacc
  rw [hlog, Resource.events_append, List.mem_append, or_iff_left]
  intro hmem
  obtain ⟨c, hc, hev⟩ := List.mem_filterMap.mp hmem
  obtain ⟨p, id, rfl, -⟩ := hcalls c hc
  cases hev

/-! ## Inherited segments -/

/-- The SHM segment was copied by the fork and is still in the table: the
process has made no shm call for its slot. -/
def Proc.StillInherited (pr : Proc) (segp : SegPtr) : Prop :=
  pr.inherited.shm segp ≠ none ∧ ∀ e ∈ shmIds.events pr.glctx.log, e.key ≠ segp

/-- A process exits only when none of the SHM segments it was forked with is
still in its table. -/
def CleanExit (t : Tree) : TreeAct → Prop
  | .exit pid => ∀ pr, t.procs pid = some pr → ∀ segp, ¬ pr.StillInherited segp
  | _ => True

/-- An id in the table of a process that has none of its inherited segments left
is of its own making. -/
theorem created_of_held {t : Tree} {pid : Pid} {pr : Proc} (hpr : t.procs pid = some pr)
    (hb : Books pr.inherited pr.glctx) (hclean : ∀ segp, ¬ pr.StillInherited segp)
    {segp : SegPtr} {shmid : Int} (hheld : shmIds.held pr.glctx segp = some shmid) :
    Created t pid shmid := by
  rcases precede _ hb.shm hheld with ⟨hinit, hno⟩ | ⟨pre, mid, hev, -⟩
  · exact absurd ⟨by rw [hinit]; simp, hno⟩ (hclean segp)
  · exact ⟨pr, hpr, segp, by rw [hev]; simp⟩

/-- What holds of a tree in which processes exit cleanly. -/
structure TreeInv (t : Tree) : Prop where
  tables : ∀ pid pr, t.procs pid = some pr → pr.running = true →
    RepInv pr.glctx ∧ Books pr.inherited pr.glctx
  creator : ∀ p q shmid, Created t p shmid → Created t q shmid → p = q
  exits : ∀ pid shmid, (pid, shmid) ∈ t.exitRmids → Created t pid shmid

theorem rootTree_inv {g : Glctx} (h : RepInv g) (hb : Books .nothing g) :
    TreeInv (rootTree g) := by
  have hproc : ∀ pid pr, (rootTree g).procs pid = some pr → pid = 0 ∧ pr = ⟨g, .nothing, true⟩ := by
    intro pid pr hpr
    by_cases hp : pid = 0
    · subst hp
      simp only [rootTree, Function.update_self, Option.some.injEq] at hpr
      exact ⟨rfl, hpr.symm⟩
    · simp [rootTree, hp] at hpr
  refine ⟨?_, ?_, ?_⟩
  · intro pid pr hpr _
    obtain ⟨-, rfl⟩ := hproc pid pr hpr
    exact ⟨h, hb⟩
  · rintro p q shmid ⟨pr, hpr, -⟩ ⟨pr', hpr', -⟩
    rw [(hproc p pr hpr).1, (hproc q pr' hpr').1]
  · intro pid shmid hmem
    simp [rootTree] at hmem

section Steps

variable {t : Tree} {pid : Pid} {pr pr' : Proc}

/-- A step that replaces one process and creates nothing. -/
theorem TreeInv.set_same (h : TreeInv t) (hpr : t.procs pid = some pr)
    (htable : pr'.running = true → RepInv pr'.glctx ∧ Books pr'.inherited pr'.glctx)
    (hev : ∀ segp shmid, Event.acquire segp shmid ∈ shmIds.events pr'.glctx.log ↔
      Event.acquire segp shmid ∈ shmIds.events pr.glctx.log) : TreeInv (t.set pid pr') := by
  refine ⟨?_, ?_, ?_⟩
  · intro q prq hq hrun
    by_cases hqp : q = pid
    · subst hqp
      rw [Tree.set_procs, Function.update_self] at hq
      cases hq
      exact htable hrun
    · rw [Tree.set_procs, Function.update_of_ne hqp] at hq
      exact h.tables q prq hq hrun
  · intro p q shmid hp hq
    exact h.creator p q shmid ((created_set_of_events hpr hev).mp hp)
      ((created_set_of_events hpr hev).mp hq)
  · intro q shmid hmem
    exact (created_set_of_events hpr hev).mpr (h.exits q shmid hmem)

theorem TreeInv.call (h : TreeInv t) (hpr : t.procs pid = some pr) (hrun : pr.running = true)
    {op : Op} (hok : op.Ok)
    (hfresh : ∀ segp shmid, Event.acquire segp shmid ∈
        shmIds.events ((op.exec pr.glctx).log.drop pr.glctx.log.length) →
      ∀ q, ¬ Created t q shmid) :
    TreeInv (t.set pid { pr with glctx := op.exec pr.glctx }) := by
  obtain ⟨hrep, hb⟩ := h.tables pid pr hpr hrun
  obtain ⟨calls, hlog, -⟩ := op.releasing hrep
  rw [hlog, List.drop_left] at hfresh
  -- what was created, and what the call adds
  have hcreated : ∀ q shmid, Created (t.set pid { pr with glctx := op.exec pr.glctx }) q shmid ↔
      Created t q shmid ∨
        (q = pid ∧ ∃ segp, Event.acquire segp shmid ∈ shmIds.events calls) := by
    intro q shmid
    rw [created_set]
    by_cases hq : q = pid
    · subst hq
      simp only [hlog, Resource.events_append, List.mem_append, exists_or, true_and, ne_eq,
        not_true_eq_false, false_and, or_false, Created, hpr, Option.some.injEq,
        exists_eq_left']
    · simp [hq]
  refine ⟨?_, ?_, ?_⟩
  · intro q prq hq hrunq
    by_cases hqp : q = pid
    · subst hqp
      rw [Tree.set_procs, Function.update_self] at hq
      cases hq
      exact star_preserves (fun _ _ hr hstep hb => hstep.books hr hb) (op.star hok hrep) hrep hb
    · rw [Tree.set_procs, Function.update_of_ne hqp] at hq
      exact h.tables q prq hq hrunq
  · intro p q shmid hp hq
    rcases (hcreated p shmid).mp hp with hp' | ⟨rfl, segp, hp'⟩ <;>
      rcases (hcreated q shmid).mp hq with hq' | ⟨rfl, segq, hq'⟩
    · exact h.creator p q shmid hp' hq'
    · exact absurd hp' (hfresh segq shmid hq' p)
    · exact absurd hq' (hfresh segp shmid hp' q)
    · rfl
  · intro q shmid hmem
    exact (hcreated q shmid).mpr (Or.inl (h.exits q shmid hmem))

theorem TreeInv.child {child : Pid} (h : TreeInv t) (hpr : t.procs pid = some pr)
    (hrun : pr.running = true) (hnone : t.procs child = none) : TreeInv (t.set child pr.fork) := by
  obtain ⟨hrep, hb⟩ := h.tables pid pr hpr hrun
  have hnotcreated : ∀ shmid, ¬ Created t child shmid := by
    rintro shmid ⟨prc, hprc, -⟩
    rw [hnone] at hprc
    cases hprc
  have hcreated : ∀ q shmid, Created (t.set child pr.fork) q shmid ↔ Created t q shmid := by
    intro q shmid
    rw [created_set]
    by_cases hq : q = child
    · subst hq
      simp [Proc.fork, Resource.events, hnotcreated]
    · simp [hq]
  refine ⟨?_, ?_, ?_⟩
  · intro q prq hq hrunq
    by_cases hqp : q = child
    · subst hqp
      rw [Tree.set_procs, Function.update_self] at hq
      cases hq
      exact ⟨⟨hrep.shape, hrep.bound, hrep.slot, hrep.fresh, hrep.avail, hrep.named, hrep.unique,
        hrep.cleared⟩, ⟨rfl, rfl, rfl,
        ⟨hb.pages.pagesize, hb.pages.hugePagesize, hb.pages.records⟩⟩⟩
    · rw [Tree.set_procs, Function.update_of_ne hqp] at hq
      exact h.tables q prq hq hrunq
  · intro p q shmid hp hq
    exact h.creator p q shmid ((hcreated p shmid).mp hp) ((hcreated q shmid).mp hq)
  · intro q shmid hmem
    exact (hcreated q shmid).mpr (h.exits q shmid hmem)

/-- A clean exit removes ids of the process's own making only. -/
theorem TreeInv.exit (h : TreeInv t) (hpr : t.procs pid = some pr) (hrun : pr.running = true)
    (hclean : ∀ segp, ¬ pr.StillInherited segp) :
    TreeInv { t.set pid pr.exit with
      exitRmids := t.exitRmids ++ (cleanupIds pr.glctx).map (pid, ·) } := by
  obtain ⟨hrep, hb⟩ := h.tables pid pr hpr hrun
  have hev := cleanup_acquires hrep hb.shm
  have hset : TreeInv (t.set pid pr.exit) := h.set_same hpr (fun hc => by cases hc) hev
  refine ⟨hset.tables, hset.creator, ?_⟩
  intro q shmid hmem
  rcases List.mem_append.mp hmem with hmem | hmem
  · exact hset.exits q shmid hmem
  · obtain ⟨id, hid, heq⟩ := List.mem_map.mp hmem
    cases heq
    obtain ⟨segp, hheld⟩ := mem_cleanupIds hrep hb.shm hid
    exact (created_set_of_events hpr hev).mpr (created_of_held hpr hb hclean hheld)

end Steps

theorem TreeStep.inv {t t' : Tree} {a : TreeAct} (hstep : TreeStep a t t') (hclean : CleanExit t a)
    (h : TreeInv t) : TreeInv t' := by
  cases hstep with
  | call hpr hrun hok hfresh => exact h.call hpr hrun hok hfresh
  | child hpr hrun hnone => exact h.child hpr hrun hnone
  | exit hpr hrun => exact h.exit hpr hrun (hclean _ hpr)
  | killed hpr hrun => exact h.set_same hpr (fun hc => by cases hc) (fun _ _ => Iff.rfl)

/-! ## Exits -/

/-- In every run in which each process exits without an inherited SHM segment in
its table, the exit-time cleanups remove only ids of their own process, and no
exit removes an id another process created. -/
theorem exits_remove_own_shm {t : Tree} (h : (treeSpec CleanExit).Reachable t) :
    (∀ pid shmid, (pid, shmid) ∈ t.exitRmids → Created t pid shmid) ∧
      ∀ creator shmid, Created t creator shmid →
        ∀ pid, pid ≠ creator → (pid, shmid) ∉ t.exitRmids := by
  have hinv : TreeInv t := by
    refine Trans.Spec.invariant TreeInv ?_ ?_ h
    · rintro t ⟨k, cfg, maps, rfl⟩
      obtain ⟨hrep, hb⟩ := segmentInit_inv emptyTable_books
        (fun _ _ hr hstep hb => hstep.books hr hb) k cfg maps
      exact rootTree_inv hrep hb
    · rintro t t' ⟨a, hclean, hstep⟩ hinv
      exact hstep.inv hclean hinv
  refine ⟨hinv.exits, ?_⟩
  intro creator shmid hcreated pid hne hmem
  exact hne (hinv.creator pid creator shmid (hinv.exits pid shmid hmem) hcreated)

/-- `shmem s 4k` on the concrete machine. -/
def sampleShmem : Op := .register sampleKernel .segtShm ['s'] ⟨0, 0x1000#64, 0⟩ mapShared

theorem rootTree_not_created (q : Pid) (shmid : Int) :
    ¬ Created (rootTree sampleTable) q shmid := by
  rintro ⟨pr, hpr, segp, hmem⟩
  by_cases hq : q = 0
  · subst hq
    simp only [rootTree, Function.update_self, Option.some.injEq] at hpr
    subst hpr
    have hlog : sampleTable.log = [] := by decide
    rw [hlog] at hmem
    cases hmem
  · simp [rootTree, hq] at hpr

theorem sampleShmem_ok : sampleShmem.Ok := ⟨by decide, by decide⟩

/-- A child spawned before the segment is registered, and which registers one of
its own, exits cleanly. -/
theorem exits_remove_own_shm_of_child :
    ∃ t, (treeSpec CleanExit).Reachable t ∧ t.exitRmids = [(1, 7)] ∧ Created t 1 7 := by
  have h0 : (treeSpec CleanExit).Reachable (rootTree sampleTable) :=
    .init ⟨sampleKernel, sampleConfig, [sampleHeap], rfl⟩
  have hroot : (rootTree sampleTable).procs 0 = some ⟨sampleTable, .nothing, true⟩ := rfl
  have h1 := h0.step ⟨.child 0 1, trivial, .child hroot rfl rfl⟩
  have hchild : ((rootTree sampleTable).set 1 (Proc.fork ⟨sampleTable, .nothing, true⟩)).procs 1 =
      some (Proc.fork ⟨sampleTable, .nothing, true⟩) := rfl
  have h2 := h1.step ⟨.call 1 sampleShmem, trivial,
    .call hchild rfl sampleShmem_ok (by
      intro _ shmid _ q hc
      rcases created_set.mp hc with ⟨-, segp, hmem⟩ | ⟨-, hc⟩
      · cases hmem
      · exact rootTree_not_created q shmid hc)⟩
  have h3 := h2.step ⟨.exit 1, by
      intro pr hpr segp hstill
      cases hpr
      refine hstill.1 ?_
      show shmIds.held sampleTable segp = none
      have hent : ∀ p ∈ sampleTable.entries, shmIds.owned (sampleTable.heap p) = none := by decide
      by_cases hmem : segp ∈ sampleTable.entries
      · simp [Resource.held, hmem, hent segp hmem]
      · simp [Resource.held, hmem], .exit rfl rfl⟩
  exact ⟨_, h3, by decide, (exits_remove_own_shm h3).1 1 7 (by decide)⟩

/-! ## A child that quits -/

/-- The parent registers a segment and spawns a child, which quits. -/
def quitAfterShmem : Tree :=
  let root : Proc := ⟨sampleShmem.exec sampleTable, .nothing, true⟩
  { ((rootTree sampleTable).set 0 root).set 1 root.fork |>.set 1 root.fork.exit with
    exitRmids := (cleanupIds root.fork.glctx).map (1, ·) }

/-- The exit of the child removes the parent's segment, which the parent still
has registered. -/
theorem child_exit_removes_parent_shm :
    ∃ t, (treeSpec fun _ _ => True).Reachable t ∧ (1, 7) ∈ t.exitRmids ∧ ¬ Created t 1 7 ∧
      Created t 0 7 ∧ ∃ pr, t.procs 0 = some pr ∧ pr.running = true ∧
        shmIds.held pr.glctx 1 = some 7 := by
  refine ⟨quitAfterShmem, ?_, by decide, ?_, ?_, ?_⟩
  · have h0 : (treeSpec fun _ _ => True).Reachable (rootTree sampleTable) :=
      .init ⟨sampleKernel, sampleConfig, [sampleHeap], rfl⟩
    have hroot : (rootTree sampleTable).procs 0 = some ⟨sampleTable, .nothing, true⟩ := rfl
    have h1 := h0.step ⟨.call 0 sampleShmem, trivial,
      .call hroot rfl sampleShmem_ok (fun _ shmid _ q => rootTree_not_created q shmid)⟩
    have hparent : ((rootTree sampleTable).set 0 ⟨sampleShmem.exec sampleTable, .nothing,
        true⟩).procs 0 = some ⟨sampleShmem.exec sampleTable, .nothing, true⟩ := rfl
    have h2 := h1.step ⟨.child 0 1, trivial, .child hparent rfl rfl⟩
    exact h2.step ⟨.exit 1, trivial, .exit rfl rfl⟩
  · rintro ⟨pr, hpr, segp, hmem⟩
    have hlog : ∀ e ∈ shmIds.events
        (segmentCleanup { sampleShmem.exec sampleTable with log := [] }).log,
        e = Event.release 1 7 := by decide
    cases hpr
    cases hlog _ hmem
  · exact ⟨⟨sampleShmem.exec sampleTable, .nothing, true⟩, rfl, 1, by decide⟩
  · exact ⟨⟨sampleShmem.exec sampleTable, .nothing, true⟩, rfl, rfl, by decide⟩

end Memtoy
