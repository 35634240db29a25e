import Mathlib.Data.List.Perm.Basic
import Memtoy.Child.Command
import Memtoy.Lib.Trans

/-!
# Child.Reap — `child_spawn` and the SIGCLD handler

A child that terminates stays a zombie until the parent waits for it. SIGCLD is a
standard signal: it is pending or not, however many children have terminated. The
handler waits for one child with `wait3` and unlinks its record. `child_spawn`
blocks SIGCLD only around the insertion into the list, not from the fork on.

`Parent` is the parent with its children, and its steps are those of `child_spawn`,
of the handler and of the kernel, in any order the signal mask allows.
-/

namespace Memtoy

open CString Trans

/-! ## Records -/

/-- A `child_t` and the process it was made for. `birth` numbers the forks: the
kernel may give a pid again. -/
structure ChildRec extends Child where
  birth : Nat
deriving DecidableEq, Repr

/-- `child_find_by_pid()` -/
def childFindByPid (children : List ChildRec) (cpid : Pid) : Option ChildRec :=
  children.find? (·.cPid = cpid)

/-- `child_reap()`, as far as the list goes: unlink and free, or complain. -/
def childReap (children : List ChildRec) (cpid : Pid) : List ChildRec :=
  match childFindByPid children cpid with
  | none => children
  | some childp => children.erase childp

/-! ## The parent -/

/-- Where the main program is in `child_spawn`; `idle` between commands. -/
inductive SpawnAt where
  | idle
  | forked (childp : ChildRec)
  /-- SIGCLD is blocked. -/
  | blocked (childp : ChildRec)
  /-- SIGCLD is still blocked. -/
  | inserted (childp : ChildRec)
  /-- In `child_wait`. -/
  | waiting
deriving DecidableEq, Repr

/-- Where `sigcld_handler` is. `reaping`: `wait3` has returned a child's pid. -/
inductive HandlerAt where
  | out
  | entered
  | reaping (childp : ChildRec)
deriving DecidableEq, Repr

def SpawnAt.BlocksSigcld : SpawnAt → Prop
  | .blocked _ | .inserted _ => True
  | _ => False

structure Parent where
  /-- The records in `gcp->children`. -/
  children : List ChildRec
  /-- The children that run. -/
  live : List ChildRec
  /-- The children that have terminated and not been waited for. -/
  zombies : List ChildRec
  main : SpawnAt
  /-- SIGCLD is pending. -/
  pending : Bool
  handler : HandlerAt
  /-- The number of forks so far. -/
  forks : Nat
deriving DecidableEq, Repr

inductive ReapAct where
  | spawn
  | terminate (childp : ChildRec)
  | deliver
  | wait3 (childp : Option ChildRec)
  | reap
deriving DecidableEq, Repr

/-- The main program does not run while the handler does; the handler runs with
all signals blocked. -/
inductive ReapStep : ReapAct → Parent → Parent → Prop where
  | fork {s : Parent} {childp : ChildRec} : s.main = .idle → s.handler = .out →
      childp.birth = s.forks → (∀ r ∈ s.live ++ s.zombies, r.cPid ≠ childp.cPid) →
      ReapStep .spawn s
        { s with main := .forked childp, live := childp :: s.live, forks := s.forks + 1 }
  | block {s : Parent} {childp : ChildRec} : s.main = .forked childp → s.handler = .out →
      ReapStep .spawn s { s with main := .blocked childp }
  | listAddTail {s : Parent} {childp : ChildRec} : s.main = .blocked childp → s.handler = .out →
      ReapStep .spawn s { s with main := .inserted childp, children := s.children ++ [childp] }
  | unblock {s : Parent} {childp : ChildRec} : s.main = .inserted childp → s.handler = .out →
      ReapStep .spawn s { s with main := .waiting }
  | childWait {s : Parent} : s.main = .waiting → s.handler = .out →
      ReapStep .spawn s { s with main := .idle }
  | terminate {s : Parent} {childp : ChildRec} : childp ∈ s.live →
      ReapStep (.terminate childp) s
        { s with live := s.live.erase childp, zombies := s.zombies ++ [childp], pending := true }
  | deliver {s : Parent} : s.pending = true → s.handler = .out → ¬ s.main.BlocksSigcld →
      ReapStep .deliver s { s with pending := false, handler := .entered }
  | wait3 {s : Parent} {childp : ChildRec} : s.handler = .entered → childp ∈ s.zombies →
      ReapStep (.wait3 (some childp)) s
        { s with zombies := s.zombies.erase childp, handler := .reaping childp }
  | wait3Fails {s : Parent} : s.handler = .entered → s.zombies = [] →
      ReapStep (.wait3 none) s { s with handler := .out }
  | reap {s : Parent} {childp : ChildRec} : s.handler = .reaping childp →
      ReapStep .reap s { s with children := childReap s.children childp.cPid, handler := .out }

def noChildren : Parent where
  children := []
  live := []
  zombies := []
  main := .idle
  pending := false
  handler := .out
  forks := 0

/-- The runs of the parent in which every step meets `P`. -/
def reapSpec (P : Parent → ReapAct → Prop) : Spec Parent :=
  Spec.under (· = noChildren) ReapStep P

/-- Between commands, with no SIGCLD pending or being handled. -/
structure Parent.Quiet (s : Parent) : Prop where
  main : s.main = .idle
  pending : s.pending = false
  handler : s.handler = .out

/-- Every record belongs to a child that runs, and every terminated child has been
waited for. -/
def AllReaped (s : Parent) : Prop := (∀ r ∈ s.children, r ∈ s.live) ∧ s.zombies = []

/-- No termination is lost: no child terminates while SIGCLD is already pending, and
no handler waits for a child that is not in the list yet. -/
def NoneLost (s : Parent) : ReapAct → Prop
  | .terminate _ => s.pending = false
  | .wait3 (some childp) => s.main ≠ .forked childp
  | _ => True

/-! ## The invariant -/

/-- The record that has not been inserted yet. -/
def SpawnAt.uninserted : SpawnAt → List ChildRec
  | .forked childp | .blocked childp => [childp]
  | _ => []

/-- The child that has been waited for and whose record is still there. -/
def HandlerAt.waited : HandlerAt → List ChildRec
  | .reaping childp => [childp]
  | _ => []

/-- The `wait3` calls that a handler is still to make. -/
def HandlerAt.waits : HandlerAt → Nat
  | .entered => 1
  | _ => 0

structure ReapInv (s : Parent) : Prop where
  /-- Records and children that have not been reaped are the same. -/
  known : (s.main.uninserted ++ s.children).Perm (s.live ++ s.zombies ++ s.handler.waited)
  pids : ((s.main.uninserted ++ s.children).map (·.cPid)).Nodup
  /-- There is a `wait3` to come for every zombie. -/
  waits : s.zombies.length = s.pending.toNat + s.handler.waits
  listed : ∀ r, s.handler = .reaping r → r ∈ s.children
  masked : s.main.BlocksSigcld → s.handler = .out

variable {s s' : Parent}

namespace ReapInv

/-- The handler finds the record of the child it has waited for. -/
theorem childReap_eq {r : ChildRec} (h : ReapInv s) (hr : r ∈ s.children) :
    childReap s.children r.cPid = s.children.erase r := by
  have hpids : (s.children.map (·.cPid)).Nodup := by
    have hall := h.pids
    rw [List.map_append] at hall
    exact (List.nodup_append.mp hall).2.1
  have hfind : childFindByPid s.children r.cPid = some r := find?_key hpids hr
  rw [childReap, hfind]

theorem fork {childp : ChildRec} (h : ReapInv s) (hmain : s.main = .idle)
    (hout : s.handler = .out) (hpid : ∀ r ∈ s.live ++ s.zombies, r.cPid ≠ childp.cPid) :
    ReapInv { s with main := .forked childp, live := childp :: s.live, forks := s.forks + 1 } := by
  have hknown : s.children.Perm (s.live ++ s.zombies) := by
    simpa [hmain, hout, SpawnAt.uninserted, HandlerAt.waited] using h.known
  have hpids : (s.children.map (·.cPid)).Nodup := by
    simpa [hmain, SpawnAt.uninserted] using h.pids
  constructor
  · simpa [hout, SpawnAt.uninserted, HandlerAt.waited] using hknown
  · simp only [SpawnAt.uninserted, List.singleton_append, List.map_cons, List.nodup_cons]
    refine ⟨?_, hpids⟩
    intro hmem
    obtain ⟨r, hr, heq⟩ := List.mem_map.mp hmem
    exact hpid r (hknown.mem_iff.mp hr) heq
  · exact h.waits
  · exact h.listed
  · exact fun _ => hout

/-- Steps of the main program that keep the record where it is. -/
theorem of_main {m : SpawnAt} (h : ReapInv s) (hout : s.handler = .out)
    (hsame : m.uninserted = s.main.uninserted) : ReapInv { s with main := m } where
  known := by rw [hsame]; exact h.known
  pids := by rw [hsame]; exact h.pids
  waits := h.waits
  listed := h.listed
  masked := fun _ => hout

theorem listAddTail {childp : ChildRec} (h : ReapInv s) (hmain : s.main = .blocked childp)
    (hout : s.handler = .out) :
    ReapInv { s with main := .inserted childp, children := s.children ++ [childp] } := by
  have hperm : (s.children ++ [childp]).Perm (s.main.uninserted ++ s.children) := by
    rw [hmain]
    exact List.perm_append_comm
  constructor
  · exact hperm.trans h.known
  · exact (hperm.map _).nodup_iff.mpr h.pids
  · exact h.waits
  · intro r hr
    exact List.mem_append_left _ (h.listed r hr)
  · exact fun _ => hout

theorem terminate {childp : ChildRec} (h : ReapInv s) (hlive : childp ∈ s.live)
    (hpending : s.pending = false) :
    ReapInv { s with live := s.live.erase childp, zombies := s.zombies ++ [childp]
                     pending := true } := by
  constructor
  · refine h.known.trans ?_
    rw [List.perm_iff_count]
    intro r
    have hcount := (List.perm_cons_erase hlive).count_eq r
    simp only [List.count_append, List.count_cons, List.count_nil] at hcount ⊢
    omega
  · exact h.pids
  · have hwaits := h.waits
    simp only [hpending, Bool.toNat_false] at hwaits
    simp only [List.length_append, List.length_singleton, Bool.toNat_true]
    omega
  · exact h.listed
  · exact h.masked

theorem deliver (h : ReapInv s) (hpending : s.pending = true) (hout : s.handler = .out)
    (hmask : ¬ s.main.BlocksSigcld) :
    ReapInv { s with pending := false, handler := .entered } := by
  constructor
  · simpa [hout, HandlerAt.waited] using h.known
  · exact h.pids
  · simpa [hpending, hout, HandlerAt.waits] using h.waits
  · intro r hr
    cases hr
  · exact fun hblocks => absurd hblocks hmask

theorem wait3 {childp : ChildRec} (h : ReapInv s) (hentered : s.handler = .entered)
    (hmem : childp ∈ s.zombies) (hmain : s.main ≠ .forked childp) :
    ReapInv { s with zombies := s.zombies.erase childp, handler := .reaping childp } := by
  have hmask : ¬ s.main.BlocksSigcld := by
    intro hblocks
    have hout := h.masked hblocks
    rw [hentered] at hout
    cases hout
  have hknown : (s.main.uninserted ++ s.children).Perm (s.live ++ s.zombies) := by
    simpa [hentered, HandlerAt.waited] using h.known
  constructor
  · refine hknown.trans ?_
    rw [List.perm_iff_count]
    intro r
    have hcount := (List.perm_cons_erase hmem).count_eq r
    simp only [HandlerAt.waited, List.count_append, List.count_cons, List.count_nil] at hcount ⊢
    omega
  · exact h.pids
  · have hwaits := h.waits
    have hpos := List.length_pos_of_mem hmem
    simp only [hentered, HandlerAt.waits] at hwaits ⊢
    rw [List.length_erase_of_mem hmem]
    omega
  · intro r hr
    cases hr
    have hin := hknown.mem_iff.mpr (List.mem_append_right _ hmem)
    rcases List.mem_append.mp hin with hun | hchild
    · -- only a child between its fork and its insertion could be missing from the list
      cases hm : s.main with
      | forked r =>
          rw [hm] at hun hmain
          exact absurd (congrArg SpawnAt.forked (List.mem_singleton.mp hun).symm) hmain
      | blocked r => exact absurd (hm ▸ trivial) hmask
      | idle | inserted _ | waiting => simp [hm, SpawnAt.uninserted] at hun
    · exact hchild
  · exact fun hblocks => absurd hblocks hmask

theorem reap {childp : ChildRec} (h : ReapInv s) (hreaping : s.handler = .reaping childp) :
    ReapInv { s with children := childReap s.children childp.cPid, handler := .out } := by
  have hmem := h.listed childp hreaping
  have hknown : (s.main.uninserted ++ s.children).Perm (s.live ++ s.zombies ++ [childp]) := by
    simpa [hreaping, HandlerAt.waited] using h.known
  rw [h.childReap_eq hmem]
  have hsub : (s.main.uninserted ++ s.children.erase childp).Sublist
      (s.main.uninserted ++ s.children) := (List.erase_sublist).append_left _
  constructor
  · rw [List.perm_iff_count]
    intro r
    have hcount := (List.perm_cons_erase hmem).count_eq r
    have hall := hknown.count_eq r
    simp only [HandlerAt.waited, List.count_append, List.count_cons, List.count_nil]
      at hcount hall ⊢
    omega
  · exact h.pids.sublist (hsub.map _)
  · simpa [hreaping, HandlerAt.waits] using h.waits
  · intro r hr
    cases hr
  · exact fun _ => rfl

/-- Every step that loses no termination keeps the invariant. -/
theorem step {a : ReapAct} (h : ReapInv s) (hstep : ReapStep a s s') (hnone : NoneLost s a) :
    ReapInv s' := by
  cases hstep with
  | fork hmain hout _ hpid => exact h.fork hmain hout hpid
  | block hmain hout => exact h.of_main hout (by rw [hmain]; rfl)
  | listAddTail hmain hout => exact h.listAddTail hmain hout
  | unblock hmain hout => exact h.of_main hout (by rw [hmain]; rfl)
  | childWait hmain hout => exact h.of_main hout (by rw [hmain]; rfl)
  | terminate hlive => exact h.terminate hlive hnone
  | deliver hpending hout hmask => exact h.deliver hpending hout hmask
  | wait3 hentered hmem => exact h.wait3 hentered hmem hnone
  | wait3Fails hentered hnil =>
      -- a handler that is entered has a zombie to wait for
      have hwaits := h.waits
      rw [hnil, hentered] at hwaits
      simp only [HandlerAt.waits, List.length_nil] at hwaits
      omega
  | reap hreaping => exact h.reap hreaping

end ReapInv

theorem reachable_reapInv (h : (reapSpec NoneLost).Reachable s) : ReapInv s := by
  refine Spec.invariant ReapInv ?_ ?_ h
  · rintro s rfl
    refine ⟨List.Perm.refl _, List.nodup_nil, rfl, ?_, fun _ => rfl⟩
    intro r hr
    cases hr
  · rintro s s' ⟨a, hnone, hstep⟩ hinv
    exact hinv.step hstep hnone

/-! ## No dead child stays registered -/

/-- In every run in which no child terminates while SIGCLD is pending and none is
waited for before its record is in the list: whenever the parent is quiet, every
record belongs to a running child and every terminated child has been waited for. -/
theorem no_dead_child_registered (h : (reapSpec NoneLost).Reachable s) (hq : s.Quiet) :
    AllReaped s := by
  have hinv := reachable_reapInv h
  have hzombies : s.zombies = [] := by
    have hwaits := hinv.waits
    rw [hq.pending, hq.handler] at hwaits
    exact List.eq_nil_of_length_eq_zero hwaits
  refine ⟨?_, hzombies⟩
  intro r hr
  have hknown := hinv.known
  rw [hq.main, hq.handler, hzombies] at hknown
  simpa [SpawnAt.uninserted, HandlerAt.waited] using hknown.mem_iff.mp hr

/-! ## Runs -/

def childA : ChildRec := ⟨⟨['a'], 2⟩, 0⟩

def childB : ChildRec := ⟨⟨['b'], 3⟩, 1⟩

/-- `child_spawn` from one quiet state to the next, when nothing else happens. -/
theorem reachable_spawn {P : Parent → ReapAct → Prop} (hP : ∀ s, P s .spawn) (childp : ChildRec)
    (h : (reapSpec P).Reachable s) (hq : s.Quiet) (hbirth : childp.birth = s.forks)
    (hpid : ∀ r ∈ s.live ++ s.zombies, r.cPid ≠ childp.cPid) :
    (reapSpec P).Reachable
      { s with children := s.children ++ [childp], live := childp :: s.live
               main := .idle, forks := s.forks + 1 } := by
  have h1 := h.step ⟨_, hP _, .fork hq.main hq.handler hbirth hpid⟩
  have h2 := h1.step ⟨_, hP _, .block rfl hq.handler⟩
  have h3 := h2.step ⟨_, hP _, .listAddTail rfl hq.handler⟩
  have h4 := h3.step ⟨_, hP _, .unblock rfl hq.handler⟩
  exact h4.step ⟨_, hP _, .childWait rfl hq.handler⟩

/-- A child is spawned, terminates and is reaped. -/
theorem no_dead_child_registered_of_one :
    ∃ s, (reapSpec NoneLost).Reachable s ∧ s.forks = 1 ∧ s.Quiet ∧ AllReaped s := by
  have h0 : (reapSpec NoneLost).Reachable noChildren := .init rfl
  have h1 := reachable_spawn (fun _ => trivial) childA h0 ⟨rfl, rfl, rfl⟩ rfl (by decide)
  have h2 := h1.step ⟨.terminate childA, rfl, .terminate (by decide)⟩
  have h3 := h2.step ⟨.deliver, trivial, .deliver rfl rfl (by simp [SpawnAt.BlocksSigcld])⟩
  have hmain : SpawnAt.idle ≠ .forked childA := by decide
  have h4 := h3.step ⟨.wait3 (some childA), hmain, .wait3 rfl (by decide)⟩
  have h5 := h4.step ⟨.reap, trivial, .reap rfl⟩
  exact ⟨_, h5, rfl, ⟨rfl, rfl, rfl⟩, no_dead_child_registered h5 ⟨rfl, rfl, rfl⟩⟩

/-- Two children terminate before the handler runs: one is waited for, the other
stays a zombie with its record. A child terminates before its record is in the
list: it is waited for, and its record is inserted afterwards. -/
theorem dead_child_stays_registered :
    (∃ s, (reapSpec fun _ _ => True).Reachable s ∧ s.Quiet ∧ ¬ AllReaped s ∧ s.zombies ≠ []) ∧
    (∃ s, (reapSpec fun _ _ => True).Reachable s ∧ s.Quiet ∧ ¬ AllReaped s ∧ s.zombies = []) := by
  have h0 : (reapSpec fun _ _ => True).Reachable noChildren := .init rfl
  refine ⟨?_, ?_⟩
  · -- both die before the handler runs: one signal, one `wait3`
    have h1 := reachable_spawn (fun _ => trivial) childA h0 ⟨rfl, rfl, rfl⟩ rfl (by decide)
    have h2 := reachable_spawn (fun _ => trivial) childB h1 ⟨rfl, rfl, rfl⟩ rfl (by decide)
    have h3 := h2.step ⟨.terminate childA, trivial, .terminate (by decide)⟩
    have h4 := h3.step ⟨.terminate childB, trivial, .terminate (by decide)⟩
    have h5 := h4.step ⟨.deliver, trivial, .deliver rfl rfl (by simp [SpawnAt.BlocksSigcld])⟩
    have h6 := h5.step ⟨.wait3 (some childA), trivial, .wait3 rfl (by decide)⟩
    have h7 := h6.step ⟨.reap, trivial, .reap rfl⟩
    exact ⟨_, h7, ⟨rfl, rfl, rfl⟩, by simp [AllReaped, noChildren, childA, childB], by decide⟩
  · -- the child dies and is waited for before its record is in the list
    have h1 := h0.step ⟨.spawn, trivial, @ReapStep.fork _ childA rfl rfl rfl (by decide)⟩
    have h2 := h1.step ⟨.terminate childA, trivial, .terminate (by decide)⟩
    have h3 := h2.step ⟨.deliver, trivial, .deliver rfl rfl (by simp [SpawnAt.BlocksSigcld])⟩
    have h4 := h3.step ⟨.wait3 (some childA), trivial, .wait3 rfl (by decide)⟩
    have h5 := h4.step ⟨.reap, trivial, .reap rfl⟩
    have h6 := h5.step ⟨_, trivial, .block rfl rfl⟩
    have h7 := h6.step ⟨_, trivial, .listAddTail rfl rfl⟩
    have h8 := h7.step ⟨_, trivial, .unblock rfl rfl⟩
    have h9 := h8.step ⟨_, trivial, .childWait rfl rfl⟩
    exact ⟨_, h9, ⟨rfl, rfl, rfl⟩, by simp [AllReaped, noChildren, childReap, childFindByPid],
      by decide⟩

end Memtoy
