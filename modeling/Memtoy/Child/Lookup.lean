import Memtoy.Child.Reap

/-!
# Child.Lookup — records in use while SIGCLD is handled

`child_find_by_name` walks the list of children with SIGCLD unblocked, and
`child_send` and `child_kick` go on to use the record it returns. The handler may
run between any two of their steps and free the record of a child that has died.
Every step of the main program is labelled with the record it reads or writes.
-/

namespace Memtoy

open CString Trans

/-! ## The main program -/

/-- Who has called `child_find_by_name`, and what the rest of the call depends on:
whether `parse_signal` accepts the argument of `child_kick`. -/
inductive Caller where
  | childSpawn
  | childSend
  | childKick (sigOk : Bool)
deriving DecidableEq, Repr

/-- Where the main program is. -/
inductive LookupAt where
  | idle
  /-- Before `list_for_each`. -/
  | finding (caller : Caller) (name : CStr)
  /-- At `strcmp(child_name, this_one->c_name)`. -/
  | comparing (caller : Caller) (name : CStr) (lp : ChildRec)
  /-- At `lp = lp->next`. -/
  | stepping (caller : Caller) (name : CStr) (lp : ChildRec)
  /-- `child_find_by_name` has returned a record. -/
  | found (caller : Caller) (childp : ChildRec)
  /-- `write` has failed; at the message that names the child. -/
  | writeFailed (childp : ChildRec)
  /-- At `childp->c_errs += 1`. -/
  | countingError (childp : ChildRec)
  /-- In `child_wait`, at `childp->c_rfd`. -/
  | waiting (childp : ChildRec)
  /-- In `child_wait`, blocked in `read`. -/
  | reading (childp : ChildRec)
  /-- `read` has failed; at the message that names the child. -/
  | readFailed (childp : ChildRec)
  /-- At `childp->c_errs = 0`. -/
  | clearingErrors (childp : ChildRec)
deriving DecidableEq, Repr

structure Lookup where
  /-- The records in `gcp->children`. -/
  children : List ChildRec
  /-- The children that have died and not been waited for. -/
  dead : List Pid
  main : LookupAt
deriving DecidableEq, Repr

/-- `lp->next` of a record in the list; `none` is the list head. -/
def nextOf (children : List ChildRec) (lp : ChildRec) : Option ChildRec :=
  (children.dropWhile (· ≠ lp)).tail.head?

inductive LookupAct where
  /-- A step of the main program, with the record it reads or writes. -/
  | main (touched : Option ChildRec)
  | dies (cpid : Pid)
  /-- `sigcld_handler`, from `wait3` to the end of `child_reap`. -/
  | handler (cpid : Pid)
deriving DecidableEq, Repr

/-- The walk goes on at a record, or ends with NULL, after which the callers use no
record. -/
def walkAt (caller : Caller) (name : CStr) : Option ChildRec → LookupAt
  | some lp => .comparing caller name lp
  | none => .idle

inductive LookupStep : LookupAct → Lookup → Lookup → Prop where
  | insert {s : Lookup} (childp : ChildRec) : s.main = .idle →
      LookupStep (.main none) s { s with children := s.children ++ [childp] }
  | call {s : Lookup} (caller : Caller) (name : CStr) : s.main = .idle →
      LookupStep (.main none) s { s with main := .finding caller name }
  -- `child_find_by_name`
  | first {s : Lookup} {caller : Caller} {name : CStr} : s.main = .finding caller name →
      LookupStep (.main none) s { s with main := walkAt caller name s.children.head? }
  | compare {s : Lookup} {caller : Caller} {name : CStr} {lp : ChildRec} :
      s.main = .comparing caller name lp →
      LookupStep (.main (some lp)) s
        { s with main := if lp.cName = name then .found caller lp else .stepping caller name lp }
  | next {s : Lookup} {caller : Caller} {name : CStr} {lp : ChildRec} :
      s.main = .stepping caller name lp → lp ∈ s.children →
      LookupStep (.main (some lp)) s { s with main := walkAt caller name (nextOf s.children lp) }
  /-- `lp->next` of a freed record is anything. -/
  | nextFreed {s : Lookup} {caller : Caller} {name : CStr} {lp : ChildRec}
      (anything : Option ChildRec) : s.main = .stepping caller name lp → lp ∉ s.children →
      LookupStep (.main (some lp)) s { s with main := walkAt caller name anything }
  -- `child_spawn`: the name is in use
  | inUse {s : Lookup} {childp : ChildRec} : s.main = .found .childSpawn childp →
      LookupStep (.main (some childp)) s { s with main := .idle }
  -- `child_send`
  | write {s : Lookup} {childp : ChildRec} (ok : Bool) : s.main = .found .childSend childp →
      LookupStep (.main (some childp)) s
        { s with main := if ok then .waiting childp else .writeFailed childp }
  | writeMessage {s : Lookup} {childp : ChildRec} : s.main = .writeFailed childp →
      LookupStep (.main (some childp)) s { s with main := .countingError childp }
  | countError {s : Lookup} {childp : ChildRec} : s.main = .countingError childp →
      LookupStep (.main (some childp)) s { s with main := .idle }
  | wait {s : Lookup} {childp : ChildRec} : s.main = .waiting childp →
      LookupStep (.main (some childp)) s { s with main := .reading childp }
  | read {s : Lookup} {childp : ChildRec} (ok : Bool) : s.main = .reading childp →
      LookupStep (.main none) s
        { s with main := if ok then .clearingErrors childp else .readFailed childp }
  | readMessage {s : Lookup} {childp : ChildRec} : s.main = .readFailed childp →
      LookupStep (.main (some childp)) s { s with main := .clearingErrors childp }
  | clearErrors {s : Lookup} {childp : ChildRec} : s.main = .clearingErrors childp →
      LookupStep (.main (some childp)) s { s with main := .idle }
  -- `child_kick`
  | kick {s : Lookup} {childp : ChildRec} : s.main = .found (.childKick true) childp →
      LookupStep (.main (some childp)) s { s with main := .idle }
  | badSignal {s : Lookup} {childp : ChildRec} : s.main = .found (.childKick false) childp →
      LookupStep (.main none) s { s with main := .idle }
  -- the children and the handler
  | dies {s : Lookup} (cpid : Pid) :
      LookupStep (.dies cpid) s { s with dead := cpid :: s.dead }
  | handler {s : Lookup} {cpid : Pid} : cpid ∈ s.dead →
      LookupStep (.handler cpid) s
        { s with dead := s.dead.erase cpid, children := childReap s.children cpid }

/-- The runs of the main program and the handler in which every step meets `P`. -/
def lookupSpec (P : Lookup → LookupAct → Prop) : Spec Lookup :=
  Spec.under (fun s => s.children = [] ∧ s.dead = [] ∧ s.main = .idle) LookupStep P

/-! ## The record in use -/

/-- The record the main program is still going to read or write. -/
def LookupAt.held : LookupAt → Option ChildRec
  | .idle | .finding _ _ | .found (.childKick false) _ => none
  | .comparing _ _ r | .stepping _ _ r | .found _ r | .writeFailed r | .countingError r
  | .waiting r | .reading r | .readFailed r | .clearingErrors r => some r

/-- The handler does not reap the record the main program holds. -/
def HeldKept (s : Lookup) : LookupAct → Prop
  | .handler cpid => ∀ r, childFindByPid s.children cpid = some r → s.main.held ≠ some r
  | _ => True

def HeldListed (s : Lookup) : Prop := ∀ r, s.main.held = some r → r ∈ s.children

variable {s s' : Lookup} {r : ChildRec}

/-- Every record the main program reads or writes is the one it holds. -/
theorem held_of_touched (hstep : LookupStep (.main (some r)) s s') : s.main.held = some r := by
  cases hstep with
  | compare hm | next hm | nextFreed _ hm | inUse hm | write _ hm | writeMessage hm | countError hm
  | wait hm | readMessage hm | clearErrors hm | kick hm => rw [hm]; rfl

theorem nextOf_mem {children : List ChildRec} {lp : ChildRec} (h : nextOf children lp = some r) :
    r ∈ children := by
  have htail := List.mem_of_mem_head? h
  exact (List.dropWhile_sublist _).mem (List.mem_of_mem_tail htail)

theorem held_walkAt {caller : Caller} {name : CStr} {lp : Option ChildRec}
    (h : (walkAt caller name lp).held = some r) : lp = some r := by
  cases lp with
  | none => cases h
  | some lp => exact h

/-- Reaping another record leaves a record in the list. -/
theorem mem_childReap {children : List ChildRec} {cpid : Pid} (hmem : r ∈ children)
    (hother : childFindByPid children cpid ≠ some r) : r ∈ childReap children cpid := by
  unfold childReap
  split
  · exact hmem
  · next childp hfind =>
    have hne : r ≠ childp := fun heq => hother (heq ▸ hfind)
    exact (List.mem_erase_of_ne hne).mpr hmem

theorem held_found {caller : Caller} {childp : ChildRec}
    (h : (LookupAt.found caller childp).held = some r) : childp = r := by
  rcases caller with _ | _ | (_ | _)
  · exact Option.some.inj h
  · exact Option.some.inj h
  · cases h
  · exact Option.some.inj h

/-- A step of the main program keeps the record it holds, drops it, or takes one
from the list. -/
theorem HeldListed.main {touched : Option ChildRec} (h : HeldListed s)
    (hstep : LookupStep (.main touched) s s') : HeldListed s' := by
  intro r hr
  cases hstep with
  | insert childp hm => rw [hm] at hr; cases hr
  | call caller name hm => cases hr
  | first hm => exact List.mem_of_mem_head? (held_walkAt hr)
  | compare hm =>
      have hlp := h _ (by rw [hm]; rfl)
      dsimp only at hr
      split at hr
      · exact held_found hr ▸ hlp
      · exact Option.some.inj hr ▸ hlp
  | next hm _ => exact nextOf_mem (held_walkAt hr)
  -- a walk that stands at a listed record never reads a freed one
  | nextFreed anything hm hfreed => exact absurd (h _ (by rw [hm]; rfl)) hfreed
  | write ok hm =>
      have hchildp := h _ (by rw [hm]; rfl)
      cases ok <;> exact Option.some.inj hr ▸ hchildp
  | read ok hm =>
      have hchildp := h _ (by rw [hm]; rfl)
      cases ok <;> exact Option.some.inj hr ▸ hchildp
  | writeMessage hm | wait hm | readMessage hm =>
      exact Option.some.inj hr ▸ h _ (by rw [hm]; rfl)
  | inUse hm | countError hm | clearErrors hm | kick hm | badSignal hm => cases hr

theorem HeldListed.step {a : LookupAct} (h : HeldListed s) (hstep : LookupStep a s s')
    (hkept : HeldKept s a) : HeldListed s' := by
  cases a with
  | main touched => exact h.main hstep
  | dies cpid =>
      cases hstep with
      | dies => exact h
  | handler cpid =>
      cases hstep with
      | handler hdead =>
          intro r hr
          exact mem_childReap (h r hr) fun hfind => hkept r hfind hr

theorem reachable_heldListed (h : (lookupSpec HeldKept).Reachable s) : HeldListed s := by
  refine Spec.invariant HeldListed ?_ ?_ h
  · rintro s ⟨-, -, hm⟩ r hr
    rw [hm] at hr
    cases hr
  · rintro s s' ⟨a, hkept, hstep⟩ hlisted
    exact hlisted.step hstep hkept

/-- `child_send` to the only child, up to the `read` of `child_wait`. -/
theorem reachable_reading {P : Lookup → LookupAct → Prop} (hP : ∀ s t, P s (.main t)) :
    (lookupSpec P).Reachable ⟨[childA], [], .reading childA⟩ := by
  have h0 : (lookupSpec P).Reachable ⟨[], [], .idle⟩ := .init ⟨rfl, rfl, rfl⟩
  have h1 := h0.step ⟨_, hP _ _, .insert childA rfl⟩
  have h2 := h1.step ⟨_, hP _ _, .call .childSend ['a'] rfl⟩
  have h3 := h2.step ⟨_, hP _ _, .first rfl⟩
  have h4 := h3.step ⟨_, hP _ _, .compare rfl⟩
  have h5 := h4.step ⟨_, hP _ _, .write true rfl⟩
  exact h5.step ⟨_, hP _ _, .wait rfl⟩

end Memtoy
