import Memtoy.Segment.FileMap
import Memtoy.Segment.Ownership

/-!
# Segment.Naming — the name a segment is found under

`segment_register` takes the `basename` of the name it is given, for all types of
segments; the other operations look up the name they are given as it is. `ActsOn`
says that a call is about one segment: it finds it, issues its system calls for it
and leaves the others alone. A segment is found under the name it was registered
with, until it is removed, exactly when that name is its own `basename`
(`found_under_name_iff`).
-/

namespace Memtoy

open CString Relation

/-! ## Calls about one segment -/

/-- The segment a system call is issued for. -/
def SysCall.segp : SysCall → SegPtr
  | .openFile segp .. | .close segp _ | .shmget segp .. | .shmRmid segp _ | .shmLock segp ..
  | .shmat segp .. | .shmdt segp _ | .mmap segp .. | .munmap segp .. | .mprotect segp ..
  | .touchMemory segp .. | .mbind segp .. | .getNode segp _ | .mlock segp .. => segp

/-- The name a call looks up. -/
def Op.target : Op → Option CStr
  | .get name | .remove name | .unmap name | .map _ name _ _ | .mprotect _ name _
  | .touch _ _ name _ _ | .mbind _ name _ _ _ _ | .location _ _ _ name _
  | .lockUnlock _ name _ _ _ => some name
  | .register .. => none

/-- The call is about `segp`. -/
structure ActsOn (g : Glctx) (op : Op) (segp : SegPtr) : Prop where
  found : ∃ name, op.target = some name ∧ (segmentGet g name).1 = some segp
  calls : Appends (fun c => c.segp = segp) g (op.exec g)
  others : ∀ q, g.Live q → q ≠ segp → HasRecord (op.exec g) q (g.heap q)

theorem unmapSegment_calls (g : Glctx) (segp : SegPtr) :
    Appends (fun c => c.segp = segp) g (unmapSegment g segp) := by
  simp only [unmapSegment]
  split
  · exact .of_log_eq rfl
  · cases (g.heap segp).segType with
    | segtNone => exact .of_log_eq rfl
    | segtAnon => exact .of_emit rfl rfl
    | segtFile => exact .of_emit rfl rfl
    | segtShm => exact .of_emit rfl rfl

theorem freeSegSlot_calls (g : Glctx) (segp : SegPtr) :
    Appends (fun c => c.segp = segp) g (freeSegSlot g segp) := by
  refine ⟨_, freeSegSlot_log g segp, ?_⟩
  intro c hc
  unfold releaseCalls at hc
  rcases List.mem_append.mp hc with hc | hc <;> split at hc
  · rw [List.mem_singleton.mp hc]
    rfl
  · cases hc
  · rw [List.mem_singleton.mp hc]
    rfl
  · cases hc

/-- Every call that looks a segment up issues its system calls for that segment. -/
theorem Op.calls_for (op : Op) {g g₁ : Glctx} {name : CStr} {p : SegPtr}
    (htarget : op.target = some name) (hget : segmentGet g name = (some p, g₁)) :
    Appends (fun c => c.segp = p) g (op.exec g) := by
  refine .of_lookup hget ?_
  cases op with
  | register k type n range flags => cases htarget
  | get n =>
      obtain rfl := Option.some.inj htarget
      simp only [Op.exec, hget]
      exact .of_log_eq rfl
  | remove n =>
      obtain rfl := Option.some.inj htarget
      simp only [Op.exec, segmentRemove, hget]
      exact .ite (.of_log_eq rfl) ((unmapSegment_calls g₁ p).trans (freeSegSlot_calls _ p))
  | unmap n =>
      obtain rfl := Option.some.inj htarget
      simp only [Op.exec, segmentUnmap, hget]
      exact .ite (.of_log_eq rfl) (unmapSegment_calls g₁ p)
  | map k n range flags =>
      obtain rfl := Option.some.inj htarget
      simp only [Op.exec, segmentMap, hget]
      refine .ite (.of_log_eq rfl) ?_
      split
      · exact mapAnonSegment_issues k _ p (fun _ _ _ _ _ _ _ => rfl)
      · exact mapFileSegment_issues k _ p (fun _ _ _ _ _ _ _ => rfl)
      · exact mapShmSegment_issues k _ p (fun _ _ => rfl)
      · exact .of_log_eq rfl
  | mprotect k n prot =>
      obtain rfl := Option.some.inj htarget
      simp only [Op.exec, segmentMprotect, hget]
      exact .ite (.of_emit rfl rfl) (.of_emit rfl rfl)
  | touch ev fuel n range rw =>
      obtain rfl := Option.some.inj htarget
      simp only [Op.exec, segmentTouch, hget]
      split
      · exact .of_log_eq rfl
      · split
        · exact .of_log_eq rfl
        · split
          · exact .of_emit rfl rfl
          · exact .ite (.of_emit rfl rfl) (.of_emit rfl rfl)
  | mbind k n range policy nodemask flags =>
      obtain rfl := Option.some.inj htarget
      simp only [Op.exec, segmentMbind, hget]
      refine .ite (.of_log_eq rfl) ?_
      split
      · exact .of_log_eq rfl
      · exact .ite (.of_emit rfl rfl) (.of_emit rfl rfl)
  | location k sig fuel n range =>
      obtain rfl := Option.some.inj htarget
      simp only [Op.exec, segmentLocation, hget]
      refine .ite (.of_log_eq rfl) ?_
      split
      · exact .of_log_eq rfl
      · refine .ite (.of_log_eq rfl) ?_
        split
        · exact .of_log_eq rfl
        · next run _ =>
          have hfor : ∀ c ∈ run.visited.map (SysCall.getNode p), c.segp = p := by
            intro c hc
            obtain ⟨vaddr, -, rfl⟩ := List.mem_map.mp hc
            rfl
          exact .ite ⟨_, rfl, hfor⟩ ⟨_, rfl, hfor⟩
  | lockUnlock k n range lock shm =>
      obtain rfl := Option.some.inj htarget
      simp only [Op.exec, segmentLockUnlock, hget]
      refine .ite (.of_log_eq rfl) (.ite (.ite (.of_log_eq rfl) ?_) ?_)
      · exact .ite (.of_emit rfl rfl) (.of_emit rfl rfl)
      · split
        · exact .of_log_eq rfl
        · exact .ite (.of_emit rfl rfl) (.of_emit rfl rfl)

/-- A call under another name leaves the record as it is. -/
theorem Op.effectOn_of_ne (op : Op) (pagesize : Word) (segp : SegPtr) {s : Segment} {name : CStr}
    (htarget : op.target = some name) (hne : s.segName ≠ some name) :
    op.effectOn pagesize segp s = s := by
  cases op with
  | map k n range flags =>
      obtain rfl := Option.some.inj htarget
      exact if_neg (fun hc => hne hc.1)
  | unmap n =>
      obtain rfl := Option.some.inj htarget
      exact if_neg (fun hc => hne hc.1)
  | remove n =>
      obtain rfl := Option.some.inj htarget
      exact if_neg (fun hc => hne hc.1)
  | mprotect k n prot =>
      obtain rfl := Option.some.inj htarget
      exact if_neg (fun hc => hne hc.1)
  | _ => rfl

/-- A call under a live segment's name is about that segment. -/
theorem Op.actsOn (op : Op) (hok : op.Ok) {g : Glctx} (h : RepInv g) (hpages : PageInv g)
    {name : CStr} (htarget : op.target = some name) {segp : SegPtr} (hlive : g.Live segp)
    (hname : (g.heap segp).segName = some name) : ActsOn g op segp := by
  obtain ⟨avail, hget⟩ := segmentGet_live h hlive hname
  refine ⟨⟨name, htarget, by rw [hget]⟩, op.calls_for htarget hget, ?_⟩
  intro q hq hne
  have hother : (g.heap q).segName ≠ some name := by
    intro hc
    exact hne (h.unique q segp hq hlive (hc.trans hname.symm))
  have hrec := op.exec_heap hok h hpages.pagesize hq
  rwa [op.effectOn_of_ne _ _ htarget hother] at hrec

/-! ## From registration to removal -/

/-- A step after which `segp` is still live. -/
def KeepsLive (segp : SegPtr) (g g' : Glctx) : Prop := (segSpec anyOp).Next g g' ∧ g'.Live segp

/-- `name` finds `segp`, and every call with that name is about it, from `g` on until
it is removed. -/
def FoundUnder (g : Glctx) (segp : SegPtr) (name : CStr) : Prop :=
  ∀ g', ReflTransGen (KeepsLive segp) g g' → (segmentGet g' name).1 = some segp ∧
    ∀ op : Op, op.Ok → op.target = some name → ActsOn g' op segp

/-- As long as it is live, a segment keeps its name. -/
theorem segName_of_keepsLive {segp : SegPtr} {g g' : Glctx} (hreach : (segSpec anyOp).Reachable g)
    (hlive : g.Live segp) (hrun : ReflTransGen (KeepsLive segp) g g') :
    (segSpec anyOp).Reachable g' ∧ g'.Live segp ∧
      (g'.heap segp).segName = (g.heap segp).segName := by
  induction hrun with
  | refl => exact ⟨hreach, hlive, rfl⟩
  | tail _ hlast ih =>
      obtain ⟨hreach₁, hlive₁, hname₁⟩ := ih
      obtain ⟨hnext, hlive₂⟩ := hlast
      have hreach₂ := hreach₁.step hnext
      obtain ⟨op, hok, -, rfl⟩ := hnext
      obtain ⟨-, hheap⟩ := op.exec_heap hok (reachable_repInv hreach₁)
        (reachable_pageInv hreach₁).pagesize hlive₁
      refine ⟨hreach₂, hlive₂, ?_⟩
      have hident := op.effectOn_identity _ segp _ (by rw [← hheap]; exact hlive₂.2)
      rw [hheap, hident.1, hname₁]

theorem foundUnder_iff {g : Glctx} (hreach : (segSpec anyOp).Reachable g) {segp : SegPtr}
    (hlive : g.Live segp) (name : CStr) :
    FoundUnder g segp name ↔ (g.heap segp).segName = some name := by
  constructor
  · intro h
    have hfound := (h g .refl).1
    rcases hget : segmentGet g name with ⟨p, g₁⟩
    rw [hget] at hfound
    obtain rfl : p = some segp := hfound
    exact (segmentGet_some (reachable_repInv hreach) hget).2.1
  · intro hname g' hrun
    obtain ⟨hreach', hlive', hname'⟩ := segName_of_keepsLive hreach hlive hrun
    have hrep' := reachable_repInv hreach'
    have hn := hname'.trans hname
    obtain ⟨avail, hget⟩ := segmentGet_live hrep' hlive' hn
    refine ⟨by rw [hget], ?_⟩
    intro op hok htarget
    exact op.actsOn hok hrep' (reachable_pageInv hreach') htarget hlive' hn

/-- In every reachable state, an anon or shm segment that is registered under `name` is
found under `name`, and the later calls with that name are about it until it is removed,
exactly when `name` has no slash, or is a single slash. -/
theorem found_under_name_iff {g : Glctx} (hreach : (segSpec anyOp).Reachable g) {k : Kernel}
    {type : SegType} (htype : type = .segtAnon ∨ type = .segtShm) {name : CStr} (hne : name ≠ [])
    {range : Range} {flags : Flags} (hmaps : flags &&& segfMaps = 0)
    (hok : (segmentRegister k g type name range flags).1 = .segOk) :
    ∃ segp, ¬ g.Live segp ∧ (segmentRegister k g type name range flags).2.Live segp ∧
      (FoundUnder (segmentRegister k g type name range flags).2 segp name ↔
        '/' ∉ name ∨ name = ['/']) := by
  have htype' : type ≠ .segtNone := by
    rcases htype with rfl | rfl <;> decide
  obtain ⟨segp, s, hnew, ⟨hent, hheap⟩, hreg⟩ :=
    segmentRegister_new k (reachable_repInv hreach) name range htype' hmaps hok
  have hlive : (segmentRegister k g type name range flags).2.Live segp := by
    refine ⟨hent, ?_⟩
    rw [hheap, hreg.type_eq]
    exact htype'
  have hreach' : (segSpec anyOp).Reachable (segmentRegister k g type name range flags).2 :=
    hreach.step ⟨.register k type name range flags, ⟨htype', hmaps⟩, trivial, rfl⟩
  refine ⟨segp, hnew, hlive, ?_⟩
  rw [foundUnder_iff hreach' hlive, hheap, hreg.name_eq, Option.some.injEq]
  exact basename_eq_self_iff hne

/-- `anon a 4k` on the concrete machine is found under `a`. -/
theorem found_under_name_iff_plain :
    ∃ segp, ¬ sampleTable.Live segp ∧ FoundUnder (sampleAnon.exec sampleTable) segp ['a'] := by
  obtain ⟨segp, hnew, -, hiff⟩ := @found_under_name_iff sampleTable
    (sampleTable_reachable anyOp) sampleKernel .segtAnon (Or.inl rfl) ['a'] (by decide)
    ⟨0, 0x1000#64, 0⟩ 0 (by decide) (by decide)
  exact ⟨segp, hnew, hiff.mpr (Or.inl (by decide))⟩

/-- `anon a/b 4k` on the concrete machine. -/
def sampleSlash : Op := .register sampleKernel .segtAnon ['a', '/', 'b'] ⟨0, 0x1000#64, 0⟩ 0

/-- The segment is registered as `b`, and `a/b` finds nothing. -/
theorem slash_name_not_found :
    (segmentRegister sampleKernel sampleTable .segtAnon ['a', '/', 'b'] ⟨0, 0x1000#64, 0⟩ 0).1 =
        .segOk ∧
      ¬ sampleTable.Live 1 ∧ (sampleSlash.exec sampleTable).Live 1 ∧
      (segmentGet (sampleSlash.exec sampleTable) ['b']).1 = some 1 ∧
      (segmentGet (sampleSlash.exec sampleTable) ['a', '/', 'b']).1 = none ∧
      ¬ FoundUnder (sampleSlash.exec sampleTable) 1 ['a', '/', 'b'] := by
  have hnone : (segmentGet (sampleSlash.exec sampleTable) ['a', '/', 'b']).1 = none := by decide
  refine ⟨by decide, ?_, ⟨by decide, by decide⟩, by decide, hnone, ?_⟩
  · rintro ⟨hmem, -⟩
    exact absurd hmem (by decide)
  · intro h
    have hfound := (h _ .refl).1
    rw [hnone] at hfound
    cases hfound

end Memtoy
