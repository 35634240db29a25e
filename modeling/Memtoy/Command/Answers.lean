import Memtoy.Command.Shell
import Memtoy.Segment.Settled

/-!
# Command.Answers — which calls of the segment API return, and what

In terms of the state before the call and of what the kernel answers. A call without a
page loop always returns; `touch` and `where` do not when they get past their guards on a
segment without a page size.
-/

namespace Memtoy

open CString MachineWord

/-- There is a segment with that name, and its record is so. -/
def Glctx.Named (g : Glctx) (name : CStr) (P : Segment → Prop) : Prop :=
  ∃ segp, g.Live segp ∧ (g.heap segp).segName = some name ∧ P (g.heap segp)

/-- It returns `SEG_OK` or `SEG_ERR`. -/
def Cmd.SegAnswer.Returns (a : Cmd.SegAnswer) : Prop := a = .ok ∨ a = .err

theorem SegRet.answer_returns (r : SegRet) : r.answer.Returns := by
  cases r
  · exact Or.inr rfl
  · exact Or.inl rfl

@[simp] theorem Outcome.answer_void {α : Type} (o : Outcome α) : o.void.answer = o.answer := by
  cases o <;> rfl

theorem Outcome.answer_returns {α : Type} {o : Outcome α} :
    o.answer.Returns ↔ o.void ≠ .sigfpe ∧ o.void ≠ .running := by
  cases o <;> simp [answer, void, Cmd.SegAnswer.Returns]

section Lookup

variable {g : Glctx} {name : CStr}

/-- A lookup finds the segment with the name, or nothing if there is none. -/
theorem lookup_cases (h : RepInv g) (name : CStr) :
    (g.NameFree name ∧ (segmentGet g name).1 = none) ∨
      ∃ segp avail, g.Live segp ∧ (g.heap segp).segName = some name ∧
        segmentGet g name = (some segp, { g with segAvail := avail }) := by
  rcases hget : segmentGet g name with ⟨_ | segp, g₁⟩
  · refine Or.inl ⟨?_, rfl⟩
    intro segp hlive hname
    obtain ⟨avail, hfound⟩ := segmentGet_live h hlive hname
    rw [hfound] at hget
    cases hget
  · obtain ⟨hlive, hname, avail, rfl⟩ := segmentGet_some h hget
    exact Or.inr ⟨segp, avail, hlive, hname, rfl⟩

/-- What is said of the segment with the name is said of any that has it. -/
theorem named_iff (h : RepInv g) {P : Segment → Prop} {segp : SegPtr} (hlive : g.Live segp)
    (hname : (g.heap segp).segName = some name) : g.Named name P ↔ P (g.heap segp) := by
  constructor
  · rintro ⟨q, hq, hqname, hP⟩
    rw [h.unique segp q hlive hq (hname.trans hqname.symm)]
    exact hP
  · intro hP
    exact ⟨segp, hlive, hname, hP⟩

theorem not_named_of_free {P : Segment → Prop} (hfree : g.NameFree name) : ¬ g.Named name P := by
  rintro ⟨segp, hlive, hname, -⟩
  exact hfree segp hlive hname

theorem not_free_of_live {segp : SegPtr} (hlive : g.Live segp)
    (hname : (g.heap segp).segName = some name) : ¬ g.NameFree name :=
  fun hfree => hfree segp hlive hname

/-- Names stay free, and taken, over a lookup. -/
theorem segmentGet_nameFree (h : RepInv g) (name' : CStr) :
    (segmentGet g name').2.NameFree name ↔ g.NameFree name := by
  have hiff : ∀ {g : Glctx}, g.NameFree name ↔ ∀ q ∈ g.liveSegs, q.2.segName ≠ some name := by
    intro g
    constructor
    · rintro hfree ⟨segp, s⟩ hmem
      obtain ⟨hlive, rfl⟩ := Glctx.mem_liveSegs.mp hmem
      exact hfree segp hlive
    · intro hall segp hlive
      exact hall (segp, g.heap segp) (Glctx.mem_liveSegs.mpr ⟨hlive, rfl⟩)
  rw [hiff, hiff, segmentGet_liveSegs h name']

end Lookup

/-! ## Answers -/

section Answers

variable {g : Glctx}

theorem answer_get (h : RepInv g) (name : CStr) :
    (segmentGet g name).1 = none ↔ g.NameFree name := by
  rcases lookup_cases h name with ⟨hfree, hnone⟩ | ⟨segp, avail, hlive, hname, hget⟩
  · exact ⟨fun _ => hfree, fun _ => hnone⟩
  · rw [hget]
    exact ⟨fun hc => (by cases hc), fun hfree => absurd hfree (not_free_of_live hlive hname)⟩

/-- When `segment_mprotect` returns `SEG_ERR`: there is no such segment, or the kernel
refuses. -/
def MprotectFails (k : Kernel) (g : Glctx) (name : CStr) (prot : Flags) : Prop :=
  g.NameFree name ∨ g.Named name fun s => k.mprotect s.segStart s.segLength prot = false

theorem answer_mprotect (k : Kernel) (h : RepInv g) (name : CStr) (prot : Flags) :
    (Op.mprotect k name prot).answer g = .err ↔ MprotectFails k g name prot := by
  simp only [Op.answer, segmentMprotect, MprotectFails]
  rcases lookup_cases h name with ⟨hfree, hnone⟩ | ⟨segp, avail, hlive, hname, hget⟩
  · generalize segmentGet g name = r at hnone ⊢
    obtain ⟨o, g₁⟩ := r
    subst hnone
    exact ⟨fun _ => Or.inl hfree, fun _ => rfl⟩
  · rw [hget, named_iff h hlive hname]
    have hnot := not_free_of_live hlive hname
    cases hk : k.mprotect (g.heap segp).segStart (g.heap segp).segLength prot
    · simp [hk, SegRet.answer]
    · simp [hk, SegRet.answer, hnot]

/-- When `segment_mbind` returns `SEG_OK`. -/
def MbindSucceeds (k : Kernel) (g : Glctx) (name : CStr) (range : Range) (policy : Int)
    (nodemask : Option Nat) (flags : Flags) : Prop :=
  g.Named name fun s => s.segStart ≠ mapFailed ∧ ∃ offset length,
    clampRange s range = some (offset, length) ∧
      k.mbind (s.segStart + offset) length policy nodemask flags = true

theorem answer_mbind (k : Kernel) (h : RepInv g) (name : CStr) (range : Range) (policy : Int)
    (nodemask : Option Nat) (flags : Flags) :
    (Op.mbind k name range policy nodemask flags).answer g = .ok ↔
      MbindSucceeds k g name range policy nodemask flags := by
  simp only [Op.answer, segmentMbind, MbindSucceeds]
  rcases lookup_cases h name with ⟨hfree, hnone⟩ | ⟨segp, avail, hlive, hname, hget⟩
  · generalize segmentGet g name = r at hnone ⊢
    obtain ⟨o, g₁⟩ := r
    subst hnone
    exact ⟨fun hc => (by cases hc), fun hn => absurd hn (not_named_of_free hfree)⟩
  · rw [hget, named_iff h hlive hname]
    simp only
    by_cases hst : (g.heap segp).segStart = mapFailed
    · simp [hst, Outcome.answer]
    · rcases hclamp : clampRange (g.heap segp) range with _ | ⟨offset, length⟩
      · simp [hst, Outcome.answer]
      · cases hk : k.mbind ((g.heap segp).segStart + offset) length policy nodemask flags <;>
          simp [hst, hk, Outcome.answer]

/-! ## Returning -/

section Returning

variable {segp : SegPtr} {name : CStr} {range : Range}

/-- The two operations with a page loop, with as many turns as there are addresses. -/
theorem run_returns_of_settled (h : (segSpec anyOp).Reachable g) (hlive : g.Live segp)
    (hname : (g.heap segp).segName = some name) (hpage : (g.heap segp).segPagesize ≠ 0)
    (op : RangeOp) : (op.run loopFuel g name range).1.answer.Returns := by
  rcases reachable_settled h segp with hzero | ⟨hps, hdvd⟩
  · exact absurd hzero hpage
  · have hends : (op.run loopFuel g name range).1 ≠ .sigfpe ∧
        (op.run loopFuel g name range).1 ≠ .running :=
      run_ends (reachable_repInv h) hlive hname hps hdvd op (Nat.le_of_lt (BitVec.isLt _))
    generalize (op.run loopFuel g name range).1 = o at hends ⊢
    cases o with
    | segErr => exact Or.inr rfl
    | segOk _ => exact Or.inl rfl
    | sigfpe => exact absurd rfl hends.1
    | running => exact absurd rfl hends.2

/-- Past its guards, a `touch` of a segment without a page size divides by zero if its
loop ends at all. -/
theorem touch_of_no_pagesize (h : RepInv g) (hlive : g.Live segp)
    (hname : (g.heap segp).segName = some name) (hpage : (g.heap segp).segPagesize = 0)
    (ev : Nat → PageEvent) {rw : Bool} (hno : ¬ Refuses (g.heap segp) range (.touch ev rw))
    (fuel : Nat) : ¬ (segmentTouch ev fuel g name range rw).1.answer.Returns := by
  obtain ⟨hrw, hlen⟩ := not_or.mp hno
  obtain ⟨avail, hget⟩ := segmentGet_live h hlive hname
  simp only [segmentTouch, hget]
  rw [if_neg hrw]
  rcases hclamp : clampRange (g.heap segp) range with _ | ⟨offset, length⟩
  · exact absurd (clampRange_none.mp hclamp) hlen
  · simp only
    split
    · rintro (hc | hc) <;> cases hc
    · rw [if_pos hpage]
      rintro (hc | hc) <;> cases hc

theorem location_of_no_pagesize (h : RepInv g) (hlive : g.Live segp)
    (hname : (g.heap segp).segName = some name) (hpage : (g.heap segp).segPagesize = 0)
    (k : Kernel) (sig : Nat → Bool) (hno : ¬ Refuses (g.heap segp) range (.location k sig))
    (fuel : Nat) : ¬ (segmentLocation k sig fuel g name range).1.answer.Returns := by
  obtain ⟨hst, hlen⟩ := not_or.mp hno
  obtain ⟨avail, hget⟩ := segmentGet_live h hlive hname
  simp only [segmentLocation, hget]
  rw [if_neg hst]
  rw [← whereRange_offset (g.heap segp) range] at hlen
  rcases hclamp : clampRange (g.heap segp) (if range.length = defaultLength then
      { range with length := 64#64 * (g.heap segp).segPagesize } else range) with _ | ⟨offset, length⟩
  · exact absurd (clampRange_none.mp hclamp) hlen
  · simp only
    rw [if_pos hpage]
    rintro (hc | hc) <;> cases hc

/-- A segment is past its last byte at once only if it has none. -/
theorem length_le_roundDown {s : Segment} (hpage : s.segPagesize = 0) (offset : Word) :
    s.segLength ≤ roundDownToSegmentPagesize offset s ↔ s.segLength = 0 := by
  rw [roundDown_of_no_pagesize hpage, BitVec.le_def]
  constructor
  · intro hle
    exact BitVec.eq_of_toNat_eq (Nat.le_zero.mp hle)
  · intro hzero
    rw [hzero]

end Returning

/-- The segments a `touch` does not come back from: without a page size, not empty, and
not refused as one of the maps file. -/
def TouchStuck (g : Glctx) (name : CStr) (rw : Bool) : Prop :=
  g.Named name fun s => s.segPagesize = 0 ∧ s.segLength ≠ 0 ∧ ¬ (rw = true ∧ s.isMaps = true)

theorem touch_returns (h : (segSpec anyOp).Reachable g) (ev : Nat → PageEvent) (name : CStr)
    (range : Range) (rw : Bool) :
    ((Op.touch ev loopFuel name range rw).answer g).Returns ↔ ¬ TouchStuck g name rw := by
  have hrep := reachable_repInv h
  simp only [Op.answer, TouchStuck]
  rcases lookup_cases hrep name with ⟨hfree, hnone⟩ | ⟨segp, avail, hlive, hname, hget⟩
  · refine ⟨fun _ => not_named_of_free hfree, fun _ => ?_⟩
    simp only [segmentTouch]
    generalize segmentGet g name = r at hnone ⊢
    obtain ⟨o, g₁⟩ := r
    subst hnone
    exact Or.inr rfl
  · have hrun : (segmentTouch ev loopFuel g name range rw).1.answer =
        ((RangeOp.touch ev rw).run loopFuel g name range).1.answer := (Outcome.answer_void _).symm
    rw [named_iff hrep hlive hname]
    constructor
    · rintro hret ⟨hpage, hlen, hrw⟩
      apply touch_of_no_pagesize hrep hlive hname hpage ev ?_ loopFuel hret
      rintro (hc | hc)
      · exact hrw hc
      · exact hlen ((length_le_roundDown hpage range.offset).mp hc)
    · intro hnot
      rw [hrun]
      by_cases hpage : (g.heap segp).segPagesize = 0
      · have hno : Refuses (g.heap segp) range (.touch ev rw) := by
          by_contra hc
          obtain ⟨hrw, hlen⟩ := not_or.mp hc
          exact hnot ⟨hpage, fun hz => hlen ((length_le_roundDown hpage range.offset).mpr hz), hrw⟩
        rw [(run_of_refuses hrep hlive hname hno loopFuel).1]
        exact Or.inr rfl
      · exact run_returns_of_settled h hlive hname hpage _

/-- The segments a `where` does not come back from are those of the maps file. -/
def WhereStuck (g : Glctx) (name : CStr) : Prop := g.Named name fun s => s.isMaps = true

theorem location_returns (h : (segSpec anyOp).Reachable g) (k : Kernel) (sig : Nat → Bool)
    (name : CStr) (range : Range) :
    ((Op.location k sig loopFuel name range).answer g).Returns ↔ ¬ WhereStuck g name := by
  have hrep := reachable_repInv h
  simp only [Op.answer, WhereStuck]
  rcases lookup_cases hrep name with ⟨hfree, hnone⟩ | ⟨segp, avail, hlive, hname, hget⟩
  · refine ⟨fun _ => not_named_of_free hfree, fun _ => ?_⟩
    simp only [segmentLocation]
    generalize segmentGet g name = r at hnone ⊢
    obtain ⟨o, g₁⟩ := r
    subst hnone
    exact Or.inr rfl
  · have hok := (reachable_pageInv h).records segp hlive
    have hrun : (segmentLocation k sig loopFuel g name range).1.answer =
        ((RangeOp.location k sig).run loopFuel g name range).1.answer :=
      (Outcome.answer_void _).symm
    rw [named_iff hrep hlive hname]
    constructor
    · intro hret hm
      obtain ⟨hst, hlen, hpage, -⟩ := hok.maps hm
      apply location_of_no_pagesize hrep hlive hname hpage k sig ?_ loopFuel hret
      rintro (hc | hc)
      · exact hst hc
      · exact hlen ((length_le_roundDown hpage range.offset).mp hc)
    · intro hm
      rw [hrun]
      by_cases hpage : (g.heap segp).segPagesize = 0
      · have hno : Refuses (g.heap segp) range (.location k sig) := by
          by_cases hst : (g.heap segp).segStart = mapFailed
          · exact Or.inl hst
          · -- mapped and no page size: a huge page segment without huge pages
            rcases hok.mapped (by simpa using hm) hst with ⟨hps, -⟩ | ⟨-, hlen⟩
            · exact absurd hpage hps.ne_zero
            · exact Or.inr ((length_le_roundDown hpage range.offset).mpr hlen)
        rw [(run_of_refuses hrep hlive hname hno loopFuel).1]
        exact Or.inr rfl
      · exact run_returns_of_settled h hlive hname hpage _

/-- The calls with a page loop. -/
def Op.Loops : Op → Prop
  | .touch .. | .location .. => True
  | _ => False

/-- The other calls return. -/
theorem Op.returns (op : Op) (hop : ¬ op.Loops) (g : Glctx) : (op.answer g).Returns := by
  cases op with
  | get name =>
      simp only [Op.answer]
      split
      · exact Or.inr rfl
      · exact Or.inl rfl
  | register | remove | unmap | map | mprotect => exact SegRet.answer_returns _
  | mbind k name range policy nodemask flags =>
      simp only [Op.answer, segmentMbind]
      split
      · exact Or.inr rfl
      · split
        · exact Or.inr rfl
        · split
          · exact Or.inr rfl
          · split
            · exact Or.inl rfl
            · exact Or.inr rfl
  | lockUnlock k name range lock shm =>
      simp only [Op.answer, segmentLockUnlock]
      split
      · exact Or.inr rfl
      · split
        · exact Or.inr rfl
        · split
          · split
            · exact Or.inr rfl
            · split
              · exact Or.inl rfl
              · exact Or.inr rfl
          · split
            · exact Or.inr rfl
            · split
              · exact Or.inl rfl
              · exact Or.inr rfl
  | touch | location => exact absurd trivial hop

end Answers

end Memtoy
