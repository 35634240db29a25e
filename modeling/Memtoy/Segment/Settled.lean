import Memtoy.Segment.Record

/-!
# Segment.Settled — page sizes of segments that are not mapped

`PageInv` says nothing of a segment between two mappings, and the range operations do
not ask whether a segment is mapped. In every reachable state a record has no page
size yet, or its length is a whole number of its pages (`reachable_settled`): the calls
that set a page size round the length to it, whether the mapping then succeeds or not.
Unlike `PageInv` this is kept by whole calls and not by their primitive steps.
-/

namespace Memtoy

open CString MachineWord

/-- No page size yet, or a whole number of pages. -/
def Segment.Settled (s : Segment) : Prop :=
  s.segPagesize = 0 ∨ (IsPageSize s.segPagesize ∧ Divides s.segPagesize s.segLength)

/-- Every structure is settled, those of unused slots too. -/
def Glctx.Settled (g : Glctx) : Prop := ∀ segp, (g.heap segp).Settled

theorem settled_pageAlign (s : Segment) {pagesize : Word}
    (h : pagesize = 0 ∨ IsPageSize pagesize) : (s.pageAlign pagesize).Settled := by
  rcases paged_pageAlign s h with hp | ⟨hp, -⟩
  · exact Or.inr hp
  · exact Or.inl hp

/-- A `map` leaves a settled record, whatever comes of it. -/
theorem mapEffect_settled (k : Kernel) {pagesize : Word} (hps : IsPageSize pagesize)
    (segp : SegPtr) {s : Segment} (hs : s.Settled) (range : Option Range) (flags : Flags) :
    (mapEffect k pagesize segp s range flags).1.Settled := by
  have hfile : (fileRecord k pagesize s range flags).Settled := by
    refine Or.inr ⟨hps, ?_⟩
    rw [fileRecord_segLength]
    exact divides_lengthInEffect k hps s.segFd (askedRange s range)
  cases htype : s.segType with
  | segtNone =>
      simp only [mapEffect, htype]
      exact hs
  | segtAnon =>
      simp only [mapEffect, htype]
      exact settled_pageAlign (s.overrideFlags flags) (Or.inr hps)
  | segtFile =>
      simp only [mapEffect, htype]
      split <;> exact hfile
  | segtShm =>
      simp only [mapEffect, htype]
      exact hs

namespace Glctx.Settled

variable {g g' : Glctx} {segp : SegPtr} {s : Segment}

theorem of_heap (h : g.Settled) (heq : g'.heap = g.heap) : g'.Settled := by
  intro q
  rw [heq]
  exact h q

/-- One structure written, the others left alone. -/
theorem write (h : g.Settled) (hs : s.Settled)
    (heq : g'.heap = Function.update g.heap segp s) : g'.Settled := by
  intro q
  rw [heq, Function.update_apply]
  split
  · exact hs
  · exact h q

theorem setSeg (h : g.Settled) (hs : s.Settled) : (g.setSeg segp s).Settled := h.write hs rfl

theorem emit (h : g.Settled) (c : SysCall) : (g.emit c).Settled := h

theorem freeSegSlot (h : g.Settled) : (freeSegSlot g segp).Settled := by
  rw [freeSegSlot_eq]
  exact h.write (Or.inl rfl) rfl

theorem unmapSegment (h : g.Settled) : (unmapSegment g segp).Settled := by
  by_cases hskip : (g.heap segp).segStart = mapFailed ∨ (g.heap segp).isMaps = true
  · rw [unmapSegment_of_not_mapped hskip]
    exact h
  · obtain ⟨hst, hm⟩ := not_or.mp hskip
    rw [unmapSegment_eq hst (by simpa using hm)]
    exact h.write (s := { g.heap segp with segStart := mapFailed }) (h segp) rfl

theorem segmentGet (h : g.Settled) (name : CStr) : (segmentGet g name).2.Settled := by
  simp only [Memtoy.segmentGet]
  split
  · exact h
  · split
    · have hs : ∀ i, ({ Segment.zero with segSlot := i } : Segment).Settled :=
        fun _ => Or.inl rfl
      exact h.write (hs _) rfl
    · exact h

end Glctx.Settled

/-! ## Calls -/

section Calls

variable {g : Glctx}

theorem openFile_settled (k : Kernel) {segp : SegPtr} (h : g.Settled) :
    (openFile k g segp).2.Settled := by
  simp only [openFile]
  split
  · exact h.freeSegSlot
  · split
    · exact h.freeSegSlot
    · next mode prot _ =>
      have hs : ({ g.heap segp with segProt := prot } : Segment).Settled := h segp
      split
      · exact ((h.setSeg hs).emit _).freeSegSlot
      · exact ((h.setSeg hs).emit _).setSeg hs

theorem getShmSegment_settled (k : Kernel) {segp : SegPtr} (h : g.Settled)
    (hps : IsPageSize g.pagesize) (hhuge : g.hugePagesize = 0 ∨ IsPageSize g.hugePagesize) :
    (getShmSegment k g segp).2.Settled := by
  have hpage : ∀ shmflg : Flags,
      (if shmflg &&& shmHugetlb ≠ 0 then g.hugePagesize else g.pagesize) = 0 ∨
        IsPageSize (if shmflg &&& shmHugetlb ≠ 0 then g.hugePagesize else g.pagesize) := by
    intro shmflg
    split
    · exact hhuge
    · exact Or.inr hps
  have hany := hpage (shmR ||| shmW ||| ((g.heap segp).segFlags &&& shmHugetlb))
  simp only [getShmSegment]
  generalize (if (shmR ||| shmW ||| ((g.heap segp).segFlags &&& shmHugetlb)) &&& shmHugetlb ≠ 0
    then g.hugePagesize else g.pagesize) = pagesize at hany ⊢
  have hs := settled_pageAlign (g.heap segp) hany
  split
  · exact ((h.setSeg hs).emit _).freeSegSlot
  · exact ((h.setSeg hs).emit _).setSeg hs

/-- A slot handed out has never had a page size, or has been cleared. -/
theorem segmentRegister_settled (k : Kernel) (h : g.Settled) (hrep : RepInv g) (hp : PageInv g)
    (type : SegType) (name : CStr) (range : Range) (flags : Flags) :
    (segmentRegister k g type name range flags).2.Settled := by
  have hget := h.segmentGet (basename name)
  have hsame := segmentGet_pagesizes hrep (basename name)
  rcases hg : segmentGet g (basename name) with ⟨_ | p, g₁⟩
  · have hrep₁ := segmentGet_repInv hrep (basename name)
    rw [hg] at hget hrep₁ hsame
    obtain ⟨-, ⟨q, hav, hun⟩ | ⟨rfl, hav, hfull, hall⟩⟩ := segmentGet_none hrep hg
    · have hslot : (newRecord (g₁.heap q) type (basenameEdit name) range flags).Settled := by
        refine Or.inl ?_
        show (g₁.heap q).segPagesize = 0
        rw [hrep₁.cleared q hun]
        rfl
      have hun₁ : ({ g₁ with segAvail := none } : Glctx).Settled := hget
      simp only [segmentRegister, hg, getSegSlot_cached hav]
      split
      · rw [mapsRecord_eq]
        exact hun₁.setSeg hslot
      · cases type with
        | segtFile => exact openFile_settled k (hun₁.setSeg hslot)
        | segtShm =>
            refine getShmSegment_settled k (hun₁.setSeg hslot) ?_ ?_
            · show IsPageSize g₁.pagesize
              rw [hsame.1]
              exact hp.pagesize
            · show g₁.hugePagesize = 0 ∨ IsPageSize g₁.hugePagesize
              rw [hsame.2]
              exact hp.hugePagesize
        | segtAnon => exact hun₁.setSeg hslot
        | segtNone => exact hun₁.setSeg hslot
    · simp only [segmentRegister, hg, getSegSlot_full hrep hav hfull hall]
      exact h
  · rw [hg] at hget
    simp only [segmentRegister, hg]
    exact hget

/-- Every call of the API keeps the records settled. -/
theorem Op.exec_settled (op : Op) (h : g.Settled) (hrep : RepInv g) (hp : PageInv g) :
    (op.exec g).Settled := by
  have hlookup := h.segmentGet
  cases op with
  | register k type name range flags => exact segmentRegister_settled k h hrep hp type name range flags
  | remove name =>
      have hget := hlookup name
      simp only [Op.exec, segmentRemove]
      generalize segmentGet g name = r at hget ⊢
      rcases r with ⟨_ | p, g₁⟩
      · exact hget
      · simp only
        split
        · exact hget
        · exact hget.unmapSegment.freeSegSlot
  | unmap name =>
      have hget := hlookup name
      simp only [Op.exec, segmentUnmap]
      generalize segmentGet g name = r at hget ⊢
      rcases r with ⟨_ | p, g₁⟩
      · exact hget
      · simp only
        split
        · exact hget
        · exact hget.unmapSegment
  | map k name range flags =>
      have hget := hlookup name
      simp only [Op.exec]
      rcases hg : segmentGet g name with ⟨_ | p, g₁⟩
      · rw [hg] at hget
        simp only [segmentMap, hg]
        exact hget
      · obtain ⟨hlive, hname, -⟩ := segmentGet_some hrep hg
        by_cases hst : (g.heap p).segStart = mapFailed
        · obtain ⟨avail, -, heq⟩ := segmentMap_effect k hrep hp.pagesize hlive hname hst range flags
          rw [heq]
          exact h.write (mapEffect_settled k hp.pagesize p (h p) range flags) rfl
        · obtain ⟨-, -, avail, rfl⟩ := segmentGet_some hrep hg
          simp only [segmentMap, hg]
          rw [if_pos hst]
          exact h
  | mprotect k name prot =>
      have hget := hlookup name
      simp only [Op.exec, segmentMprotect]
      generalize segmentGet g name = r at hget ⊢
      rcases r with ⟨_ | p, g₁⟩
      · exact hget
      · simp only
        split
        · exact (hget.emit _).setSeg (hget p)
        · exact hget
  | get | touch | mbind | location | lockUnlock =>
      exact (hlookup _).of_heap (Op.exec_reads rfl g).2

end Calls

/-! ## Every reachable state -/

theorem emptyTable_settled (cfg : Config) : (emptyTable cfg).Settled := fun _ => Or.inl rfl

theorem reachable_settled {P : Op → Prop} {g : Glctx} (h : (segSpec P).Reachable g) :
    g.Settled := by
  have hkeep : ∀ g g', RepInv g → Prim g g' → PageInv g → PageInv g' :=
    fun _ _ hrep hstep hp => hstep.pageInv hrep hp
  refine (Trans.Spec.invariant (fun g => (RepInv g ∧ PageInv g) ∧ g.Settled) ?_ ?_ h).2
  · rintro g ⟨k, cfg, maps, rfl⟩
    apply getTaskSegments_keeps (P := fun g => (RepInv g ∧ PageInv g) ∧ g.Settled)
    · rintro g m ⟨hg, hs⟩
      exact ⟨star_preserves hkeep (mapsEntry_star k hg.1 m) hg.1 hg.2,
        segmentRegister_settled k hs hg.1 hg.2 m.type m.path m.range _⟩
    · exact ⟨⟨emptyTable_repInv cfg, emptyTable_pageInv cfg⟩, emptyTable_settled cfg⟩
  · rintro g g' ⟨op, hok, -, rfl⟩ ⟨hg, hs⟩
    exact ⟨star_preserves hkeep (op.star hok hg.1) hg.1 hg.2, op.exec_settled hs hg.1 hg.2⟩

end Memtoy
