import Memtoy.Segment.Ownership

/-!
# Segment.Maps — the segments of the task's own maps file

The segments `segment_init` preloads are marked by `SEGF_MAPS`, one bit of the
word that also holds the mmap flags. They are protected by tests of that bit in
some operations and by being mapped in others. `MapsKept` is what a primitive
step, and so a run, leaves of such a segment.
-/

namespace Memtoy

open CString Relation

/-- The call gives back something of `segp`, or writes to its memory. -/
def SysCall.Harms (segp : SegPtr) : SysCall → Prop
  | .munmap q _ _ | .shmdt q _ | .close q _ | .shmRmid q _ => q = segp
  | .touchMemory q rw _ _ _ => q = segp ∧ rw = true
  | _ => False

/-- The same but for memory accesses. -/
def SysCall.GivesBack (segp : SegPtr) (c : SysCall) : Prop := c.Releases ∧ c.Harms segp

/-- `s'` has the slot, name, type, start address, length and flags of `s`. -/
structure SameSegment (s s' : Segment) : Prop where
  slot : s'.segSlot = s.segSlot
  name : s'.segName = s.segName
  type : s'.segType = s.segType
  start : s'.segStart = s.segStart
  length : s'.segLength = s.segLength
  flags : s'.segFlags = s.segFlags

theorem SameSegment.refl (s : Segment) : SameSegment s s := ⟨rfl, rfl, rfl, rfl, rfl, rfl⟩

theorem SameSegment.trans {s s' s'' : Segment} (h : SameSegment s s') (h' : SameSegment s' s'') :
    SameSegment s s'' :=
  ⟨h'.slot.trans h.slot, h'.name.trans h.name, h'.type.trans h.type, h'.start.trans h.start,
    h'.length.trans h.length, h'.flags.trans h.flags⟩

theorem SameSegment.isMaps {s s' : Segment} (h : SameSegment s s') : s'.isMaps = s.isMaps := by
  simp [Segment.isMaps, h.flags]

/-- What is left of a segment of the maps file, and which calls `Q` were issued. -/
structure MapsKept (Q : SysCall → Prop) (segp : SegPtr) (g g' : Glctx) : Prop where
  live : g'.Live segp
  same : SameSegment (g.heap segp) (g'.heap segp)
  calls : Appends Q g g'

namespace MapsKept

variable {Q : SysCall → Prop} {segp : SegPtr} {g g' : Glctx}

theorem refl (hlive : g.Live segp) : MapsKept Q segp g g :=
  ⟨hlive, .refl _, .of_log_eq rfl⟩

theorem trans {g'' : Glctx} (h : MapsKept Q segp g g') (h' : MapsKept Q segp g' g'') :
    MapsKept Q segp g g'' :=
  ⟨h'.live, h.same.trans h'.same, h.calls.trans h'.calls⟩

/-- A step that writes another record, or none. -/
theorem of_other (hlive : g.Live segp) (hent : g'.entries = g.entries)
    (hheap : g'.heap segp = g.heap segp) (hcalls : Appends Q g g') : MapsKept Q segp g g' := by
  refine ⟨⟨by rw [hent]; exact hlive.1, by rw [hheap]; exact hlive.2⟩, ?_, hcalls⟩
  rw [hheap]
  exact .refl _

end MapsKept

theorem not_givesBack_of_neutral {c : SysCall} (h : c.Neutral) (segp : SegPtr) :
    ¬ c.GivesBack segp := by
  rintro ⟨hrel, -⟩
  cases c <;> first | exact h | exact hrel

theorem newSegment_not_givesBack {g : Glctx} {q : SegPtr} {s : Segment} {calls : List SysCall}
    (h : NewSegment g q s calls) (segp : SegPtr) : ∀ c ∈ calls, ¬ c.GivesBack segp := by
  intro c hc
  cases h with
  | maps _ _ _ _ _ _ _ => cases hc
  | anon _ _ _ _ _ => cases hc
  | file path mode _ _ _ _ _ =>
      rw [List.mem_singleton.mp hc]
      rintro ⟨hrel, -⟩
      exact hrel
  | shm shmflg _ _ _ _ _ _ _ =>
      rw [List.mem_singleton.mp hc]
      rintro ⟨hrel, -⟩
      exact hrel

/-- The calls of `unmap_segment` and `free_seg_slot` are about the segment itself. -/
theorem not_harms_of_ne {q segp : SegPtr} (hne : q ≠ segp) (s : Segment) :
    (∀ c ∈ unmapCalls q s, ¬ c.GivesBack segp) ∧ (∀ c ∈ releaseCalls q s, ¬ c.GivesBack segp) := by
  refine ⟨?_, ?_⟩
  · rintro c hc ⟨-, hharm⟩
    unfold unmapCalls at hc
    split at hc
    · rw [List.mem_singleton.mp hc] at hharm
      exact hne hharm
    · rw [List.mem_singleton.mp hc] at hharm
      exact hne hharm
    · rw [List.mem_singleton.mp hc] at hharm
      exact hne hharm
    · cases hc
  · rintro c hc ⟨-, hharm⟩
    unfold releaseCalls at hc
    rcases List.mem_append.mp hc with hc | hc
    · split at hc
      · rw [List.mem_singleton.mp hc] at hharm
        exact hne hharm
      · cases hc
    · split at hc
      · rw [List.mem_singleton.mp hc] at hharm
        exact hne hharm
      · cases hc

/-- No primitive step changes a segment of the maps file in any field but its
protection, or gives back anything of it. -/
theorem Prim.mapsKept {g g' : Glctx} (hstep : Prim g g') (hrep : RepInv g) (hpages : PageInv g)
    {segp : SegPtr} (hlive : g.Live segp) (hmaps : (g.heap segp).isMaps = true) :
    MapsKept (fun c => ¬ c.GivesBack segp) segp g g' := by
  have hstart := ((hpages.records segp hlive).maps hmaps).1
  -- a step on an unmapped segment, an unused slot or one without the mark is about another one
  have hunmapped : ∀ {q}, (g.heap q).segStart = mapFailed → segp ≠ q := by
    rintro q hq rfl
    exact hstart hq
  have hunmarked : ∀ {q}, (g.heap q).isMaps = false → segp ≠ q := by
    rintro q hq rfl
    rw [hmaps] at hq
    cases hq
  have hneutral : ∀ {c : SysCall}, c.Neutral → ¬ c.GivesBack segp :=
    fun hc => not_givesBack_of_neutral hc segp
  cases hstep with
  | cache _ _ => exact .of_other hlive rfl rfl (.of_log_eq rfl)
  | alloc hlt =>
      have hheap := hrep.newSlot_heap_of_mem g.entries.length hlive.1
      refine ⟨(hrep.live_newSlot segp).mpr hlive, ?_, .of_log_eq rfl⟩
      rw [hheap]
      exact .refl _
  | @claim q s name calls hun _ _ _ _ hnew =>
      have hne : segp ≠ q := by
        rintro rfl
        exact hlive.2 hun.2
      exact .of_other hlive rfl (Function.update_of_ne hne _ _)
        ⟨calls, rfl, newSegment_not_givesBack hnew segp⟩
  | call hc => exact .of_other hlive rfl rfl (.of_emit rfl (hneutral hc))
  | retune _ _ hst _ _ =>
      exact .of_other hlive rfl (Function.update_of_ne (hunmapped hst) _ _) (.of_log_eq rfl)
  | mapped _ _ _ _ _ _ _ _ hst _ _ _ =>
      refine .of_other hlive rfl (Function.update_of_ne (hunmapped hst) _ _) (.of_emit rfl ?_)
      exact fun hc => hc.1
  | attached _ _ hst _ =>
      refine .of_other hlive rfl (Function.update_of_ne (hunmapped hst) _ _) (.of_emit rfl ?_)
      exact fun hc => hc.1
  | @reprotected q prot _ =>
      have hcalls : ¬ (SysCall.mprotect q (g.heap q).segStart (g.heap q).segLength prot
          true).GivesBack segp := fun hc => hc.1
      by_cases hne : segp = q
      · -- `mprotect` is not refused: the protection is the one field that changes
        subst hne
        refine ⟨⟨hlive.1, ?_⟩, ?_, .of_emit rfl hcalls⟩
        · simpa using hlive.2
        · simp only [Glctx.setSeg_heap, Function.update_self]
          exact ⟨rfl, rfl, rfl, rfl, rfl, rfl⟩
      · exact .of_other hlive rfl (Function.update_of_ne hne _ _) (.of_emit rfl hcalls)
  | @unmapped q _ hst hm =>
      rw [unmapSegment_eq hst hm]
      exact .of_other hlive rfl (Function.update_of_ne (hunmarked hm) _ _)
        ⟨_, rfl, (not_harms_of_ne (hunmarked hm).symm _).1⟩
  | @freed q _ hst hm =>
      rw [freeSegSlot_eq]
      exact .of_other hlive rfl (Function.update_of_ne (hunmarked hm) _ _)
        ⟨_, rfl, (not_harms_of_ne (hunmarked hm).symm _).2⟩

theorem star_mapsKept {g g' : Glctx} (hstar : ReflTransGen Prim g g') (hrep : RepInv g)
    (hpages : PageInv g) {segp : SegPtr} (hlive : g.Live segp)
    (hmaps : (g.heap segp).isMaps = true) :
    MapsKept (fun c => ¬ c.GivesBack segp) segp g g' := by
  have hall := @star_preserves
    (fun g' => PageInv g' ∧ MapsKept (fun c => ¬ c.GivesBack segp) segp g g')
    ?_ g g' hstar hrep ⟨hpages, .refl hlive⟩
  · exact hall.2.2
  · rintro g₁ g₂ hrep₁ hstep ⟨hpages₁, hkept⟩
    have hm : (g₁.heap segp).isMaps = true := by rw [hkept.same.isMaps, hmaps]
    exact ⟨hstep.pageInv hrep₁ hpages₁,
      hkept.trans (hstep.mapsKept hrep₁ hpages₁ hkept.live hm)⟩

/-- A call of the API and a segment of the maps file: the release guards are those
of the primitive steps, the write guard is the one of `segment_touch`. -/
theorem Op.mapsKept (op : Op) (hok : op.Ok) {g : Glctx} (hrep : RepInv g) (hpages : PageInv g)
    {segp : SegPtr} (hlive : g.Live segp) (hmaps : (g.heap segp).isMaps = true) :
    MapsKept (fun c => ¬ c.Harms segp) segp g (op.exec g) := by
  have hkept := star_mapsKept (op.star hok hrep) hrep hpages hlive hmaps
  refine ⟨hkept.live, hkept.same, ?_⟩
  obtain ⟨calls, hlog, hno⟩ := hkept.calls
  by_cases hacc : op.accesses
  · cases op with
    | touch ev fuel name range rw =>
        refine (segmentTouch_touches ev fuel hrep name range rw).mono ?_
        rintro c ⟨q, memp, length, pagesize, rfl, hguard⟩ ⟨rfl, hrw⟩
        exact hguard ⟨hrw, hmaps⟩
    | _ => exact absurd hacc not_false
  · -- without an access every harm is a release
    by_cases hrel : op.releases
    · obtain ⟨calls', hlog', hreleases⟩ := op.releases_only g hrel
      have hsame : calls = calls' := List.append_cancel_left (hlog.symm.trans hlog')
      subst hsame
      exact ⟨calls, hlog, fun c hc hharm => hno c hc ⟨hreleases c hc, hharm⟩⟩
    · by_cases hmap : op.mapsMemory
      · cases op with
        | map k name range flags =>
            refine (segmentMap_mapsMemory k g name range flags).mono (fun c hc hharm => ?_)
            cases c <;> first | exact hc | exact hharm
        | _ => exact absurd hmap not_false
      · refine (op.plain g hrel hacc hmap).mono (fun c hc hharm => ?_)
        cases c <;> first | exact hc trivial | exact hc | exact hharm

/-- In every run from a reachable state, a segment with `SEGF_MAPS` stays live with
its slot, name, type, start, length and flags, and no call gives back anything of
it or writes to it. -/
theorem maps_segment_protected {g g' : Glctx} (h : (segSpec anyOp).Reachable g)
    (hrun : ReflTransGen (segSpec anyOp).Next g g') {segp : SegPtr} (hlive : g.Live segp)
    (hmaps : (g.heap segp).isMaps = true) :
    g'.Live segp ∧ SameSegment (g.heap segp) (g'.heap segp) ∧
      ∃ calls, g'.log = g.log ++ calls ∧ ∀ c ∈ calls, ¬ c.Harms segp := by
  have hkept : (segSpec anyOp).Reachable g' ∧ MapsKept (fun c => ¬ c.Harms segp) segp g g' := by
    induction hrun with
    | refl => exact ⟨h, .refl hlive⟩
    | @tail g₁ g₂ _ hnext ih =>
        obtain ⟨hreach, hkept⟩ := ih
        refine ⟨hreach.step hnext, hkept.trans ?_⟩
        obtain ⟨op, hok, -, rfl⟩ := hnext
        exact op.mapsKept hok (reachable_repInv hreach) (reachable_pageInv hreach) hkept.live
          (by rw [hkept.same.isMaps, hmaps])
  exact ⟨hkept.2.live, hkept.2.same, hkept.2.calls⟩

/-- The heap of the concrete machine, after an attempt to remove it. -/
theorem maps_segment_protected_heap :
    ((Op.remove ['h', 'e', 'a', 'p']).exec sampleTable).Live 0 ∧
      SameSegment (sampleTable.heap 0) (((Op.remove ['h', 'e', 'a', 'p']).exec sampleTable).heap 0) := by
  have hrun : ReflTransGen (segSpec anyOp).Next sampleTable
      ((Op.remove ['h', 'e', 'a', 'p']).exec sampleTable) :=
    .single ⟨.remove _, trivial, trivial, rfl⟩
  have hlive : sampleTable.Live 0 := ⟨by decide, by decide⟩
  have hkept := maps_segment_protected (sampleTable_reachable anyOp) hrun hlive (by decide)
  exact ⟨hkept.1, hkept.2.1⟩

end Memtoy
