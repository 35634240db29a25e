import Memtoy.Segment.Accesses
import Memtoy.Segment.Memory
import Memtoy.Segment.Naming

/-!
# Segment.Isolation — each segment has its own memory

`memory_isolated` compares the memory of a run with the table, from `segment_init` on: the
table is right until a segment is mapped over another one, and as long as it is right no
call of a segment reaches the memory of another one.
-/

namespace Memtoy

open CString Relation AddressSpace MachineWord

/-! ## Runs -/

/-- A table, and the memory its calls have made. -/
structure Image where
  g : Glctx
  mem : Memory

/-- A call of the segment API, with answers the kernel can give. -/
inductive ImageStep (op : Op) (i : Image) : List SysCall → Image → Prop where
  | call {cs : List SysCall} : op.Ok → (op.exec i.g).log = i.g.log ++ cs →
      i.mem.All Memory.Allows cs → ImageStep op i cs ⟨op.exec i.g, i.mem.calls cs⟩

/-- From `segment_init` on, where no segment has mapped any memory. -/
def imageSpec (P : Image → List SysCall → Prop) : Trans.Spec Image where
  Init := fun i => (segSpec anyOp).Init i.g ∧ i.mem.owner = fun _ => none
  Next := fun i i' => ∃ op cs, P i cs ∧ ImageStep op i cs i'

/-- A record that stands for no memory of its own. -/
def Segment.Idle (s : Segment) : Prop :=
  s.segType ≠ .segtShm ∧ (s.isMaps = true ∨ s.segStart = mapFailed)

theorem Segment.Idle.area {s : Segment} (h : s.Idle) : s.area = ∅ :=
  h.2.elim Segment.area_of_maps Segment.area_of_unmapped

/-- Without a system call a segment comes to no memory. -/
theorem Prim.idle {g g' : Glctx} (hrep : RepInv g) (hstep : Prim g g') (hlog : g'.log = g.log)
    (h : AllLive Segment.Idle g) : AllLive Segment.Idle g' := by
  have hno : ∀ {c : SysCall} {cs : List SysCall}, g.log ++ c :: cs ≠ g.log :=
    fun hc => List.cons_ne_nil _ _ (List.append_right_eq_self.mp hc)
  cases hstep with
  | cache _ _ => exact h
  | alloc _ => exact h.alloc hrep
  | claim _ _ _ _ _ hnew =>
      refine h.write rfl rfl fun _ => ?_
      cases hnew with
      | maps hmaps htype => exact ⟨ne_segtShm htype, .inl hmaps⟩
      | anon _ htype hstart => exact ⟨ne_segtShm (.inl htype), .inr hstart⟩
      | file | shm => exact absurd hlog hno
  | call _ => exact absurd hlog hno
  | retune _ htype hstart hre _ =>
      refine h.write rfl rfl fun _ => ⟨?_, .inr (hre.start.trans hstart)⟩
      rw [hre.type]
      exact ne_segtShm htype
  | mapped | attached | reprotected => exact absurd hlog hno
  | unmapped hp hstart hmaps =>
      rcases (h _ hp).2 with hidle | hidle
      · rw [hmaps] at hidle
        cases hidle
      · exact absurd hidle hstart
  | freed _ _ _ =>
      rw [freeSegSlot_eq]
      exact h.write rfl rfl (fun hne => absurd rfl hne)

/-- A segment of the maps file is registered without a system call. -/
theorem mapsEntry_log (k : Kernel) (g : Glctx) (m : MapsEntry) :
    (segmentRegister k g m.type m.path m.range (mapPrivate ||| segfMaps)).2.log = g.log := by
  have hmaps : (mapPrivate ||| segfMaps) &&& segfMaps ≠ 0 := by decide
  have hlog := segmentGet_log g (basename m.path)
  rcases hget : segmentGet g (basename m.path) with ⟨_ | p, g₁⟩
  · rw [hget] at hlog
    have hslot := getSegSlot_log g₁
    simp only [segmentRegister, hget, if_pos hmaps]
    rcases hres : getSegSlot g₁ with ⟨_ | q, g₂⟩ <;> rw [hres] at hslot <;>
      exact hslot.trans hlog
  · rw [hget] at hlog
    simp only [segmentRegister, hget]
    exact hlog

/-- `segment_init` maps nothing. -/
theorem segmentInit_idle (k : Kernel) (cfg : Config) (maps : List MapsEntry) :
    AllLive Segment.Idle (segmentInit k cfg maps) := by
  have hboth : RepInv (segmentInit k cfg maps) ∧ AllLive Segment.Idle (segmentInit k cfg maps) := by
    apply getTaskSegments_keeps (P := fun g => RepInv g ∧ AllLive Segment.Idle g)
    · rintro g m ⟨hrep, hidle⟩
      have hstar := mapsEntry_star k hrep m
      have hlog := mapsEntry_log k g m
      refine star_preserves_issuing (Q := fun _ => False) ?_ hstar (.of_log_eq hlog) hrep hidle
      rintro g₁ g₂ hrep₁ hstep ⟨cs, hcs, hnone⟩ hidle₁
      obtain rfl : cs = [] := List.eq_nil_iff_forall_not_mem.mpr hnone
      exact hstep.idle hrep₁ (by rw [hcs, List.append_nil]) hidle₁
    · refine ⟨emptyTable_repInv cfg, fun segp hlive => ?_⟩
      have hmem := hlive.1
      rw [emptyTable_entries] at hmem
      exact absurd hmem List.not_mem_nil
  exact hboth.2

/-- What holds of the table and the memory in every run. -/
structure ImageOk (i : Image) : Prop where
  rep : RepInv i.g
  pages : PageInv i.g
  sizes : SizesOk i.g i.mem
  atMost : AtMost i.mem.owner i.g.area

theorem image_start {i : Image} (hinit : (segSpec anyOp).Init i.g)
    (hnone : i.mem.owner = fun _ => none) : ImageOk i ∧ Tiles i.mem.owner i.g.area := by
  have hreach := Trans.Spec.Reachable.init hinit
  rcases hinit with ⟨k, cfg, maps, hg⟩
  have hidle : AllLive Segment.Idle i.g := by
    rw [hg]
    exact segmentInit_idle k cfg maps
  have harea : i.g.area = fun _ => ∅ := by
    funext segp
    refine Set.eq_empty_of_forall_notMem fun a ha => ?_
    have hlive : i.g.Live segp := ⟨ha.1, ha.2.1⟩
    have hmem := ha.2
    rw [(hidle segp hlive).area] at hmem
    exact hmem
  have htiles : Tiles i.mem.owner i.g.area := by
    rw [hnone, harea]
    exact tiles_empty
  refine ⟨⟨reachable_repInv hreach, reachable_pageInv hreach, ⟨?_, ?_⟩, htiles.atMost⟩, htiles⟩
  · intro segp hlive htype
    exact absurd htype (hidle segp hlive).1
  · intro p q hp _ htype
    exact absurd htype (hidle p hp).1

theorem ImageStep.follow {op : Op} {i i' : Image} {cs : List SysCall} (hok : ImageOk i)
    (hstep : ImageStep op i cs i') : ImageOk i' ∧ Follow i.g i'.g cs i.mem ∧
      i'.g = op.exec i.g ∧ i'.mem = i.mem.calls cs := by
  rcases hstep with ⟨hop, hlog, hallows⟩
  rcases star_follow (op.star hop hok.rep) hok.rep hok.pages with
    ⟨cs', hlog', hrep, hpages, -, hfollow⟩
  obtain rfl : cs = cs' := List.append_cancel_left (hlog.symm.trans hlog')
  have hnext := hfollow i.mem hok.sizes hallows
  exact ⟨⟨hrep, hpages, hnext.sizes, hnext.atMost hok.atMost⟩, hnext, rfl, rfl⟩

/-- The calls map nothing over the memory of another segment. -/
def Sparing (i : Image) (cs : List SysCall) : Prop := i.mem.All Memory.Spares cs

/-- One system call at most was made between `g` and `g'`. -/
def OneCall (g g' : Glctx) : Prop := g'.log = g.log ∨ ∃ c, g'.log = g.log ++ [c]

theorem OneCall.ite {g : Glctx} {α : Type} {b : Prop} [Decidable b] {x y : α × Glctx}
    (hx : OneCall g x.2) (hy : OneCall g y.2) : OneCall g (if b then x else y).2 := by
  split
  · exact hx
  · exact hy

theorem segmentMap_oneCall (k : Kernel) (g : Glctx) (name : CStr) (range : Option Range)
    (flags : Flags) : OneCall g (segmentMap k g name range flags).2 := by
  have hlog := segmentGet_log g name
  rcases hget : segmentGet g name with ⟨_ | p, g₁⟩ <;> rw [hget] at hlog
  · simp only [segmentMap, hget]
    exact .inl hlog
  · rw [OneCall, ← hlog]
    show OneCall g₁ _
    simp only [segmentMap, hget]
    refine .ite (.inl rfl) ?_
    split
    · exact .ite (.inr ⟨_, rfl⟩) (.inr ⟨_, rfl⟩)
    · exact .ite (.inl rfl) (.ite (.inl rfl) (.ite (.inr ⟨_, rfl⟩) (.inr ⟨_, rfl⟩)))
    · exact .ite (.inr ⟨_, rfl⟩) (.inr ⟨_, rfl⟩)
    · exact .inl rfl

/-- Only `segment_map` maps anything over what is there. -/
theorem Op.spares (op : Op) {g : Glctx} (h : RepInv g) (hmap : ¬ op.mapsMemory) :
    Appends (fun c => ∀ m : Memory, m.Spares c) g (op.exec g) := by
  by_cases hrel : op.releases
  · exact (op.releases_only g hrel).mono fun _ hc => hc.spares
  · by_cases hacc : op.accesses
    · cases op with
      | touch ev fuel name range rw =>
          refine (segmentTouch_touches ev fuel h name range rw).mono ?_
          rintro c ⟨segp, memp, length, pagesize, rfl, -⟩
          exact fun _ => trivial
      | _ => exact absurd hacc not_false
    · refine (op.plain g hrel hacc hmap).mono fun c hc => ?_
      cases c <;> first | exact fun _ => trivial | exact hc.elim

theorem ImageStep.ok {op : Op} {i i' : Image} {cs : List SysCall}
    (hstep : ImageStep op i cs i') : op.Ok ∧ (op.exec i.g).log = i.g.log ++ cs := by
  cases hstep with
  | call hop hlog _ => exact ⟨hop, hlog⟩

/-- The table is right after a call exactly if the call spares the memory of others. -/
theorem ImageStep.tiles_iff {op : Op} {i i' : Image} {cs : List SysCall} (hok : ImageOk i)
    (hstep : ImageStep op i cs i') (htiles : Tiles i.mem.owner i.g.area) :
    Tiles i'.mem.owner i'.g.area ↔ Sparing i cs := by
  rcases hstep.follow hok with ⟨-, hfollow, -, hmem⟩
  have hlog := hstep.ok.2
  rw [hmem]
  refine ⟨fun htiles' => ?_, fun hsparing => hfollow.tiles hsparing htiles⟩
  -- only `segment_map` can fail to spare the others, and it makes one call
  by_cases hmap : op.mapsMemory
  · cases op with
    | map k name range flags =>
        refine hfollow.exact ?_ htiles htiles'
        rcases segmentMap_oneCall k i.g name range flags with hone | ⟨c, hone⟩
        · obtain rfl : cs = [] := List.append_right_eq_self.mp (hlog.symm.trans hone)
          exact Nat.zero_le _
        · obtain rfl : cs = [c] := List.append_cancel_left (hlog.symm.trans hone)
          exact le_rfl
    | _ => exact absurd hmap not_false
  · rcases op.spares hok.rep hmap with ⟨cs', hlog', hspares⟩
    obtain rfl : cs = cs' := List.append_cancel_left (hlog.symm.trans hlog')
    exact Memory.all_of_forall hspares i.mem

theorem image_run {P : Image → List SysCall → Prop} {i : Image}
    (h : (imageSpec P).Reachable i) :
    ImageOk i ∧ ((∀ i cs, P i cs → Sparing i cs) → Tiles i.mem.owner i.g.area) := by
  induction h with
  | init hinit =>
      have hstart := image_start hinit.1 hinit.2
      exact ⟨hstart.1, fun _ => hstart.2⟩
  | step _ hnext ih =>
      rcases ih with ⟨hok, htiles⟩
      rcases hnext with ⟨op, cs, hP, hstep⟩
      refine ⟨(hstep.follow hok).1, fun hsparing => ?_⟩
      exact (hstep.tiles_iff hok (htiles hsparing)).mpr (hsparing _ _ hP)

/-! ## What a call reaches -/

/-- The addresses a system call works on. -/
def SysCall.reach : SysCall → Set Word
  | .munmap _ start length | .mprotect _ start length _ _ | .touchMemory _ _ start length _
  | .mbind _ start length _ _ _ | .mlock _ _ start length => bytesFrom start length
  | .getNode _ vaddr => {vaddr}
  | _ => ∅

theorem cut_le (ask maxlength : Word) :
    (if ask = 0 ∨ maxlength < ask then maxlength else ask) ≤ maxlength := by
  split
  · exact BitVec.le_refl _
  · next hc => bv_omega

/-- The range of a call is in the segment. -/
theorem clampRange_within {s : Segment} {range : Range} {offset length : Word}
    (h : clampRange s range = some (offset, length)) :
    bytesFrom (s.segStart + offset) length ⊆ bytesFrom s.segStart s.segLength := by
  unfold clampRange at h
  simp only at h
  split at h
  · cases h
  · next hle =>
    have hlength : length ≤ s.segLength - offset ∧ offset < s.segLength := by
      rw [Option.some.injEq, Prod.mk.injEq] at h
      obtain ⟨rfl, rfl⟩ := h
      exact ⟨cut_le _ _, by bv_omega⟩
    obtain ⟨hcut, hin⟩ := hlength
    intro a ha
    simp only [bytesFrom, Set.mem_ofPred_eq] at ha ⊢
    bv_omega

/-- An address between the two ends of a range. -/
theorem mem_bytesFrom {base length a : Word} (h : base ≤ a ∧ a < base + length) :
    a ∈ bytesFrom base length := by
  rcases h with ⟨hge, hlt⟩
  simp only [bytesFrom, Set.mem_ofPred_eq]
  bv_omega

theorem touchLoop_between (ev : Nat → PageEvent) {memend stride : Word} {n : Nat} (fuel : Nat) :
    ∀ {k : Nat} {pp : Word} {ps : List Word}, Within n stride memend pp →
      touchLoop ev memend stride fuel k pp = some ps → ∀ a ∈ ps, pp ≤ a ∧ a < memend := by
  induction fuel with
  | zero =>
      intro k pp ps _ hrun
      rw [touchLoop] at hrun
      split at hrun <;> cases hrun
      exact fun a ha => absurd ha List.not_mem_nil
  | succ fuel ih =>
      intro k pp ps h hrun
      rw [touchLoop] at hrun
      split at hrun
      · cases hrun
        exact fun a ha => absurd ha List.not_mem_nil
      · next hlt =>
        have hself : pp ≤ pp ∧ pp < memend := ⟨BitVec.le_refl _, BitVec.not_le.mp hlt⟩
        cases hev : ev k with
        | faults =>
            simp only [hev, Option.some.injEq] at hrun
            subst hrun
            exact fun a ha => absurd ha List.not_mem_nil
        | signalled =>
            simp only [hev, Option.some.injEq] at hrun
            subst hrun
            exact List.forall_mem_singleton.mpr hself
        | completes =>
            simp only [hev] at hrun
            rcases Option.map_eq_some_iff.mp hrun with ⟨rest, hrest, rfl⟩
            refine List.forall_mem_cons.mpr ⟨hself, fun a ha => ?_⟩
            have hnext := ih ((h.mono (Nat.le_succ n)).step hlt) hrest a ha
            exact ⟨BitVec.le_trans (h.le_next hlt) hnext.1, hnext.2⟩

/-- `touch_memory` accesses its range. -/
theorem touchMemory_within (ev : Nat → PageEvent) {fuel : Nat} {memp length pagesize : Word}
    {touched : List Word} (hps : IsPageSize pagesize) (hdvd : Divides pagesize length)
    (hrun : touchMemory ev fuel memp length pagesize = some touched) :
    ∀ a ∈ touched, a ∈ bytesFrom memp length := by
  have hlen : 8 ∣ length.toNat := Nat.dvd_trans hps.eight_dvd hdvd
  simp only [touchMemory, longs_cancel hps.eight_dvd, longs_cancel hlen] at hrun
  exact fun a ha => mem_bytesFrom (touchLoop_between ev fuel (within_start hdvd memp) hrun a ha)

theorem nodeLoop_between (getNode : Word → Int) (sig : Nat → Bool) {pagesize endp : Word}
    {n : Nat} (fuel : Nat) :
    ∀ {k : Nat} {apage : Word} {pgid : Flags} {needNl : Bool} {run : NodeRun},
      Within n pagesize endp apage →
      nodeLoop getNode sig pagesize endp fuel k apage pgid needNl = some run →
      ∀ a ∈ run.visited, apage ≤ a ∧ a < endp := by
  induction fuel with
  | zero =>
      intro k apage pgid needNl run _ hrun
      rw [nodeLoop] at hrun
      split at hrun <;> cases hrun
      exact fun a ha => absurd ha List.not_mem_nil
  | succ fuel ih =>
      intro k apage pgid needNl run h hrun
      rw [nodeLoop] at hrun
      split at hrun
      · cases hrun
        exact fun a ha => absurd ha List.not_mem_nil
      · next hlt =>
        have hself : apage ≤ apage ∧ apage < endp := ⟨BitVec.le_refl _, BitVec.not_le.mp hlt⟩
        simp only at hrun
        split at hrun
        · cases hrun
          exact List.forall_mem_singleton.mpr hself
        · split at hrun
          · cases hrun
            exact List.forall_mem_singleton.mpr hself
          · rcases Option.map_eq_some_iff.mp hrun with ⟨rest, hrest, rfl⟩
            refine List.forall_mem_cons.mpr ⟨hself, fun a ha => ?_⟩
            have hnext := ih ((h.mono (Nat.le_succ n)).step hlt) hrest a ha
            exact ⟨BitVec.le_trans (h.le_next hlt) hnext.1, hnext.2⟩

/-- The node loop asks for addresses of its range. -/
theorem nodeLoop_within (getNode : Word → Int) (sig : Nat → Bool) {pagesize base length : Word}
    (hdvd : Divides pagesize length) {fuel k : Nat} {pgid : Flags} {needNl : Bool} {run : NodeRun}
    (hrun : nodeLoop getNode sig pagesize (base + length) fuel k base pgid needNl = some run) :
    ∀ a ∈ run.visited, a ∈ bytesFrom base length :=
  fun a ha => mem_bytesFrom
    (nodeLoop_between getNode sig fuel (within_start hdvd base) hrun a ha)

/-- A call of a mapped segment reaches the memory of that segment. -/
theorem Op.reaches_own (op : Op) {g g₁ : Glctx} {name : CStr} {p : SegPtr} (h : RepInv g)
    (hpages : (g.heap p).PagesOk) (htarget : op.target = some name)
    (hget : segmentGet g name = (some p, g₁)) (hstart : (g.heap p).segStart ≠ mapFailed)
    (hmaps : (g.heap p).isMaps = false) :
    Appends (fun c => c.reach ⊆ bytesFrom (g.heap p).segStart (g.heap p).segLength) g
      (op.exec g) := by
  obtain ⟨hlive, -, avail, rfl⟩ := segmentGet_some h hget
  refine .of_lookup hget ?_
  -- most calls name no addresses
  have hnone : ∀ {c : SysCall}, c.reach = ∅ →
      c.reach ⊆ bytesFrom (g.heap p).segStart (g.heap p).segLength := by
    intro c hc
    rw [hc]
    exact Set.empty_subset _
  have hunmap : Appends (fun c => c.reach ⊆ bytesFrom (g.heap p).segStart (g.heap p).segLength)
      { g with segAvail := avail } (unmapSegment { g with segAvail := avail } p) := by
    rw [unmapSegment_eq (g := { g with segAvail := avail }) hstart hmaps]
    refine ⟨_, rfl, fun c hc => ?_⟩
    unfold unmapCalls at hc
    split at hc
    · rw [List.mem_singleton.mp hc]
      exact subset_rfl
    · rw [List.mem_singleton.mp hc]
      exact subset_rfl
    · rw [List.mem_singleton.mp hc]
      exact hnone rfl
    · cases hc
  cases op with
  | register k type n range flags => cases htarget
  | get n =>
      obtain rfl := Option.some.inj htarget
      simp only [Op.exec, hget]
      exact .of_log_eq rfl
  | remove n =>
      obtain rfl := Option.some.inj htarget
      simp only [Op.exec, segmentRemove, hget]
      refine .ite (.of_log_eq rfl) (hunmap.trans ⟨_, freeSegSlot_log _ p, fun c hc => ?_⟩)
      unfold releaseCalls at hc
      rcases List.mem_append.mp hc with hc | hc <;> split at hc
      · rw [List.mem_singleton.mp hc]
        exact hnone rfl
      · cases hc
      · rw [List.mem_singleton.mp hc]
        exact hnone rfl
      · cases hc
  | unmap n =>
      obtain rfl := Option.some.inj htarget
      simp only [Op.exec, segmentUnmap, hget]
      exact .ite (.of_log_eq rfl) hunmap
  | map k n range flags =>
      obtain rfl := Option.some.inj htarget
      simp only [Op.exec, segmentMap, hget]
      refine .ite (.of_log_eq rfl) ?_
      split
      · exact mapAnonSegment_issues k _ p (fun _ _ _ _ _ _ _ => hnone rfl)
      · exact mapFileSegment_issues k _ p (fun _ _ _ _ _ _ _ => hnone rfl)
      · exact mapShmSegment_issues k _ p (fun _ _ => hnone rfl)
      · exact .of_log_eq rfl
  | mprotect k n prot =>
      obtain rfl := Option.some.inj htarget
      simp only [Op.exec, segmentMprotect, hget]
      exact .ite (.of_emit rfl subset_rfl) (.of_emit rfl subset_rfl)
  | touch ev fuel n range rw =>
      obtain rfl := Option.some.inj htarget
      simp only [Op.exec, segmentTouch, hget]
      split
      · exact .of_log_eq rfl
      · split
        · exact .of_log_eq rfl
        · next hclamp =>
          have hin := clampRange_within hclamp
          split
          · exact .of_emit rfl hin
          · exact .ite (.of_emit rfl hin) (.of_emit rfl hin)
  | mbind k n range policy nodemask flags =>
      obtain rfl := Option.some.inj htarget
      simp only [Op.exec, segmentMbind, hget]
      refine .ite (.of_log_eq rfl) ?_
      split
      · exact .of_log_eq rfl
      · next hclamp =>
        have hin := clampRange_within hclamp
        exact .ite (.of_emit rfl hin) (.of_emit rfl hin)
  | location k sig fuel n range =>
      obtain rfl := Option.some.inj htarget
      simp only [Op.exec, segmentLocation, hget]
      refine .ite (.of_log_eq rfl) ?_
      split
      · exact .of_log_eq rfl
      · next hclamp =>
        have hin := clampRange_within hclamp
        split
        · exact .of_log_eq rfl
        · next hpage =>
          rcases hpages.mapped hmaps hstart with ⟨hps, hdvd⟩ | ⟨hzero, -⟩
          · split
            · exact .of_log_eq rfl
            · next run hrun =>
              have hreach : ∀ c ∈ run.visited.map (SysCall.getNode p),
                  c.reach ⊆ bytesFrom (g.heap p).segStart (g.heap p).segLength := by
                intro c hc
                obtain ⟨vaddr, hvisited, rfl⟩ := List.mem_map.mp hc
                have hldvd := (clampRange_some hps hdvd hclamp).1
                have hmem := nodeLoop_within k.getNode sig hldvd hrun vaddr hvisited
                exact Set.singleton_subset_iff.mpr (hin hmem)
              exact .ite ⟨_, rfl, hreach⟩ ⟨_, rfl, hreach⟩
          · exact absurd hzero hpage
  | lockUnlock k n range lock shm =>
      obtain rfl := Option.some.inj htarget
      simp only [Op.exec, segmentLockUnlock, hget]
      refine .ite (.of_log_eq rfl) (.ite (.ite (.of_log_eq rfl) ?_) ?_)
      · exact .ite (.of_emit rfl (hnone rfl)) (.of_emit rfl (hnone rfl))
      · split
        · exact .of_log_eq rfl
        · next hclamp =>
          have hin := clampRange_within hclamp
          exact .ite (.of_emit rfl hin) (.of_emit rfl hin)

/-- What `segment_touch` accesses is memory of the segment. -/
theorem segmentTouch_own (ev : Nat → PageEvent) {fuel : Nat} {g g₁ g' : Glctx} {name : CStr}
    {p : SegPtr} {range : Range} {rw : Bool} {report : TouchReport} (h : RepInv g)
    (hpages : (g.heap p).PagesOk) (hget : segmentGet g name = (some p, g₁))
    (hstart : (g.heap p).segStart ≠ mapFailed) (hmaps : (g.heap p).isMaps = false)
    (hrun : segmentTouch ev fuel g name range rw = (.segOk report, g')) :
    ∀ a ∈ report.touched, a ∈ bytesFrom (g.heap p).segStart (g.heap p).segLength := by
  obtain ⟨-, -, avail, rfl⟩ := segmentGet_some h hget
  simp only [segmentTouch, hget] at hrun
  split at hrun
  · cases hrun
  · split at hrun
    · cases hrun
    · next hclamp =>
      split at hrun
      · cases hrun
      · next touched htouched =>
        split at hrun
        · cases hrun
        · next hpage =>
          cases hrun
          rcases hpages.mapped hmaps hstart with ⟨hps, hdvd⟩ | ⟨hzero, -⟩
          · have hldvd := (clampRange_some hps hdvd hclamp).1
            exact fun a ha => clampRange_within hclamp
              (touchMemory_within ev hps hldvd htouched a ha)
          · exact absurd hzero hpage

/-! ## Isolation -/

/-- The segments have the memory that the table says, each its own. -/
structure Isolated (i : Image) : Prop where
  tiles : Tiles i.mem.owner i.g.area
  /-- After the next call too, exactly if it maps nothing over another segment. -/
  next : ∀ {op cs i'}, ImageStep op i cs i' →
    (Tiles i'.mem.owner i'.g.area ↔ Sparing i cs)
  apart : ∀ p q, p ≠ q → ∀ a ∈ i.g.area p, a ∉ i.g.area q
  /-- What a call of a mapped segment works on is the memory of that segment. -/
  reach : ∀ {op cs i' name segp}, ImageStep op i cs i' → op.target = some name →
    (segmentGet i.g name).1 = some segp → (i.g.heap segp).segStart ≠ mapFailed →
    (i.g.heap segp).isMaps = false → ∀ c ∈ cs, ∀ a ∈ c.reach, i.mem.owner a = some segp
  /-- What `segment_touch` accesses in a mapped segment is memory of that segment. -/
  touch : ∀ {ev fuel name range rw report g' segp},
    segmentTouch ev fuel i.g name range rw = (.segOk report, g') →
    (segmentGet i.g name).1 = some segp → (i.g.heap segp).segStart ≠ mapFailed →
    (i.g.heap segp).isMaps = false → ∀ a ∈ report.touched, i.mem.owner a = some segp
  /-- A call under another name leaves a segment all its memory. -/
  keeps : ∀ {op cs i' segp}, ImageStep op i cs i' → Sparing i cs → i.g.Live segp →
    (∀ name, op.target = some name → (i.g.heap segp).segName ≠ some name) →
    ∀ a, i'.mem.owner a = some segp ↔ i.mem.owner a = some segp

/-- A record that is the same stands for the same memory. -/
theorem area_of_hasRecord {g g' : Glctx} {segp : SegPtr} (hlive : g.Live segp)
    (hrec : HasRecord g' segp (g.heap segp)) : g'.area segp = g.area segp := by
  rw [area_of_mem hrec.1, hrec.2, area_of_mem hlive.1]

/-- The memory of a mapped segment is its own. -/
theorem owner_of_mapped {i : Image} {segp : SegPtr} (htiles : Tiles i.mem.owner i.g.area)
    (hlive : i.g.Live segp) (hstart : (i.g.heap segp).segStart ≠ mapFailed)
    (hmaps : (i.g.heap segp).isMaps = false) {a : Word}
    (ha : a ∈ bytesFrom (i.g.heap segp).segStart (i.g.heap segp).segLength) :
    i.mem.owner a = some segp := by
  rw [htiles a segp, area_of_mem hlive.1, Segment.area_of_mapped hlive.2 hmaps hstart]
  exact ha

theorem ImageOk.isolated {i : Image} (hok : ImageOk i) (htiles : Tiles i.mem.owner i.g.area) :
    Isolated i where
  tiles := htiles
  next hstep := hstep.tiles_iff hok htiles
  apart _ _ hne := htiles.disjoint hne
  reach := by
    intro op cs i' name segp hstep htarget hfound hstart hmaps c hc a ha
    have hget : segmentGet i.g name = (some segp, (segmentGet i.g name).2) := Prod.ext hfound rfl
    obtain ⟨hlive, -, -⟩ := segmentGet_some hok.rep hget
    rcases op.reaches_own hok.rep (hok.pages.records segp hlive) htarget hget hstart hmaps with
      ⟨cs', hlog', hown⟩
    obtain rfl : cs = cs' := List.append_cancel_left (hstep.ok.2.symm.trans hlog')
    exact owner_of_mapped htiles hlive hstart hmaps (hown c hc ha)
  touch := by
    intro ev fuel name range rw report g' segp hrun hfound hstart hmaps a ha
    have hget : segmentGet i.g name = (some segp, (segmentGet i.g name).2) := Prod.ext hfound rfl
    obtain ⟨hlive, -, -⟩ := segmentGet_some hok.rep hget
    exact owner_of_mapped htiles hlive hstart hmaps
      (segmentTouch_own ev hok.rep (hok.pages.records segp hlive) hget hstart hmaps hrun a ha)
  keeps := by
    intro op cs i' segp hstep hsparing hlive hother a
    rcases hstep.follow hok with ⟨-, -, hg, -⟩
    have hrec := op.exec_heap hstep.ok.1 hok.rep hok.pages.pagesize hlive
    have hsame : op.effectOn i.g.pagesize segp (i.g.heap segp) = i.g.heap segp := by
      cases htarget : op.target with
      | none =>
          cases op with
          | register => rfl
          | _ => cases htarget
      | some name => exact op.effectOn_of_ne _ segp htarget (hother name htarget)
    rw [hsame, ← hg] at hrec
    have htiles' := (hstep.tiles_iff hok htiles).mpr hsparing
    rw [htiles' a segp, htiles a segp, area_of_hasRecord hlive hrec]

/-- In every run, with whatever answers the kernel can give, no segment has memory that the
table does not say it has. As long as nothing is mapped over the memory of another segment,
the segments have exactly the memory the table says, and have it after the next call exactly
if that maps nothing over another segment either. No two segments then have an address in
common, every call of a mapped segment works on memory of that segment, and calls under other
names leave a segment all its memory. -/
theorem memory_isolated {P : Image → List SysCall → Prop} {i : Image}
    (h : (imageSpec P).Reachable i) :
    AtMost i.mem.owner i.g.area ∧ ((∀ i cs, P i cs → Sparing i cs) → Isolated i) := by
  rcases image_run h with ⟨hok, htiles⟩
  exact ⟨hok.atMost, fun hsparing => hok.isolated (htiles hsparing)⟩

/-- No memory yet. -/
def sampleMemory : Memory where
  owner := fun _ => none
  size := fun _ => none

/-- The call of `map a` on the concrete machine. -/
def sampleMmap : SysCall :=
  .mmap 1 0 0x2000#64 (sampleMapped.heap 1).segProt (mapPrivate ||| mapAnonymous) 0 0
    0x7f0000000000#64

theorem sampleMapped_image (P : Image → List SysCall → Prop)
    (hP : ∀ i cs, Sparing i cs → P i cs) :
    (imageSpec P).Reachable ⟨sampleMapped, sampleMemory.call sampleMmap⟩ := by
  have hinit : (imageSpec P).Reachable ⟨sampleTable, sampleMemory⟩ :=
    .init ⟨⟨sampleKernel, sampleConfig, [sampleHeap], rfl⟩, rfl⟩
  have hanon := hinit.step
    ⟨.register sampleKernel .segtAnon ['a'] ⟨0, 0x2000#64, 0⟩ 0, [], hP _ _ trivial,
      .call ⟨by decide, by decide⟩ (by decide) trivial⟩
  refine hanon.step ⟨.map sampleKernel ['a'] none 0, [sampleMmap], hP _ _ ⟨?_, trivial⟩,
    .call (by show (0 : Flags) &&& segfMaps = 0; decide) (by decide) ⟨?_, trivial⟩⟩
  · intro _ a _ q hq
    cases hq
  · intro _
    rw [if_neg (by decide)]
    exact fun _ _ => rfl

/-- `anon a 8k` and `map a` on the concrete machine: the first byte and the last one are of
`a`, and the next one is not. -/
theorem memory_isolated_two_pages :
    Isolated ⟨sampleMapped, sampleMemory.call sampleMmap⟩ ∧
      (sampleMemory.call sampleMmap).owner 0x7f0000000000#64 = some 1 ∧
      (sampleMemory.call sampleMmap).owner 0x7f0000001fff#64 = some 1 ∧
      (sampleMemory.call sampleMmap).owner 0x7f0000002000#64 = none :=
  ⟨(memory_isolated (sampleMapped_image Sparing fun _ _ => id)).2 fun _ _ => id, by decide⟩

/-- `anon b 4k` at the second page of `a`, and `map b`. -/
def sampleFixed : Glctx :=
  (Op.map sampleKernel ['b'] none 0).exec
    ((Op.register sampleKernel .segtAnon ['b'] ⟨0x7f0000001000#64, 0x1000#64, 0⟩ 0).exec
      sampleMapped)

def sampleFixedMmap : SysCall :=
  .mmap 2 0x7f0000001000#64 0x1000#64 (sampleFixed.heap 2).segProt
    (mapPrivate ||| mapAnonymous ||| mapFixed) 0 0 0x7f0000001000#64

/-- Nothing in the program keeps a segment from being mapped over another one: the second page
of `a` is then in two segments. -/
theorem fixed_not_isolated :
    ∃ i : Image, (imageSpec fun _ _ => True).Reachable i ∧ ¬ Isolated i := by
  have hanon := (sampleMapped_image (fun _ _ => True) fun _ _ _ => trivial).step
    ⟨.register sampleKernel .segtAnon ['b'] ⟨0x7f0000001000#64, 0x1000#64, 0⟩ 0, [], trivial,
      .call ⟨by decide, by decide⟩ (by decide) trivial⟩
  have hmapped := hanon.step ⟨.map sampleKernel ['b'] none 0, [sampleFixedMmap], trivial,
    .call (by show (0 : Flags) &&& segfMaps = 0; decide) (by decide)
      ⟨fun _ => by rw [if_pos (by decide)], trivial⟩⟩
  refine ⟨_, hmapped, fun h => ?_⟩
  have hone : 0x7f0000001000#64 ∈ sampleFixed.area 1 :=
    ⟨by decide, by decide, by decide, by decide, by decide⟩
  have htwo : 0x7f0000001000#64 ∈ sampleFixed.area 2 :=
    ⟨by decide, by decide, by decide, by decide, by decide⟩
  exact h.apart 1 2 (by decide) _ hone htwo

end Memtoy
