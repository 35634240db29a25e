import Memtoy.Segment.Ownership

/-!
# Segment.Protection — recorded and actual protection

`seg_prot` is what `show` prints and what the next `mmap` asks for. The actual
protection of a segment's mapping is a history: the `mmap` or `shmat` that made
it, and the last successful `mprotect` since (`actualProt`, folded from the log).
The two agree (`ProtInv`) as long as no System V segment is attached again after
its recorded protection was changed: `shmat` with flags 0 always gives read and
write access, and `map_shm_segment` does not write `seg_prot`.
-/

namespace Memtoy

open CString Relation

/-- The protection of `segp`'s mapping after a call, if it has a mapping. -/
def mappingProt (segp : SegPtr) (prot : Option Flags) : SysCall → Option Flags
  | .mmap q _ _ p _ _ _ memp => if q = segp ∧ memp ≠ mapFailed then some p else prot
  | .shmat q _ start =>
      if q = segp ∧ start ≠ mapFailed then some (protRead ||| protWrite) else prot
  | .mprotect q _ _ p ok => if q = segp ∧ ok = true then prot.map (fun _ => p) else prot
  | .munmap q _ _ | .shmdt q _ => if q = segp then none else prot
  | _ => prot

/-- The protection of `segp`'s current mapping. -/
def actualProt (g : Glctx) (segp : SegPtr) : Option Flags :=
  g.log.foldl (mappingProt segp) none

/-- Recorded protection equals actual protection for every mapped segment that is
not from the maps file. -/
def ProtInv (g : Glctx) : Prop :=
  ∀ segp, g.Live segp → (g.heap segp).isMaps = false → (g.heap segp).segStart ≠ mapFailed →
    actualProt g segp = some (g.heap segp).segProt

/-- A successful `shmat` of `segp`. -/
def SysCall.Attaches (segp : SegPtr) : SysCall → Prop
  | .shmat q _ start => q = segp ∧ start ≠ mapFailed
  | _ => False

/-! ## The history, call by call -/

/-- A call that has no part in the history of `segp`. -/
def SysCall.Foreign (segp : SegPtr) (c : SysCall) : Prop := ∀ prot, mappingProt segp prot c = prot

theorem actualProt_of_foreign {g g' : Glctx} {segp : SegPtr} {calls : List SysCall}
    (hlog : g'.log = g.log ++ calls) (h : ∀ c ∈ calls, c.Foreign segp) :
    actualProt g' segp = actualProt g segp := by
  have hfold : ∀ (calls : List SysCall) (prot : Option Flags), (∀ c ∈ calls, c.Foreign segp) →
      calls.foldl (mappingProt segp) prot = prot := by
    intro calls
    induction calls with
    | nil => exact fun _ _ => rfl
    | cons c calls ih =>
        intro prot hc
        rw [List.foldl_cons, hc c List.mem_cons_self prot]
        exact ih prot (fun c' hc' => hc c' (List.mem_cons_of_mem c hc'))
  rw [actualProt, hlog, List.foldl_append, hfold calls _ h, actualProt]

theorem actualProt_emit {g g' : Glctx} {segp : SegPtr} {c : SysCall} (hlog : g'.log = g.log ++ [c]) :
    actualProt g' segp = mappingProt segp (actualProt g segp) c := by
  rw [actualProt, hlog, List.foldl_append]
  rfl

theorem foreign_of_neutral {c : SysCall} (h : c.Neutral) (segp : SegPtr) : c.Foreign segp := by
  intro prot
  cases c <;> simp_all [SysCall.Neutral, mappingProt]

theorem foreign_of_newSegment {g : Glctx} {q : SegPtr} {s : Segment} {calls : List SysCall}
    (h : NewSegment g q s calls) (segp : SegPtr) : ∀ c ∈ calls, c.Foreign segp := by
  intro c hc prot
  cases h with
  | maps _ _ _ _ _ _ _ => cases hc
  | anon _ _ _ _ _ => cases hc
  | file path mode _ _ _ _ _ =>
      rw [List.mem_singleton.mp hc]
      rfl
  | shm shmflg _ _ _ _ _ _ _ =>
      rw [List.mem_singleton.mp hc]
      rfl

theorem foreign_of_unmapCalls {q segp : SegPtr} (hne : segp ≠ q) (s : Segment) :
    ∀ c ∈ unmapCalls q s, c.Foreign segp := by
  intro c hc prot
  unfold unmapCalls at hc
  split at hc
  · rw [List.mem_singleton.mp hc]
    exact if_neg hne.symm
  · rw [List.mem_singleton.mp hc]
    exact if_neg hne.symm
  · rw [List.mem_singleton.mp hc]
    exact if_neg hne.symm
  · cases hc

theorem foreign_of_releaseCalls (q segp : SegPtr) (s : Segment) :
    ∀ c ∈ releaseCalls q s, c.Foreign segp := by
  intro c hc prot
  unfold releaseCalls at hc
  rcases List.mem_append.mp hc with hc | hc
  · split at hc
    · rw [List.mem_singleton.mp hc]
      rfl
    · cases hc
  · split at hc
    · rw [List.mem_singleton.mp hc]
      rfl
    · cases hc

/-! ## Primitive steps -/

/-- A step that writes one record `q`, seen from the others. -/
theorem ProtInv.write {g g' : Glctx} (h : ProtInv g) {q : SegPtr} {s : Segment}
    (hent : g'.entries = g.entries) (hheap : g'.heap = Function.update g.heap q s)
    (hother : ∀ segp, segp ≠ q → actualProt g' segp = actualProt g segp)
    (hself : s.segType ≠ .segtNone → s.isMaps = false → s.segStart ≠ mapFailed →
      actualProt g' q = some s.segProt) : ProtInv g' := by
  intro segp hlive hmaps hstart
  by_cases hne : segp = q
  · subst hne
    have hs : g'.heap segp = s := by rw [hheap, Function.update_self]
    have htype := hlive.2
    rw [hs] at htype hmaps hstart ⊢
    exact hself htype hmaps hstart
  · have heq : g'.heap segp = g.heap segp := by rw [hheap, Function.update_of_ne hne]
    rw [heq] at hmaps hstart ⊢
    rw [hother segp hne]
    exact h segp ⟨by rw [← hent]; exact hlive.1, by rw [← heq]; exact hlive.2⟩ hmaps hstart

/-- A primitive step other than an attach keeps the two in agreement; an attach
does when the recorded protection is read and write. -/
theorem Prim.protInv {g g' : Glctx} (hrep : RepInv g) (hstep : Prim g g') (h : ProtInv g)
    (hattach : ∀ segp, Appends (fun c => ¬ c.Attaches segp) g g' ∨
      (g.heap segp).segProt = protRead ||| protWrite) : ProtInv g' := by
  cases hstep with
  | cache _ _ => exact h
  | alloc _ =>
      intro segp hlive hmaps hstart
      have hold := (hrep.live_newSlot segp).mp hlive
      rw [hrep.newSlot_heap_of_mem _ hold.1] at hmaps hstart ⊢
      exact h segp hold hmaps hstart
  | @claim q s name calls hun _ _ _ _ hnew =>
      have hforeign : ∀ segp,
          actualProt { g.setSeg q s with segAvail := none, log := g.log ++ calls } segp =
            actualProt g segp :=
        fun segp => actualProt_of_foreign rfl (foreign_of_newSegment hnew segp)
      refine h.write rfl rfl (fun segp _ => hforeign segp) ?_
      -- a new segment is not mapped, or it is from the maps file
      intro _ hmaps hstart
      cases hnew with
      | maps hm _ _ _ _ _ _ =>
          rw [hm] at hmaps
          cases hmaps
      | anon _ _ hst _ _ => exact absurd hst hstart
      | file _ _ _ _ hst _ _ => exact absurd hst hstart
      | shm _ _ _ hst _ _ _ _ => exact absurd hst hstart
  | @call c hc =>
      intro segp hlive hmaps hstart
      rw [actualProt_emit (c := c) rfl, foreign_of_neutral hc segp]
      exact h segp hlive hmaps hstart
  | @retune q s _ _ hst hre _ =>
      refine h.write rfl rfl (fun segp _ => rfl) ?_
      intro _ _ hstart
      exact absurd (hre.start.trans hst) hstart
  | @mapped q _ _ _ _ _ _ memp _ _ _ hok _ _ =>
      refine h.write rfl rfl ?_ ?_
      · intro segp hne
        rw [actualProt_emit rfl]
        exact if_neg (fun hc => hne hc.1.symm)
      · intro _ _ _
        rw [actualProt_emit rfl]
        exact if_pos ⟨rfl, hok⟩
  | @attached q start _ htype hst hok =>
      refine h.write rfl rfl ?_ ?_
      · intro segp hne
        rw [actualProt_emit rfl]
        exact if_neg (fun hc => hne hc.1.symm)
      · intro _ _ _
        rw [actualProt_emit rfl]
        rcases hattach q with ⟨calls, hlog, hno⟩ | hprot
        · -- the step issued a successful `shmat`
          have hcalls : calls = [.shmat q (g.heap q).segShmid start] :=
            (List.append_cancel_left hlog).symm
          exact absurd ⟨rfl, hok⟩ (hno (.shmat q (g.heap q).segShmid start) (by simp [hcalls]))
        · refine Eq.trans (if_pos ⟨rfl, hok⟩) ?_
          exact congrArg some hprot.symm
  | @reprotected q prot hp =>
      refine h.write rfl rfl ?_ ?_
      · intro segp hne
        rw [actualProt_emit rfl]
        exact if_neg (fun hc => hne hc.1.symm)
      · intro htype hmaps hstart
        rw [actualProt_emit rfl, h q hp hmaps hstart]
        exact if_pos ⟨rfl, rfl⟩
  | @unmapped q _ hst hm =>
      rw [unmapSegment_eq hst hm]
      refine h.write rfl rfl ?_ (fun _ _ hstart => absurd rfl hstart)
      intro segp hne
      exact actualProt_of_foreign rfl (foreign_of_unmapCalls hne _)
  | @freed q _ _ _ =>
      rw [freeSegSlot_eq]
      refine h.write rfl rfl ?_ (fun htype => absurd rfl htype)
      intro segp _
      exact actualProt_of_foreign rfl (foreign_of_releaseCalls q segp _)

/-! ## The calls of the API -/

/-- A `map` attaches a System V segment only when its recorded protection is read
and write. -/
def AttachesReadWrite (g : Glctx) : Op → Prop
  | .map k name _ _ => ∀ segp, (segmentGet g name).1 = some segp →
      (g.heap segp).segType = .segtShm → (g.heap segp).segStart = mapFailed →
      k.shmat (g.heap segp).segShmid ≠ mapFailed →
      (g.heap segp).segProt = protRead ||| protWrite
  | _ => True

theorem plain_not_attaches {c : SysCall} (h : c.Plain) : ∀ segp, ¬ c.Attaches segp := by
  cases c <;> first | exact fun _ => not_false | exact absurd h not_false

/-- Only a `map` of a System V segment attaches. -/
theorem Op.not_attaches (op : Op) {g : Glctx} (hrep : RepInv g)
    (hmap : ∀ k name range flags, op = .map k name range flags → ∀ segp,
      (segmentGet g name).1 = some segp → (g.heap segp).segType = .segtShm →
      (g.heap segp).segStart ≠ mapFailed) :
    Appends (fun c => ∀ segp, ¬ c.Attaches segp) g (op.exec g) := by
  by_cases hrel : op.releases
  · refine (op.releases_only g hrel).mono (fun c hc => ?_)
    cases c <;> first | exact fun _ => not_false | exact absurd hc not_false
  · by_cases hacc : op.accesses
    · cases op with
      | touch ev fuel name range rw =>
          refine (segmentTouch_touches ev fuel hrep name range rw).mono ?_
          rintro c ⟨q, memp, length, pagesize, rfl, -⟩
          exact fun _ => not_false
      | _ => exact absurd hacc not_false
    · cases op with
      | map k name range flags =>
          rcases hget : segmentGet g name with ⟨_ | p, g₁⟩ <;>
            simp only [Op.exec, segmentMap, hget]
          · exact .of_lookup hget (.of_log_eq rfl)
          · obtain ⟨-, -, avail, rfl⟩ := segmentGet_some hrep hget
            refine .of_lookup hget ?_
            split
            · exact .of_log_eq rfl
            · next hst =>
              split
              · exact mapAnonSegment_issues k _ p (fun _ _ _ _ _ _ _ _ => not_false)
              · exact mapFileSegment_issues k _ p (fun _ _ _ _ _ _ _ _ => not_false)
              · next htype =>
                exact absurd (hmap k name range flags rfl p (by rw [hget]) htype) hst
              · exact .of_log_eq rfl
      | _ => exact (Op.plain _ g hrel hacc not_false).mono (fun c hc => plain_not_attaches hc)

/-- The `map` of an unmapped System V segment. -/
theorem segmentMap_shm {g : Glctx} (k : Kernel) (hrep : RepInv g) {name : CStr}
    (range : Option Range) (flags : Flags) {segp : SegPtr}
    (hget : (segmentGet g name).1 = some segp) (htype : (g.heap segp).segType = .segtShm)
    (hstart : (g.heap segp).segStart = mapFailed) :
    g.Live segp ∧ ∃ avail, (segmentMap k g name range flags).2 =
      (mapShmSegment k { g with segAvail := avail } segp).2 := by
  rcases heq : segmentGet g name with ⟨r, g₁⟩
  rw [heq] at hget
  obtain rfl : r = some segp := hget
  obtain ⟨hlive, -, avail, rfl⟩ := segmentGet_some hrep heq
  refine ⟨hlive, avail, ?_⟩
  simp only [segmentMap, heq]
  rw [if_neg (not_not.mpr hstart)]
  simp only [htype]

theorem mapShmSegment_snd (k : Kernel) (g : Glctx) (segp : SegPtr) :
    (mapShmSegment k g segp).2 =
      (g.emit (.shmat segp (g.heap segp).segShmid (k.shmat (g.heap segp).segShmid))).setSeg segp
        { g.heap segp with segStart := k.shmat (g.heap segp).segShmid } := by
  simp only [mapShmSegment]
  split <;> rfl

/-- After an attach the recorded protection is the actual one exactly when it is read
and write. -/
theorem mapShmSegment_protInv_iff (k : Kernel) {g : Glctx} (h : ProtInv g) {segp : SegPtr}
    (hlive : g.Live segp) (hmaps : (g.heap segp).isMaps = false) :
    ProtInv (mapShmSegment k g segp).2 ↔
      (k.shmat (g.heap segp).segShmid ≠ mapFailed →
        (g.heap segp).segProt = protRead ||| protWrite) := by
  rw [mapShmSegment_snd]
  set g' := (g.emit (.shmat segp (g.heap segp).segShmid
    (k.shmat (g.heap segp).segShmid))).setSeg segp
      { g.heap segp with segStart := k.shmat (g.heap segp).segShmid } with hg'
  have hself : g'.heap segp = { g.heap segp with segStart := k.shmat (g.heap segp).segShmid } := by
    simp [hg']
  have hactual : k.shmat (g.heap segp).segShmid ≠ mapFailed →
      actualProt g' segp = some (protRead ||| protWrite) := by
    intro hok
    rw [actualProt_emit rfl]
    exact if_pos ⟨rfl, hok⟩
  constructor
  · intro hinv hok
    have hprot := hinv segp ⟨hlive.1, by rw [hself]; exact hlive.2⟩ (by rw [hself]; exact hmaps)
      (by rw [hself]; exact hok)
    rw [hactual hok, hself] at hprot
    exact (Option.some.inj hprot).symm
  · intro hprot
    refine h.write (q := segp) rfl rfl ?_ ?_
    · intro q hne
      rw [actualProt_emit rfl]
      exact if_neg (fun hc => hne hc.1.symm)
    · intro _ _ hok
      rw [hactual hok]
      exact congrArg some (hprot hok).symm

/-- A call of the API keeps the two in agreement exactly when it does not attach a
segment whose recorded protection is another one. -/
theorem Op.protInv_iff (op : Op) (hok : op.Ok) {g : Glctx} (hrep : RepInv g) (hpages : PageInv g)
    (h : ProtInv g) : ProtInv (op.exec g) ↔ AttachesReadWrite g op := by
  by_cases hshm : ∃ k name range flags segp, op = .map k name range flags ∧
      (segmentGet g name).1 = some segp ∧ (g.heap segp).segType = .segtShm ∧
      (g.heap segp).segStart = mapFailed
  · obtain ⟨k, name, range, flags, segp, rfl, hget, htype, hstart⟩ := hshm
    obtain ⟨hlive, avail, heq⟩ := segmentMap_shm k hrep range flags hget htype hstart
    have hmaps := (hpages.records segp hlive).not_maps_of_unmapped hstart
    have hiff := mapShmSegment_protInv_iff k (g := { g with segAvail := avail }) h hlive hmaps
    simp only [Op.exec, heq]
    rw [hiff]
    constructor
    · intro hcond segp' hget' _ _ hatt
      obtain rfl : segp = segp' := Option.some.inj (hget.symm.trans hget')
      exact hcond hatt
    · intro hcond
      exact hcond segp hget htype hstart
  · have hnot : Appends (fun c => ∀ segp, ¬ c.Attaches segp) g (op.exec g) := by
      refine op.not_attaches hrep ?_
      intro k name range flags heq segp hget htype hstart
      exact hshm ⟨k, name, range, flags, segp, heq, hget, htype, hstart⟩
    have hinv : ProtInv (op.exec g) :=
      (star_preserves_issuing ?_ (op.star hok hrep) hnot hrep h).2
    · refine ⟨fun _ => ?_, fun _ => hinv⟩
      cases op with
      | map k name range flags =>
          intro segp hget htype hstart _
          exact absurd ⟨k, name, range, flags, segp, rfl, hget, htype, hstart⟩ hshm
      | _ => trivial
    · intro g₁ g₂ hrep₁ hstep hQ hinv₁
      exact hstep.protInv hrep₁ hinv₁ (fun segp => Or.inl (hQ.mono (fun c hc => hc segp)))

/-! ## Runs -/

/-- The runs in which no `map` attaches a System V segment whose recorded protection
has been changed. -/
def protSpec : Trans.Spec Glctx :=
  Trans.Spec.under (fun g => ∃ k cfg maps, g = segmentInit k cfg maps)
    (fun (op : Op) g g' => op.Ok ∧ g' = op.exec g) AttachesReadWrite

theorem protSpec_reachable {g : Glctx} (h : protSpec.Reachable g) :
    (segSpec anyOp).Reachable g := by
  induction h with
  | init hinit => exact .init hinit
  | step _ hnext ih =>
      obtain ⟨op, -, hok, heq⟩ := hnext
      exact ih.step ⟨op, hok, trivial, heq⟩

theorem segmentInit_protInv (k : Kernel) (cfg : Config) (maps : List MapsEntry) :
    ProtInv (segmentInit k cfg maps) := by
  refine segmentInit_inv_plain ?_ ?_ k cfg maps
  · intro cfg segp hlive
    have hmem := hlive.1
    rw [emptyTable_entries] at hmem
    exact absurd hmem List.not_mem_nil
  · intro g g' hrep hstep hplain hinv
    exact hstep.protInv hrep hinv
      (fun segp => Or.inl (hplain.mono (fun c hc => plain_not_attaches hc segp)))

/-- In every such run the recorded protection of every mapped segment is the actual
one, and the next call keeps it so exactly when it meets the condition too. -/
theorem recorded_protection_is_actual {g : Glctx} (h : protSpec.Reachable g) :
    ProtInv g ∧ ∀ op : Op, op.Ok → (ProtInv (op.exec g) ↔ AttachesReadWrite g op) := by
  have hinv : ProtInv g := by
    induction h with
    | init hinit =>
        obtain ⟨k, cfg, maps, rfl⟩ := hinit
        exact segmentInit_protInv k cfg maps
    | step hreach hnext ih =>
        obtain ⟨op, hcond, hok, rfl⟩ := hnext
        have hseg := protSpec_reachable hreach
        exact (op.protInv_iff hok (reachable_repInv hseg) (reachable_pageInv hseg) ih).mpr hcond
  have hseg := protSpec_reachable h
  exact ⟨hinv, fun op hok =>
    op.protInv_iff hok (reachable_repInv hseg) (reachable_pageInv hseg) hinv⟩

/-- `shmem s 4k` and `map s` on the concrete machine. -/
def sampleAttached : Glctx :=
  (Op.map sampleKernel ['s'] none 0).exec
    ((Op.register sampleKernel .segtShm ['s'] ⟨0, 0x1000#64, 0⟩ 0).exec sampleTable)

theorem sampleAttached_reachable : protSpec.Reachable sampleAttached := by
  have hinit : protSpec.Reachable sampleTable := .init ⟨sampleKernel, sampleConfig, [sampleHeap], rfl⟩
  refine .step (.step hinit ⟨.register sampleKernel .segtShm ['s'] ⟨0, 0x1000#64, 0⟩ 0, trivial,
    ⟨by decide, by decide⟩, rfl⟩) ⟨.map sampleKernel ['s'] none 0, ?_, ?_, rfl⟩
  · intro segp hget _ _ _
    have hone : (segmentGet ((Op.register sampleKernel .segtShm ['s'] ⟨0, 0x1000#64, 0⟩ 0).exec
      sampleTable) ['s']).1 = some 1 := by decide
    obtain rfl : segp = 1 := Option.some.inj (hget.symm.trans hone)
    decide
  · show (0 : Flags) &&& segfMaps = 0
    decide

/-- The attached segment is readable and writable, and recorded so. -/
theorem recorded_protection_is_actual_shmem :
    actualProt sampleAttached 1 = some (sampleAttached.heap 1).segProt :=
  (recorded_protection_is_actual sampleAttached_reachable).1 1 ⟨by decide, by decide⟩ (by decide)
    (by decide)

/-- `mprotect s read`, `unmap s` and `map s` after it. -/
def sampleReattached : Glctx :=
  (Op.map sampleKernel ['s'] none 0).exec ((Op.unmap ['s']).exec
    ((Op.mprotect sampleKernel ['s'] protRead).exec sampleAttached))

/-- The segment is recorded as read-only, and attached readable and writable. -/
theorem reattach_loses_protection :
    (segSpec anyOp).Reachable sampleReattached ∧ sampleReattached.Live 1 ∧
      (sampleReattached.heap 1).isMaps = false ∧
      (sampleReattached.heap 1).segStart ≠ mapFailed ∧
      (sampleReattached.heap 1).segProt = protRead ∧
      actualProt sampleReattached 1 = some (protRead ||| protWrite) ∧
      ¬ ProtInv sampleReattached := by
  have hreach : (segSpec anyOp).Reachable sampleReattached := by
    refine .step (.step (.step (protSpec_reachable sampleAttached_reachable)
      ⟨.mprotect sampleKernel ['s'] protRead, trivial, trivial, rfl⟩)
      ⟨.unmap ['s'], trivial, trivial, rfl⟩) ⟨.map sampleKernel ['s'] none 0, ?_, trivial, rfl⟩
    show (0 : Flags) &&& segfMaps = 0
    decide
  refine ⟨hreach, ⟨by decide, by decide⟩, by decide, by decide, by decide, by decide, ?_⟩
  intro hinv
  exact absurd (hinv 1 ⟨by decide, by decide⟩ (by decide) (by decide)) (by decide)

end Memtoy
