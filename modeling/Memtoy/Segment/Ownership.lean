import Memtoy.Lib.Ledger
import Memtoy.Segment.Pages
import Memtoy.Segment.Refinement

/-!
# Segment.Ownership — who releases what

A segment record stands for up to three resources: a shm id, an open file and a
region of the address space. Which of them it stands for is spread over
`seg_type`, `seg_fd`, `seg_shmid`, `seg_start` and `SEGF_MAPS`; a `Resource`
says it in one place, next to the system calls that take and give the resource.

The books balance when the log of the calls, replayed as a ledger, arrives at
what the records in the table stand for (`Accounts`). Every primitive step keeps
the books of all three resources, so every call is issued for something a
segment owns at that point, and what is acquired is released once.
-/

namespace Memtoy

open CString Relation Ledger

/-! ## Resources -/

/-- What `mmap` and `shmat` leave: a mapping with the length it was asked for,
or an attachment. -/
inductive Region where
  | mapping (start length : Word)
  | attachment (start : Word)
deriving DecidableEq, Repr

/-- A kind of resource: the one a record stands for, if any, and the calls that
acquire and release it. -/
structure Resource (υ : Type) where
  owned : Segment → Option υ
  event : SysCall → Option (Event SegPtr υ)

def shmIds : Resource Int where
  owned s := if s.segType = .segtShm ∧ s.segShmid ≠ shmIdNone then some s.segShmid else none
  event
    | .shmget segp _ _ shmid => if shmid = shmIdNone then none else some (.acquire segp shmid)
    | .shmRmid segp shmid => some (.release segp shmid)
    | _ => none

def openFiles : Resource Int where
  owned s := if s.segType = .segtFile ∧ s.segFd ≠ segFdNone then some s.segFd else none
  event
    | .openFile segp _ _ fd => if fd < 0 then none else some (.acquire segp fd)
    | .close segp fd => some (.release segp fd)
    | _ => none

def regions : Resource Region where
  owned s :=
    if s.segStart = mapFailed ∨ s.isMaps then none
    else
      match s.segType with
      | .segtAnon | .segtFile => some (.mapping s.segStart s.segLength)
      | .segtShm => some (.attachment s.segStart)
      | .segtNone => none
  event
    | .mmap segp _ length _ _ _ _ memp =>
        if memp = mapFailed then none else some (.acquire segp (.mapping memp length))
    | .munmap segp start length => some (.release segp (.mapping start length))
    | .shmat segp _ start =>
        if start = mapFailed then none else some (.acquire segp (.attachment start))
    | .shmdt segp start => some (.release segp (.attachment start))
    | _ => none

namespace Resource

variable {υ : Type} (r : Resource υ)

/-- What the segments of the table stand for. -/
def held (g : Glctx) (segp : SegPtr) : Option υ :=
  if segp ∈ g.entries then r.owned (g.heap segp) else none

/-- The acquisitions and releases in a log. -/
def events (log : List SysCall) : List (Event SegPtr υ) := log.filterMap r.event

@[simp] theorem events_append (log log' : List SysCall) :
    r.events (log ++ log') = r.events log ++ r.events log' := List.filterMap_append

/-- Neutral calls are no events, and an unused slot stands for nothing. -/
structure Lawful : Prop where
  neutral : ∀ c, c.Neutral → r.event c = none
  unused : ∀ s, s.segType = .segtNone → r.owned s = none

end Resource

theorem shmIds_lawful : shmIds.Lawful where
  neutral c hc := by
    cases c <;> simp_all [shmIds, SysCall.Neutral]
  unused s hs := by simp [shmIds, hs]

theorem openFiles_lawful : openFiles.Lawful where
  neutral c hc := by
    cases c <;> simp_all [openFiles, SysCall.Neutral]
  unused s hs := by simp [openFiles, hs]

theorem regions_lawful : regions.Lawful where
  neutral c hc := by
    cases c <;> simp_all [regions, SysCall.Neutral]
  unused s hs := by simp [regions, hs]

/-! ## The books -/

section Books

variable {υ : Type} [DecidableEq υ] (r : Resource υ)

/-- The log replays from `init` to what the table holds. -/
def Accounts (init : SegPtr → Option υ) (g : Glctx) : Prop :=
  replay init (r.events g.log) = some (r.held g)

/-- A record goes from `s` to `s'` while `calls` are made for it: nothing of the
kind happens, or it is acquired, or it is released. -/
def Moves (segp : SegPtr) (calls : List SysCall) (s s' : Segment) : Prop :=
  (r.events calls = [] ∧ r.owned s' = r.owned s) ∨
    (∃ x, r.events calls = [.acquire segp x] ∧ r.owned s = none ∧ r.owned s' = some x) ∨
    (∃ x, r.events calls = [.release segp x] ∧ r.owned s = some x ∧ r.owned s' = none)

variable {r} {init : SegPtr → Option υ} {g g' : Glctx}

omit [DecidableEq υ] in
theorem Moves.still {segp : SegPtr} {calls : List SysCall} {s s' : Segment}
    (hev : r.events calls = []) (hown : r.owned s' = r.owned s) : Moves r segp calls s s' :=
  Or.inl ⟨hev, hown⟩

omit [DecidableEq υ] in
theorem held_write {segp : SegPtr} {s : Segment} (hmem : segp ∈ g.entries)
    (hent : g'.entries = g.entries) (hheap : g'.heap = Function.update g.heap segp s) :
    r.held g' = Function.update (r.held g) segp (r.owned s) := by
  funext q
  by_cases hq : q = segp
  · subst hq
    simp [Resource.held, hent, hheap, hmem]
  · simp [Resource.held, hent, hheap, hq]

/-- Moving one record keeps the books. -/
theorem Accounts.move (h : Accounts r init g) {segp : SegPtr} {calls : List SysCall} {s : Segment}
    (hmem : segp ∈ g.entries) (hent : g'.entries = g.entries)
    (hheap : g'.heap = Function.update g.heap segp s) (hlog : g'.log = g.log ++ calls)
    (hmove : Moves r segp calls (g.heap segp) s) : Accounts r init g' := by
  have hself : r.held g segp = r.owned (g.heap segp) := by simp [Resource.held, hmem]
  unfold Accounts at h ⊢
  rw [hlog, Resource.events_append, replay_append_of_eq h, held_write hmem hent hheap]
  rcases hmove with ⟨hev, hown⟩ | ⟨x, hev, hold, hnew⟩ | ⟨x, hev, hold, hnew⟩
  · rw [hev, replay_nil, hown, ← hself, Function.update_eq_self]
  · rw [hev, hnew, replay_acquire x (by rw [hself, hold])]
  · rw [hev, hnew, replay_release (by rw [hself, hold])]

/-- A step that makes neutral calls only, leaves the records of the table alone
and adds unused slots only keeps the books. -/
theorem Accounts.quiet (hr : r.Lawful) (h : Accounts r init g) {calls : List SysCall}
    (hcalls : ∀ c ∈ calls, c.Neutral) (hlog : g'.log = g.log ++ calls)
    (hkeep : ∀ p ∈ g.entries, p ∈ g'.entries ∧ g'.heap p = g.heap p)
    (hadd : ∀ p ∈ g'.entries, p ∉ g.entries → (g'.heap p).segType = .segtNone) :
    Accounts r init g' := by
  have hev : r.events calls = [] := by
    rw [Resource.events, List.filterMap_eq_nil_iff]
    exact fun c hc => hr.neutral c (hcalls c hc)
  have hheld : r.held g' = r.held g := by
    funext p
    by_cases hp : p ∈ g.entries
    · obtain ⟨hp', heq⟩ := hkeep p hp
      simp [Resource.held, hp, hp', heq]
    · by_cases hp' : p ∈ g'.entries
      · simp [Resource.held, hp, hp', hr.unused _ (hadd p hp' hp)]
      · simp [Resource.held, hp, hp']
  unfold Accounts at h ⊢
  rw [hlog, Resource.events_append, replay_append_of_eq h, hev, replay_nil, hheld]

end Books

/-! ## Primitive steps keep the books -/

/-- A step either leaves all records alone, or moves one. -/
def Moving (g g' : Glctx) : Prop :=
  (∃ calls, (∀ c ∈ calls, SysCall.Neutral c) ∧ g'.log = g.log ++ calls ∧
    (∀ p ∈ g.entries, p ∈ g'.entries ∧ g'.heap p = g.heap p) ∧
    ∀ p ∈ g'.entries, p ∉ g.entries → (g'.heap p).segType = .segtNone) ∨
  (∃ segp calls s, segp ∈ g.entries ∧ g'.entries = g.entries ∧
    g'.heap = Function.update g.heap segp s ∧ g'.log = g.log ++ calls ∧
    Moves shmIds segp calls (g.heap segp) s ∧ Moves openFiles segp calls (g.heap segp) s ∧
    Moves regions segp calls (g.heap segp) s)

/-- What a record owns depends on its type, descriptor, id, start, length and
whether it is from the maps file. -/
theorem owned_congr {s s' : Segment} (htype : s'.segType = s.segType) (hfd : s'.segFd = s.segFd)
    (hid : s'.segShmid = s.segShmid) (hstart : s'.segStart = s.segStart)
    (hregion : s.segStart ≠ mapFailed →
      s'.segLength = s.segLength ∧ s'.segFlags = s.segFlags) :
    shmIds.owned s' = shmIds.owned s ∧ openFiles.owned s' = openFiles.owned s ∧
      regions.owned s' = regions.owned s := by
  refine ⟨by simp [shmIds, htype, hid], by simp [openFiles, htype, hfd], ?_⟩
  by_cases hst : s.segStart = mapFailed
  · simp [regions, hstart, hst]
  · obtain ⟨hlen, hflags⟩ := hregion hst
    simp [regions, Segment.isMaps, htype, hstart, hlen, hflags]

/-- A record that owns nothing. -/
theorem owned_none {s : Segment} (hfd : s.segFd = segFdNone) (hid : s.segShmid = shmIdNone)
    (hregion : s.segStart = mapFailed ∨ s.isMaps = true) :
    shmIds.owned s = none ∧ openFiles.owned s = none ∧ regions.owned s = none := by
  refine ⟨by simp [shmIds, hid], by simp [openFiles, hfd], ?_⟩
  simp only [regions]
  rw [if_pos hregion]

theorem owned_unused {s : Segment} (htype : s.segType = .segtNone) :
    shmIds.owned s = none ∧ openFiles.owned s = none ∧ regions.owned s = none :=
  ⟨shmIds_lawful.unused s htype, openFiles_lawful.unused s htype, regions_lawful.unused s htype⟩

/-- A registration acquires the file or the shm id its record stands for. -/
theorem newSegment_moves {g : Glctx} {segp : SegPtr} {s s₀ : Segment} {calls : List SysCall}
    (hnew : NewSegment g segp s calls) (hun : s₀.segType = .segtNone) :
    Moves shmIds segp calls s₀ s ∧ Moves openFiles segp calls s₀ s ∧
      Moves regions segp calls s₀ s := by
  obtain ⟨h1, h2, h3⟩ := owned_unused hun
  cases hnew with
  | maps hmaps _ _ _ _ hfd hid =>
      obtain ⟨h1', h2', h3'⟩ := owned_none hfd hid (Or.inr hmaps)
      exact ⟨.still rfl (h1'.trans h1.symm), .still rfl (h2'.trans h2.symm),
        .still rfl (h3'.trans h3.symm)⟩
  | anon _ _ hstart hfd hid =>
      obtain ⟨h1', h2', h3'⟩ := owned_none hfd hid (Or.inl hstart)
      exact ⟨.still rfl (h1'.trans h1.symm), .still rfl (h2'.trans h2.symm),
        .still rfl (h3'.trans h3.symm)⟩
  | file path mode _ htype hstart hfd hid =>
      have hne : s.segFd ≠ segFdNone := by
        intro hc
        rw [hc] at hfd
        exact absurd hfd (by decide)
      refine ⟨.still rfl ?_, Or.inr (Or.inl ⟨s.segFd, ?_, h2, ?_⟩), .still rfl ?_⟩
      · rw [h1]
        simp [shmIds, hid]
      · simp [Resource.events, openFiles, Int.not_lt.mpr hfd]
      · simp [openFiles, htype, hne]
      · rw [h3]
        simp [regions, hstart]
  | shm shmflg _ htype hstart hfd hid _ _ =>
      refine ⟨Or.inr (Or.inl ⟨s.segShmid, ?_, h1, ?_⟩), .still rfl ?_, .still rfl ?_⟩
      · simp [Resource.events, shmIds, hid]
      · simp [shmIds, htype, hid]
      · rw [h2]
        simp [openFiles, hfd]
      · rw [h3]
        simp [regions, hstart]

/-- `free_seg_slot` releases the shm id and the file a record stands for, and no
region. -/
theorem releaseCalls_moves (segp : SegPtr) (s : Segment) {z : Segment}
    (hz : z.segType = .segtNone) :
    Moves shmIds segp (releaseCalls segp s) s z ∧ Moves openFiles segp (releaseCalls segp s) s z ∧
      regions.events (releaseCalls segp s) = [] := by
  obtain ⟨h1, h2, -⟩ := owned_unused hz
  refine ⟨?_, ?_, ?_⟩
  · by_cases hs : s.segType = .segtShm ∧ s.segShmid ≠ shmIdNone
    · refine Or.inr (Or.inr ⟨s.segShmid, ?_, ?_, h1⟩)
      · simp [releaseCalls, hs, Resource.events, shmIds]
      · simp [shmIds, hs]
    · refine .still ?_ ?_
      · by_cases hf : s.segType = .segtFile ∧ s.segFd ≠ segFdNone <;>
          simp [releaseCalls, hs, hf, Resource.events, shmIds]
      · rw [h1]
        simp [shmIds, hs]
  · by_cases hf : s.segType = .segtFile ∧ s.segFd ≠ segFdNone
    · refine Or.inr (Or.inr ⟨s.segFd, ?_, ?_, h2⟩)
      · simp [releaseCalls, hf, Resource.events, openFiles]
      · simp [openFiles, hf]
    · refine .still ?_ ?_
      · by_cases hs : s.segType = .segtShm ∧ s.segShmid ≠ shmIdNone <;>
          simp [releaseCalls, hs, hf, Resource.events, openFiles]
      · rw [h2]
        simp [openFiles, hf]
  · by_cases hs : s.segType = .segtShm ∧ s.segShmid ≠ shmIdNone <;>
      by_cases hf : s.segType = .segtFile ∧ s.segFd ≠ segFdNone <;>
        simp [releaseCalls, hs, hf, Resource.events, regions]

/-- `unmap_segment` releases the region a mapped record stands for, and nothing
else. -/
theorem unmapCalls_moves (segp : SegPtr) {s : Segment} (hlive : s.segType ≠ .segtNone)
    (hstart : s.segStart ≠ mapFailed) (hmaps : s.isMaps = false) :
    Moves shmIds segp (unmapCalls segp s) s { s with segStart := mapFailed } ∧
      Moves openFiles segp (unmapCalls segp s) s { s with segStart := mapFailed } ∧
      Moves regions segp (unmapCalls segp s) s { s with segStart := mapFailed } := by
  refine ⟨.still ?_ (by simp [shmIds]), .still ?_ (by simp [openFiles]), Or.inr (Or.inr ?_)⟩
  · cases htype : s.segType <;> simp [unmapCalls, htype, Resource.events, shmIds]
  · cases htype : s.segType <;> simp [unmapCalls, htype, Resource.events, openFiles]
  · cases htype : s.segType <;> simp_all [unmapCalls, Resource.events, regions]

theorem Prim.moving {g g' : Glctx} (hstep : Prim g g') (h : RepInv g) (hpages : PageInv g) :
    Moving g g' := by
  have hnoev : ∀ {υ : Type} (r : Resource υ), r.events [] = [] := fun _ => rfl
  cases hstep with
  | cache _ _ =>
      exact Or.inl ⟨[], by simp, by simp, fun p hp => ⟨hp, rfl⟩, fun p hp hno => absurd hp hno⟩
  | alloc hlt =>
      refine Or.inl ⟨[], by simp, by simp [newSlot], ?_, ?_⟩
      · intro p hp
        rw [h.entries_newSlot]
        exact ⟨List.mem_append_left _ hp, h.newSlot_heap_of_mem _ hp⟩
      · intro p hp hno
        rw [h.entries_newSlot, List.mem_append, List.mem_singleton] at hp
        rcases hp with hp | rfl
        · exact absurd hp hno
        · simp [newSlot, Segment.zero]
  | claim hun _ _ _ _ hnew =>
      obtain ⟨h1, h2, h3⟩ := newSegment_moves hnew hun.2
      exact Or.inr ⟨_, _, _, hun.1, rfl, rfl, rfl, h1, h2, h3⟩
  | @call c hc =>
      refine Or.inl ⟨[c], ?_, rfl, fun p hp => ⟨hp, rfl⟩, fun p hp hno => absurd hp hno⟩
      intro c' hc'
      rw [List.mem_singleton.mp hc']
      exact hc
  | @retune segp s hp _ hstart hre _ =>
      obtain ⟨h1, h2, h3⟩ := owned_congr hre.type hre.fd hre.shmid hre.start
        (fun hne => absurd hstart hne)
      exact Or.inr ⟨segp, [], s, hp.1, rfl, rfl, by simp, .still (hnoev _) h1,
        .still (hnoev _) h2, .still (hnoev _) h3⟩
  | @mapped segp addr upper lower flags fd offset memp hp htype hstart hne _ _ =>
      have hflags := isMaps_eq_false.mp ((hpages.records segp hp).not_maps_of_unmapped hstart)
      refine Or.inr ⟨segp, [_], _, hp.1, rfl, rfl, rfl, .still rfl ?_, .still rfl ?_,
        Or.inr (Or.inl ⟨.mapping memp (g.heap segp).segLength, ?_, ?_, ?_⟩)⟩
      · simp [shmIds]
      · simp [openFiles]
      · simp [Resource.events, regions, hne]
      · simp [regions, hstart]
      · rcases htype with ht | ht <;> simp [regions, Segment.isMaps, hne, hflags, ht]
  | @attached segp start hp htype hstart hne =>
      have hflags := isMaps_eq_false.mp ((hpages.records segp hp).not_maps_of_unmapped hstart)
      refine Or.inr ⟨segp, [_], _, hp.1, rfl, rfl, rfl, .still rfl ?_, .still rfl ?_,
        Or.inr (Or.inl ⟨.attachment start, ?_, ?_, ?_⟩)⟩
      · simp [shmIds]
      · simp [openFiles]
      · simp [Resource.events, regions, hne]
      · simp [regions, hstart]
      · simp [regions, Segment.isMaps, hne, hflags, htype]
  | @reprotected segp prot hp =>
      obtain ⟨h1, h2, h3⟩ := @owned_congr (g.heap segp) { g.heap segp with segProt := prot }
        rfl rfl rfl rfl (fun _ => ⟨rfl, rfl⟩)
      exact Or.inr ⟨segp, [_], _, hp.1, rfl, rfl, rfl, .still rfl h1, .still rfl h2, .still rfl h3⟩
  | @unmapped segp hp hstart hmaps =>
      rw [unmapSegment_eq hstart hmaps]
      obtain ⟨h1, h2, h3⟩ := unmapCalls_moves segp hp.2 hstart hmaps
      exact Or.inr ⟨segp, unmapCalls segp (g.heap segp), _, hp.1, rfl, rfl, rfl, h1, h2, h3⟩
  | @freed segp hp hstart hmaps =>
      rw [freeSegSlot_eq]
      have hun : ({ Segment.zero with segSlot := (g.heap segp).segSlot } : Segment).segType =
          .segtNone := rfl
      obtain ⟨h1, h2, hev⟩ := releaseCalls_moves segp (g.heap segp) hun
      have hown : regions.owned (g.heap segp) = none := by simp [regions, hstart]
      exact Or.inr ⟨segp, releaseCalls segp (g.heap segp), _, hp.1, rfl, rfl, rfl, h1, h2,
        .still hev ((owned_unused hun).2.2.trans hown.symm)⟩

/-- What a whole table stands for. -/
structure Holdings where
  shm : SegPtr → Option Int
  files : SegPtr → Option Int
  memory : SegPtr → Option Region

def Holdings.nothing : Holdings := ⟨fun _ => none, fun _ => none, fun _ => none⟩

def Glctx.holdings (g : Glctx) : Holdings := ⟨shmIds.held g, openFiles.held g, regions.held g⟩

/-- The books of all three resources balance, counted from `init`. -/
structure Books (init : Holdings) (g : Glctx) : Prop where
  shm : Accounts shmIds init.shm g
  files : Accounts openFiles init.files g
  memory : Accounts regions init.memory g
  pages : PageInv g

/-- Every primitive step keeps the books. -/
theorem Prim.books {init : Holdings} {g g' : Glctx} (h : RepInv g) (hstep : Prim g g')
    (hb : Books init g) : Books init g' := by
  have hpages := hstep.pageInv h hb.pages
  rcases hstep.moving h hb.pages with
    ⟨calls, hcalls, hlog, hkeep, hadd⟩ | ⟨segp, calls, s, hmem, hent, hheap, hlog, h1, h2, h3⟩
  · exact ⟨hb.shm.quiet shmIds_lawful hcalls hlog hkeep hadd,
      hb.files.quiet openFiles_lawful hcalls hlog hkeep hadd,
      hb.memory.quiet regions_lawful hcalls hlog hkeep hadd, hpages⟩
  · exact ⟨hb.shm.move hmem hent hheap hlog h1, hb.files.move hmem hent hheap hlog h2,
      hb.memory.move hmem hent hheap hlog h3, hpages⟩

theorem emptyTable_books (cfg : Config) : Books .nothing (emptyTable cfg) := by
  have hno : ∀ p, p ∉ (emptyTable cfg).entries := by
    intro p
    rw [emptyTable_entries]
    exact List.not_mem_nil
  have hacc : ∀ {υ : Type} [DecidableEq υ] (r : Resource υ),
      Accounts r (fun _ => none) (emptyTable cfg) := by
    intro υ _ r
    have hheld : r.held (emptyTable cfg) = fun _ => none := by
      funext p
      simp [Resource.held, hno p]
    rw [Accounts, hheld]
    rfl
  exact ⟨hacc _, hacc _, hacc _, emptyTable_pageInv cfg⟩

/-- In every reachable state the books balance. -/
theorem reachable_books {P : Op → Prop} {g : Glctx} (h : (segSpec P).Reachable g) :
    Books .nothing g :=
  (reachable_inv emptyTable_books (fun _ _ hrep hstep hb => hstep.books hrep hb) h).2

/-! ## The exit-time cleanup -/

/-- `segment_cleanup` removes exactly the shm ids the table holds. -/
theorem cleanupScan_spec {init : SegPtr → Option Int} (tl : List (Option SegPtr)) :
    ∀ (ps : List SegPtr) {g : Glctx},
    ps.Nodup → (∀ p ∈ ps, p ∈ g.entries) → Accounts shmIds init g →
    let g' := cleanupScan (ps.map some ++ none :: tl) g
    Accounts shmIds init g' ∧ g'.entries = g.entries ∧ (∀ p ∈ ps, (g'.heap p).segType ≠ .segtShm) ∧
      (∀ p, p ∉ ps → g'.heap p = g.heap p) ∧
      ∃ calls, g'.log = g.log ++ calls ∧
        ∀ c ∈ calls, ∃ p id, c = .shmRmid p id ∧ shmIds.held g p = some id
  | [], g, _, _, hacc => by
      exact ⟨hacc, rfl, by simp, fun _ _ => rfl, [], by simp [cleanupScan], by simp⟩
  | p :: ps, g, hnodup, hmem, hacc => by
      obtain ⟨hp, hps⟩ := List.nodup_cons.mp hnodup
      have hpm := hmem p List.mem_cons_self
      have hrest : ∀ q ∈ ps, q ∈ g.entries := fun q hq => hmem q (List.mem_cons_of_mem _ hq)
      intro g'
      by_cases htype : (g.heap p).segType = .segtShm
      · -- a shared memory segment: freed, then the rest of the list
        have hg' : g' = cleanupScan (ps.map some ++ none :: tl) (freeSegSlot g p) := by
          simp [g', cleanupScan, htype]
        have hent := freeSegSlot_entries g p
        have hheap : (freeSegSlot g p).heap = Function.update g.heap p
            { Segment.zero with segSlot := (g.heap p).segSlot } := by rw [freeSegSlot_eq]
        have hlog : (freeSegSlot g p).log = g.log ++ releaseCalls p (g.heap p) := by
          rw [freeSegSlot_eq]
        have hmove := (releaseCalls_moves p (g.heap p)
          (z := { Segment.zero with segSlot := (g.heap p).segSlot }) rfl).1
        have hacc₁ := hacc.move hpm hent hheap hlog hmove
        obtain ⟨h1, h2, h3, h4, calls, h5, h6⟩ := cleanupScan_spec tl ps hps
          (fun q hq => by rw [hent]; exact hrest q hq) hacc₁
        rw [hg']
        refine ⟨h1, h2.trans hent, ?_, ?_, releaseCalls p (g.heap p) ++ calls, ?_, ?_⟩
        · intro q hq
          rcases List.mem_cons.mp hq with rfl | hq
          · rw [h4 q hp, hheap, Function.update_self]
            simp [Segment.zero]
          · exact h3 q hq
        · intro q hq
          rw [h4 q (fun hc => hq (List.mem_cons_of_mem _ hc)), hheap,
            Function.update_of_ne (fun hc => hq (by simp [hc]))]
        · rw [h5, hlog, List.append_assoc]
        · intro c hc
          rcases List.mem_append.mp hc with hc | hc
          · have hid : (g.heap p).segShmid ≠ shmIdNone := by
              intro hid
              simp [releaseCalls, htype, hid] at hc
            refine ⟨p, (g.heap p).segShmid, ?_, ?_⟩
            · simpa [releaseCalls, htype, hid] using hc
            · simp [Resource.held, hpm, shmIds, htype, hid]
          · obtain ⟨q, id, hcq, hheld⟩ := h6 c hc
            refine ⟨q, id, hcq, ?_⟩
            rw [held_write hpm hent hheap] at hheld
            by_cases hq : q = p
            · subst hq
              rw [Function.update_self, shmIds_lawful.unused _ rfl] at hheld
              cases hheld
            · rwa [Function.update_of_ne hq] at hheld
      · have hg' : g' = cleanupScan (ps.map some ++ none :: tl) g := by
          simp [g', cleanupScan, htype]
        obtain ⟨h1, h2, h3, h4, hcalls⟩ := cleanupScan_spec tl ps hps hrest hacc
        rw [hg']
        refine ⟨h1, h2, ?_, fun q hq => h4 q (fun hc => hq (List.mem_cons_of_mem _ hc)), hcalls⟩
        intro q hq
        rcases List.mem_cons.mp hq with rfl | hq
        · rw [h4 q hp]
          exact htype
        · exact h3 q hq

/-- After the cleanup no segment stands for a shm id, and the cleanup issued
nothing but the removals. -/
theorem segmentCleanup_spec {init : SegPtr → Option Int} {g : Glctx} (h : RepInv g)
    (hacc : Accounts shmIds init g) :
    replay init (shmIds.events (segmentCleanup g).log) = some (fun _ => none) ∧
      ∃ calls, (segmentCleanup g).log = g.log ++ calls ∧
        ∀ c ∈ calls, ∃ p id, c = .shmRmid p id ∧ shmIds.held g p = some id := by
  have hspec := cleanupScan_spec (List.replicate (maxSegments - g.entries.length) none) g.entries
    h.nodup (fun _ hp => hp) hacc
  rw [← h.shape_cons] at hspec
  obtain ⟨hacc', hent, htype, -, hcalls⟩ := hspec
  refine ⟨?_, hcalls⟩
  have hnone : shmIds.held (segmentCleanup g) = fun _ => none := by
    funext p
    by_cases hp : p ∈ (segmentCleanup g).entries
    · have ht := htype p (by rw [← hent]; exact hp)
      have hown : shmIds.owned ((segmentCleanup g).heap p) = none := by
        simp only [shmIds]
        rw [if_neg (fun hc => ht hc.1)]
      simp [Resource.held, hp, hown]
    · simp [Resource.held, hp]
  exact hacc'.trans (congrArg some hnone)

/-! ## Which calls release -/

/-- The releasing calls. -/
def SysCall.Releases : SysCall → Prop
  | .close .. | .shmRmid .. | .shmdt .. | .munmap .. => True
  | _ => False

/-- The calls that make a mapping. -/
def SysCall.MapsMemory : SysCall → Prop
  | .mmap .. | .shmat .. => True
  | _ => False

/-- The calls that neither make a mapping nor release or access one. -/
def SysCall.Plain : SysCall → Prop
  | .touchMemory .. | .mmap .. | .shmat .. => False
  | c => ¬ c.Releases

/-- Only calls with the property were issued between `g` and `g'`. -/
def Appends (Q : SysCall → Prop) (g g' : Glctx) : Prop :=
  ∃ calls, g'.log = g.log ++ calls ∧ ∀ c ∈ calls, Q c

/-- Nothing was released between `g` and `g'`. -/
def Keeps (g g' : Glctx) : Prop :=
  ∃ calls, g'.log = g.log ++ calls ∧ ∀ c ∈ calls, ¬ SysCall.Releases c

namespace Appends

variable {Q : SysCall → Prop} {g g' : Glctx}

theorem of_log_eq (h : g'.log = g.log) : Appends Q g g' :=
  ⟨[], by simp [h], by simp⟩

theorem of_emit {c : SysCall} (h : g'.log = g.log ++ [c]) (hc : Q c) : Appends Q g g' := by
  refine ⟨[c], h, ?_⟩
  intro c' hc'
  rwa [List.mem_singleton.mp hc']

theorem ite {α : Type} {b : Prop} [Decidable b] {x y : α × Glctx} (hx : Appends Q g x.2)
    (hy : Appends Q g y.2) : Appends Q g (if b then x else y).2 := by
  split
  · exact hx
  · exact hy

theorem mono {R : SysCall → Prop} (h : Appends Q g g') (hQR : ∀ c, Q c → R c) :
    Appends R g g' := by
  obtain ⟨calls, hlog, hcalls⟩ := h
  exact ⟨calls, hlog, fun c hc => hQR c (hcalls c hc)⟩

theorem trans {g'' : Glctx} (h : Appends Q g g') (h' : Appends Q g' g'') : Appends Q g g'' := by
  obtain ⟨calls, hlog, hQ⟩ := h
  obtain ⟨calls', hlog', hQ'⟩ := h'
  refine ⟨calls ++ calls', by rw [hlog', hlog, List.append_assoc], ?_⟩
  intro c hc
  rcases List.mem_append.mp hc with hc | hc
  · exact hQ c hc
  · exact hQ' c hc

/-- What is issued from a state with the same log. -/
theorem from_log {g₁ : Glctx} (h : Appends Q g₁ g') (hlog : g₁.log = g.log) : Appends Q g g' := by
  obtain ⟨calls, hcalls, hQ⟩ := h
  exact ⟨calls, by rw [hcalls, hlog], hQ⟩

end Appends

theorem getSegSlot_log (g : Glctx) : (getSegSlot g).2.log = g.log := by
  simp only [getSegSlot]
  split
  · rfl
  · split
    · rfl
    · split <;> rfl

theorem freeSegSlot_log (g : Glctx) (segp : SegPtr) :
    (freeSegSlot g segp).log = g.log ++ releaseCalls segp (g.heap segp) := by
  rw [freeSegSlot_eq]

/-- Giving back a slot that owns nothing, after one more call. -/
theorem Appends.of_free {Q : SysCall → Prop} {g g₁ : Glctx} {segp : SegPtr} {c : SysCall}
    (h : g₁.log = g.log ++ [c]) (hc : Q c) (hnone : releaseCalls segp (g₁.heap segp) = []) :
    Appends Q g (freeSegSlot g₁ segp) := by
  refine .of_emit ?_ hc
  rw [freeSegSlot_log, hnone, List.append_nil, h]

/-- A lookup followed by the calls of the rest. -/
theorem Appends.of_lookup {Q : SysCall → Prop} {g g₁ g' : Glctx} {name : CStr} {p : Option SegPtr}
    (hget : segmentGet g name = (p, g₁)) (h : Appends Q g₁ g') : Appends Q g g' := by
  have hlog := segmentGet_log g name
  rw [hget] at hlog
  exact h.from_log hlog

section Issue

variable (k : Kernel) (g : Glctx) (segp : SegPtr)

theorem mapAnonSegment_issues {Q : SysCall → Prop}
    (hQ : ∀ addr length prot flags fd offset memp,
      Q (.mmap segp addr length prot flags fd offset memp)) :
    Appends Q g (mapAnonSegment k g segp).2 :=
  .ite (.of_emit rfl (hQ _ _ _ _ _ _ _)) (.of_emit rfl (hQ _ _ _ _ _ _ _))

theorem mapFileSegment_issues {Q : SysCall → Prop}
    (hQ : ∀ addr length prot flags fd offset memp,
      Q (.mmap segp addr length prot flags fd offset memp)) :
    Appends Q g (mapFileSegment k g segp).2 :=
  .ite (.of_log_eq rfl) (.ite (.of_log_eq rfl)
    (.ite (.of_emit rfl (hQ _ _ _ _ _ _ _)) (.of_emit rfl (hQ _ _ _ _ _ _ _))))

theorem mapShmSegment_issues {Q : SysCall → Prop} (hQ : ∀ id start, Q (.shmat segp id start)) :
    Appends Q g (mapShmSegment k g segp).2 :=
  .ite (.of_emit rfl (hQ _ _)) (.of_emit rfl (hQ _ _))

/-- A failed `open` gives the slot back before it owns a descriptor. -/
theorem openFile_plain (hfd : (g.heap segp).segFd = segFdNone)
    (htype : (g.heap segp).segType = .segtFile) :
    Appends SysCall.Plain g (openFile k g segp).2 := by
  have hnone : releaseCalls segp (g.heap segp) = [] := by simp [releaseCalls, hfd, htype]
  simp only [openFile]
  split
  · exact .of_log_eq (by rw [freeSegSlot_log, hnone, List.append_nil])
  · split
    · exact .of_log_eq (by rw [freeSegSlot_log, hnone, List.append_nil])
    · refine .ite (.of_free rfl not_false ?_) (.of_emit rfl not_false)
      simp [releaseCalls, hfd, htype]

/-- A failed `shmget` gives the slot back before it owns an id. -/
theorem getShmSegment_plain (hid : (g.heap segp).segShmid = shmIdNone)
    (htype : (g.heap segp).segType = .segtShm) :
    Appends SysCall.Plain g (getShmSegment k g segp).2 := by
  refine .ite (.of_free rfl not_false ?_) (.of_emit rfl not_false)
  simp [releaseCalls, Segment.pageAlign, hid, htype]

end Issue

theorem segmentRegister_plain (k : Kernel) (g : Glctx) (type : SegType) (name : CStr)
    (range : Range) (flags : Flags) :
    Appends SysCall.Plain g (segmentRegister k g type name range flags).2 := by
  rcases hget : segmentGet g (basename name) with ⟨_ | p, g₁⟩
  · simp only [segmentRegister, hget]
    refine .of_lookup hget ?_
    rcases hslot : getSegSlot g₁ with ⟨_ | q, g₂⟩
    · have hlog := getSegSlot_log g₁
      rw [hslot] at hlog
      exact .of_log_eq hlog
    · have hlog : g₂.log = g₁.log := by
        have hlog := getSegSlot_log g₁
        rwa [hslot] at hlog
      refine Appends.from_log ?_ hlog
      simp only
      refine .ite (.of_log_eq rfl) ?_
      cases type with
      | segtNone => exact .of_log_eq rfl
      | segtAnon => exact .of_log_eq rfl
      | segtFile => exact openFile_plain k _ q (by simp [newRecord]) (by simp [newRecord])
      | segtShm => exact getShmSegment_plain k _ q (by simp [newRecord]) (by simp [newRecord])
  · simp only [segmentRegister, hget]
    exact .of_lookup hget (.of_log_eq rfl)

theorem segmentMap_mapsMemory (k : Kernel) (g : Glctx) (name : CStr) (range : Option Range)
    (flags : Flags) : Appends SysCall.MapsMemory g (segmentMap k g name range flags).2 := by
  rcases hget : segmentGet g name with ⟨_ | p, g₁⟩
  · simp only [segmentMap, hget]
    exact .of_lookup hget (.of_log_eq rfl)
  · simp only [segmentMap, hget]
    refine .of_lookup hget (.ite (.of_log_eq rfl) ?_)
    split
    · exact mapAnonSegment_issues k _ p (fun _ _ _ _ _ _ _ => trivial)
    · exact mapFileSegment_issues k _ p (fun _ _ _ _ _ _ _ => trivial)
    · exact mapShmSegment_issues k _ p (fun _ _ => trivial)
    · exact .of_log_eq rfl

/-- A `segment_touch` accesses the memory of the segment it names, and does not
write to one of the maps file. -/
theorem segmentTouch_touches (ev : Nat → PageEvent) (fuel : Nat) {g : Glctx} (h : RepInv g)
    (name : CStr) (range : Range) (rw : Bool) :
    Appends (fun c => ∃ segp memp length pagesize, c = .touchMemory segp rw memp length pagesize ∧
      ¬ (rw = true ∧ (g.heap segp).isMaps = true)) g (segmentTouch ev fuel g name range rw).2 := by
  rcases hget : segmentGet g name with ⟨_ | p, g₁⟩ <;> simp only [segmentTouch, hget]
  · exact .of_lookup hget (.of_log_eq rfl)
  · obtain ⟨-, -, avail, rfl⟩ := segmentGet_some h hget
    refine .of_lookup hget ?_
    split
    · exact .of_log_eq rfl
    · next hguard =>
      split
      · exact .of_log_eq rfl
      · split
        · exact .of_emit rfl ⟨_, _, _, _, rfl, hguard⟩
        · exact .ite (.of_emit rfl ⟨_, _, _, _, rfl, hguard⟩)
            (.of_emit rfl ⟨_, _, _, _, rfl, hguard⟩)

/-- The calls that can release: `segment_remove` and `segment_unmap`. -/
def Op.releases : Op → Prop
  | .remove _ | .unmap _ => True
  | _ => False

/-- The call that accesses memory. -/
def Op.accesses : Op → Prop
  | .touch .. => True
  | _ => False

/-- The call that makes mappings. -/
def Op.mapsMemory : Op → Prop
  | .map .. => True
  | _ => False

/-- No other call of the API makes, releases or accesses a mapping. -/
theorem Op.plain (op : Op) (g : Glctx) (hrel : ¬ op.releases) (hacc : ¬ op.accesses)
    (hmap : ¬ op.mapsMemory) : Appends SysCall.Plain g (op.exec g) := by
  cases op with
  | get name => exact .of_log_eq (segmentGet_log g name)
  | register k type name range flags => exact segmentRegister_plain k g type name range flags
  | remove name => exact absurd trivial hrel
  | unmap name => exact absurd trivial hrel
  | map k name range flags => exact absurd trivial hmap
  | mprotect k name prot =>
      rcases hget : segmentGet g name with ⟨_ | p, g₁⟩ <;>
        simp only [Op.exec, segmentMprotect, hget]
      · exact .of_lookup hget (.of_log_eq rfl)
      · exact .of_lookup hget (.ite (.of_emit rfl not_false) (.of_emit rfl not_false))
  | touch ev fuel name range rw => exact absurd trivial hacc
  | mbind k name range policy nodemask flags =>
      rcases hget : segmentGet g name with ⟨_ | p, g₁⟩ <;>
        simp only [Op.exec, segmentMbind, hget]
      · exact .of_lookup hget (.of_log_eq rfl)
      · refine .of_lookup hget (.ite (.of_log_eq rfl) ?_)
        split
        · exact .of_log_eq rfl
        · exact .ite (.of_emit rfl not_false) (.of_emit rfl not_false)
  | location k sig fuel name range =>
      rcases hget : segmentGet g name with ⟨_ | p, g₁⟩ <;>
        simp only [Op.exec, segmentLocation, hget]
      · exact .of_lookup hget (.of_log_eq rfl)
      · refine .of_lookup hget (.ite (.of_log_eq rfl) ?_)
        split
        · exact .of_log_eq rfl
        · refine .ite (.of_log_eq rfl) ?_
          split
          · exact .of_log_eq rfl
          · next run _ =>
            have hno : ∀ c ∈ run.visited.map (SysCall.getNode p), SysCall.Plain c := by
              intro c hc
              obtain ⟨vaddr, -, rfl⟩ := List.mem_map.mp hc
              exact not_false
            exact .ite ⟨_, rfl, hno⟩ ⟨_, rfl, hno⟩
  | lockUnlock k name range lock shm =>
      rcases hget : segmentGet g name with ⟨_ | p, g₁⟩ <;>
        simp only [Op.exec, segmentLockUnlock, hget]
      · exact .of_lookup hget (.of_log_eq rfl)
      · refine .of_lookup hget (.ite (.of_log_eq rfl) (.ite (.ite (.of_log_eq rfl) ?_) ?_))
        · exact .ite (.of_emit rfl not_false) (.of_emit rfl not_false)
        · split
          · exact .of_log_eq rfl
          · exact .ite (.of_emit rfl not_false) (.of_emit rfl not_false)

theorem unmapSegment_releases (g : Glctx) (segp : SegPtr) :
    Appends SysCall.Releases g (unmapSegment g segp) := by
  simp only [unmapSegment]
  split
  · exact .of_log_eq rfl
  · cases (g.heap segp).segType with
    | segtNone => exact .of_log_eq rfl
    | segtAnon => exact .of_emit rfl trivial
    | segtFile => exact .of_emit rfl trivial
    | segtShm => exact .of_emit rfl trivial

theorem freeSegSlot_releases (g : Glctx) (segp : SegPtr) :
    Appends SysCall.Releases g (freeSegSlot g segp) := by
  refine ⟨_, freeSegSlot_log g segp, ?_⟩
  intro c hc
  unfold releaseCalls at hc
  rcases List.mem_append.mp hc with hc | hc
  · split at hc
    · rw [List.mem_singleton.mp hc]
      trivial
    · cases hc
  · split at hc
    · rw [List.mem_singleton.mp hc]
      trivial
    · cases hc

/-- `segment_remove` and `segment_unmap` issue releasing calls only. -/
theorem Op.releases_only (op : Op) (g : Glctx) (hrel : op.releases) :
    Appends SysCall.Releases g (op.exec g) := by
  cases op with
  | remove name =>
      rcases hget : segmentGet g name with ⟨_ | p, g₁⟩ <;> simp only [Op.exec, segmentRemove, hget]
      · exact .of_lookup hget (.of_log_eq rfl)
      · exact .of_lookup hget (.ite (.of_log_eq rfl)
          ((unmapSegment_releases g₁ p).trans (freeSegSlot_releases _ p)))
  | unmap name =>
      rcases hget : segmentGet g name with ⟨_ | p, g₁⟩ <;> simp only [Op.exec, segmentUnmap, hget]
      · exact .of_lookup hget (.of_log_eq rfl)
      · exact .of_lookup hget (.ite (.of_log_eq rfl) (unmapSegment_releases g₁ p))
  | _ => exact absurd hrel not_false

theorem SysCall.Plain.not_releases {c : SysCall} (h : c.Plain) : ¬ c.Releases := by
  cases c <;> first | exact h | exact not_false

/-- Only `segment_remove` and `segment_unmap` release anything. -/
theorem Op.keeps (op : Op) {g : Glctx} (h : RepInv g) (hop : ¬ op.releases) :
    Keeps g (op.exec g) := by
  by_cases hacc : op.accesses
  · cases op with
    | touch ev fuel name range rw =>
        refine (segmentTouch_touches ev fuel h name range rw).mono ?_
        rintro c ⟨segp, memp, length, pagesize, rfl, -⟩
        exact not_false
    | _ => exact absurd hacc not_false
  · by_cases hmap : op.mapsMemory
    · cases op with
      | map k name range flags =>
          refine (segmentMap_mapsMemory k g name range flags).mono ?_
          intro c hc hrel
          cases c <;> first | exact hc | exact hrel
      | _ => exact absurd hmap not_false
    · exact (op.plain g hop hacc hmap).mono (fun _ hc => hc.not_releases)

/-! ## Primitive steps only append -/

/-- Every primitive step only appends to the log. -/
theorem Prim.appends {g g' : Glctx} (hstep : Prim g g') :
    Appends (fun _ => True) g g' := by
  cases hstep with
  | cache _ _ => exact .of_log_eq rfl
  | alloc _ => exact .of_log_eq rfl
  | @claim _ _ _ calls _ _ _ _ _ _ => exact ⟨calls, rfl, fun _ _ => trivial⟩
  | call _ => exact .of_emit rfl trivial
  | retune _ _ _ _ _ => exact .of_log_eq rfl
  | mapped _ _ _ _ _ _ _ _ _ _ _ _ => exact .of_emit rfl trivial
  | attached _ _ _ _ => exact .of_emit rfl trivial
  | reprotected _ => exact .of_emit rfl trivial
  | unmapped _ hstart hmaps =>
      rw [unmapSegment_eq hstart hmaps]
      exact ⟨_, rfl, fun _ _ => trivial⟩
  | freed _ _ _ => exact ⟨_, freeSegSlot_log _ _, fun _ _ => trivial⟩

/-- What a call issues in all bounds what each of its primitive steps issues. -/
theorem star_preserves_issuing {Q : SysCall → Prop} {inv : Glctx → Prop}
    (hprim : ∀ g g', RepInv g → Prim g g' → Appends Q g g' → inv g → inv g') {g g' : Glctx}
    (hstar : ReflTransGen Prim g g') (hQ : Appends Q g g') (h : RepInv g) (hinv : inv g) :
    RepInv g' ∧ inv g' := by
  have hall : ∀ g', ReflTransGen Prim g g' → Appends (fun _ => True) g g' ∧
      (Appends Q g g' → RepInv g' ∧ inv g') := by
    intro g' hstar
    induction hstar with
    | refl => exact ⟨.of_log_eq rfl, fun _ => ⟨h, hinv⟩⟩
    | @tail g₁ g₂ _ hlast ih =>
        obtain ⟨calls₁, hlog₁, -⟩ := ih.1
        obtain ⟨calls₂, hlog₂, -⟩ := hlast.appends
        refine ⟨ih.1.trans hlast.appends, ?_⟩
        -- the calls of the last step are the end of all calls
        rintro ⟨calls, hlog, hcalls⟩
        have hsplit : calls = calls₁ ++ calls₂ := by
          rw [hlog₂, hlog₁, List.append_assoc] at hlog
          exact (List.append_cancel_left hlog).symm
        subst hsplit
        obtain ⟨hrep, hs⟩ := ih.2 ⟨calls₁, hlog₁, fun c hc => hcalls c (List.mem_append_left _ hc)⟩
        exact ⟨hlast.repInv hrep, hprim _ _ hrep hlast
          ⟨calls₂, hlog₂, fun c hc => hcalls c (List.mem_append_right _ hc)⟩ hs⟩
  exact (hall g' hstar).2 hQ

/-- What the empty table has and every primitive step without a mapping call keeps,
`segment_init` leaves: it registers, and maps nothing. -/
theorem segmentInit_inv_plain {inv : Glctx → Prop} (hempty : ∀ cfg, inv (emptyTable cfg))
    (hprim : ∀ g g', RepInv g → Prim g g' → Appends SysCall.Plain g g' → inv g → inv g')
    (k : Kernel) (cfg : Config) (maps : List MapsEntry) : inv (segmentInit k cfg maps) := by
  have hboth : RepInv (segmentInit k cfg maps) ∧ inv (segmentInit k cfg maps) := by
    apply getTaskSegments_keeps (P := fun g => RepInv g ∧ inv g)
    · rintro g m ⟨h, hg⟩
      exact star_preserves_issuing hprim (mapsEntry_star k h m)
        (segmentRegister_plain k g m.type m.path m.range (mapPrivate ||| segfMaps)) h hg
    · exact ⟨emptyTable_repInv cfg, hempty cfg⟩
  exact hboth.2

/-- The call releases something `segp` stands for. -/
def Releasing (g : Glctx) (segp : SegPtr) (c : SysCall) : Prop :=
  (∃ id, c = .shmRmid segp id ∧ shmIds.held g segp = some id) ∨
    (∃ fd, c = .close segp fd ∧ openFiles.held g segp = some fd) ∨
    (∃ start length, c = .munmap segp start length ∧
      regions.held g segp = some (.mapping start length)) ∨
    (∃ start, c = .shmdt segp start ∧ regions.held g segp = some (.attachment start))

theorem unmapCalls_releasing {g : Glctx} {segp : SegPtr} (hp : g.Live segp)
    (hstart : (g.heap segp).segStart ≠ mapFailed) (hmaps : (g.heap segp).isMaps = false)
    {c : SysCall} (hc : c ∈ unmapCalls segp (g.heap segp)) : Releasing g segp c := by
  have hheld : regions.held g segp = regions.owned (g.heap segp) := by simp [Resource.held, hp.1]
  cases htype : (g.heap segp).segType with
  | segtNone => exact absurd htype hp.2
  | segtAnon =>
      refine Or.inr (Or.inr (Or.inl ⟨(g.heap segp).segStart, (g.heap segp).segLength, ?_, ?_⟩))
      · simpa [unmapCalls, htype] using hc
      · rw [hheld]
        simp [regions, hstart, hmaps, htype]
  | segtFile =>
      refine Or.inr (Or.inr (Or.inl ⟨(g.heap segp).segStart, (g.heap segp).segLength, ?_, ?_⟩))
      · simpa [unmapCalls, htype] using hc
      · rw [hheld]
        simp [regions, hstart, hmaps, htype]
  | segtShm =>
      refine Or.inr (Or.inr (Or.inr ⟨(g.heap segp).segStart, ?_, ?_⟩))
      · simpa [unmapCalls, htype] using hc
      · rw [hheld]
        simp [regions, hstart, hmaps, htype]

theorem releaseCalls_releasing {g : Glctx} {segp : SegPtr} (hp : g.Live segp) {c : SysCall}
    (hc : c ∈ releaseCalls segp (g.heap segp)) : Releasing g segp c := by
  rw [releaseCalls, List.mem_append] at hc
  rcases hc with hc | hc
  · split at hc
    · next hf =>
      refine Or.inr (Or.inl ⟨(g.heap segp).segFd, by simpa using hc, ?_⟩)
      simp [Resource.held, hp.1, openFiles, hf]
    · simp at hc
  · split at hc
    · next hs =>
      refine Or.inl ⟨(g.heap segp).segShmid, by simpa using hc, ?_⟩
      simp [Resource.held, hp.1, shmIds, hs]
    · simp at hc

/-- `unmap_segment` releases the segment's region, if it has one. -/
theorem unmapSegment_log {g : Glctx} {segp : SegPtr} (hp : g.Live segp)
    (hmaps : (g.heap segp).isMaps = false) :
    ∃ calls, (unmapSegment g segp).log = g.log ++ calls ∧
      ∀ c ∈ calls, Releasing g segp c ∧ regions.event c ≠ none := by
  by_cases hstart : (g.heap segp).segStart = mapFailed
  · rw [unmapSegment_of_not_mapped (Or.inl hstart)]
    exact ⟨[], by simp, by simp⟩
  · rw [unmapSegment_eq hstart hmaps]
    refine ⟨unmapCalls segp (g.heap segp), rfl, fun c hc => ?_⟩
    have hreleasing := unmapCalls_releasing hp hstart hmaps hc
    refine ⟨hreleasing, ?_⟩
    -- of the four kinds of release only `munmap` and `shmdt` are calls of `unmap_segment`
    rcases hreleasing with ⟨id, rfl, -⟩ | ⟨fd, rfl, -⟩ |
        ⟨start, length, rfl, -⟩ | ⟨start, rfl, -⟩
    · cases htype : (g.heap segp).segType <;> simp [unmapCalls, htype] at hc
    · cases htype : (g.heap segp).segType <;> simp [unmapCalls, htype] at hc
    · simp [regions]
    · simp [regions]

/-- Whatever a call of the API releases, a live segment stands for it: the
segment named in a `segment_remove`, or the region of the one named in a
`segment_unmap`. -/
theorem Op.releasing (op : Op) {g : Glctx} (h : RepInv g) :
    ∃ calls, (op.exec g).log = g.log ++ calls ∧ ∀ c ∈ calls, c.Releases →
      ∃ segp name, g.Live segp ∧ (g.heap segp).segName = some name ∧ Releasing g segp c ∧
        (op = .remove name ∨ op = .unmap name ∧ regions.event c ≠ none) := by
  by_cases hop : op.releases
  · cases op with
    | remove name =>
        rcases hget : segmentGet g name with ⟨_ | p, g₁⟩
        · refine ⟨[], ?_, by simp⟩
          have hlog := segmentGet_log g name
          rw [hget] at hlog
          simpa [Op.exec, segmentRemove, hget] using hlog
        · obtain ⟨hp, hn, avail, rfl⟩ := segmentGet_some h hget
          by_cases hmaps : (g.heap p).isMaps = true
          · refine ⟨[], ?_, by simp⟩
            simp [Op.exec, segmentRemove, hget, hmaps]
          · have hm : (g.heap p).isMaps = false := by simpa using hmaps
            obtain ⟨calls, hlog, hcalls⟩ :=
              unmapSegment_log (g := { g with segAvail := avail }) hp hm
            have hheap := unmapSegment_heap (g := { g with segAvail := avail }) hm
            refine ⟨calls ++ releaseCalls p (g.heap p), ?_, ?_⟩
            · simp only [Op.exec, segmentRemove, hget, hm]
              show (freeSegSlot (unmapSegment { g with segAvail := avail } p) p).log = _
              rw [freeSegSlot_log, hlog, hheap, List.append_assoc]
              rfl
            · intro c hc _
              refine ⟨p, name, hp, hn, ?_, Or.inl rfl⟩
              rcases List.mem_append.mp hc with hc | hc
              · exact (hcalls c hc).1
              · exact releaseCalls_releasing hp hc
    | unmap name =>
        rcases hget : segmentGet g name with ⟨_ | p, g₁⟩
        · refine ⟨[], ?_, by simp⟩
          have hlog := segmentGet_log g name
          rw [hget] at hlog
          simpa [Op.exec, segmentUnmap, hget] using hlog
        · obtain ⟨hp, hn, avail, rfl⟩ := segmentGet_some h hget
          by_cases hmaps : (g.heap p).isMaps = true
          · refine ⟨[], ?_, by simp⟩
            simp [Op.exec, segmentUnmap, hget, hmaps]
          · have hm : (g.heap p).isMaps = false := by simpa using hmaps
            obtain ⟨calls, hlog, hcalls⟩ :=
              unmapSegment_log (g := { g with segAvail := avail }) hp hm
            refine ⟨calls, ?_, ?_⟩
            · simp only [Op.exec, segmentUnmap, hget, hm]
              exact hlog
            · intro c hc _
              exact ⟨p, name, hp, hn, (hcalls c hc).1, Or.inr ⟨rfl, (hcalls c hc).2⟩⟩
    | get _ | register _ _ _ _ _ | map _ _ _ _ | mprotect _ _ _ | touch _ _ _ _ _
    | mbind _ _ _ _ _ _ | location _ _ _ _ _ | lockUnlock _ _ _ _ _ => exact absurd hop not_false
  · obtain ⟨calls, hlog, hno⟩ := op.keeps h hop
    exact ⟨calls, hlog, fun c hc hrel => absurd hrel (hno c hc)⟩

/-! ## The law -/

/-- The resources of one process, seen from a state `g` a run has reached: the
whole log up to now, the next call, and an exit from here. -/
structure ResourceLaw (g : Glctx) : Prop where
  /-- After the cleanup every shm id has been removed, once. -/
  shm : Paired (shmIds.events (segmentCleanup g).log) (fun _ => none)
  /-- Every opened file has been closed once, or a live segment has it open. -/
  files : Paired (openFiles.events (segmentCleanup g).log) (openFiles.held g)
  /-- Every region has been unmapped once with the start and the length it was
  mapped with, or a live segment has it mapped. -/
  memory : Paired (regions.events (segmentCleanup g).log) (regions.held g)
  /-- Only live segments stand for anything. -/
  live : ∀ segp, shmIds.held g segp ≠ none ∨ openFiles.held g segp ≠ none ∨
    regions.held g segp ≠ none → g.Live segp
  /-- A call releases only what the live segment it names stands for; only
  `segment_remove` closes files and removes shm ids. -/
  calls : ∀ op : Op, ∃ calls, (op.exec g).log = g.log ++ calls ∧ ∀ c ∈ calls, c.Releases →
    ∃ segp name, g.Live segp ∧ (g.heap segp).segName = some name ∧ Releasing g segp c ∧
      (op = .remove name ∨ op = .unmap name ∧ regions.event c ≠ none)
  /-- The cleanup removes the shm ids of live segments and does nothing else. -/
  cleanup : ∃ calls, (segmentCleanup g).log = g.log ++ calls ∧
    ∀ c ∈ calls, ∃ segp id, c = .shmRmid segp id ∧ shmIds.held g segp = some id
  /-- `segment_remove` leaves nothing of the segment behind. -/
  remove : ∀ segp name, g.Live segp → (g.heap segp).segName = some name →
    (g.heap segp).isMaps = false →
    shmIds.held (segmentRemove g name).2 segp = none ∧
      openFiles.held (segmentRemove g name).2 segp = none ∧
      regions.held (segmentRemove g name).2 segp = none

theorem Books.resourceLaw {g : Glctx} (h : RepInv g) (hb : Books .nothing g) : ResourceLaw g := by
  obtain ⟨hshm, calls, hlog, hcalls⟩ := segmentCleanup_spec h hb.shm
  -- the removals of the cleanup are no events of the other two kinds
  have hother : ∀ {υ : Type} (r : Resource υ), (∀ p id, r.event (.shmRmid p id) = none) →
      r.events (segmentCleanup g).log = r.events g.log := by
    intro υ r hr
    rw [hlog, Resource.events_append]
    have hnone : r.events calls = [] := by
      rw [Resource.events, List.filterMap_eq_nil_iff]
      intro c hc
      obtain ⟨p, id, rfl, -⟩ := hcalls c hc
      exact hr p id
    rw [hnone, List.append_nil]
  refine ⟨paired_of_replay hshm, ?_, ?_, ?_, fun op => op.releasing h, ⟨calls, hlog, hcalls⟩, ?_⟩
  · rw [hother openFiles (fun _ _ => rfl)]
    exact paired_of_replay hb.files
  · rw [hother regions (fun _ _ => rfl)]
    exact paired_of_replay hb.memory
  · intro segp hheld
    by_cases hmem : segp ∈ g.entries
    · refine ⟨hmem, fun htype => ?_⟩
      obtain ⟨h1, h2, h3⟩ := owned_unused htype
      simp [Resource.held, hmem, h1, h2, h3] at hheld
    · simp [Resource.held, hmem] at hheld
  · intro segp name hlive hname hmaps
    obtain ⟨-, -, hheap⟩ := segmentRemove_clears h hlive hname hmaps
    have htype : ((segmentRemove g name).2.heap segp).segType = .segtNone := by
      rw [hheap, Function.update_self]
      rfl
    obtain ⟨h1, h2, h3⟩ := owned_unused htype
    simp [Resource.held, h1, h2, h3]

/-- In every state a run of segment operations reaches, and at an exit from
there, the resources are accounted for. -/
theorem segment_resources_accounted {g : Glctx} (h : (segSpec anyOp).Reachable g) :
    ResourceLaw g :=
  (reachable_books h).resourceLaw (reachable_repInv h)

/-- On the concrete machine: a shared memory segment is registered and the
process exits. -/
theorem segment_resources_accounted_shmem :
    let g := Op.exec (.register sampleKernel .segtShm ['s'] ⟨0, 0x1000#64, 0⟩ mapShared) sampleTable
    ResourceLaw g ∧ shmIds.held g 1 = some 7 :=
  ⟨segment_resources_accounted ((sampleTable_reachable anyOp).step
    ⟨.register sampleKernel .segtShm ['s'] ⟨0, 0x1000#64, 0⟩ mapShared,
      ⟨by decide, by decide⟩, trivial, rfl⟩), by decide⟩

end Memtoy
