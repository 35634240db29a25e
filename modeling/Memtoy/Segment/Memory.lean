import Memtoy.Lib.AddressSpace
import Memtoy.Segment.Ownership

/-!
# Segment.Memory — whose the addresses are

The system calls of a run, taken together, say which segment has which addresses (`Memory`):
the kernel puts memory where nothing is, except for `MAP_FIXED`, which puts it over whatever
is there. The table says the same, segment by segment (`Glctx.area`). Every primitive step
changes the two alike (`Prim.mirrors`), and so does every sequence of them (`star_follow`).
-/

namespace Memtoy

open CString Relation AddressSpace MachineWord

/-! ## The memory of a process -/

/-- The `length` bytes from `start` on. -/
def bytesFrom (start length : Word) : Set Word := { a | a - start < length }

instance (start length : Word) : DecidablePred (· ∈ bytesFrom start length) :=
  fun a => inferInstanceAs (Decidable (a - start < length))

/-- What the kernel knows: whose the addresses are, and the sizes of the shared memory. -/
structure Memory where
  owner : Space Word SegPtr
  size : Int → Option Word

/-- What a system call does to the memory. `shmdt` takes away what is left of an attachment. -/
def Memory.call (m : Memory) : SysCall → Memory
  | .mmap segp _ length _ _ _ _ memp =>
      if memp = mapFailed then m
      else { m with owner := put m.owner (bytesFrom memp length) (some segp) }
  | .munmap _ start length => { m with owner := put m.owner (bytesFrom start length) none }
  | .shmget _ size _ shmid =>
      if shmid = shmIdNone then m
      else { m with size := Function.update m.size shmid (some size) }
  | .shmRmid _ shmid => { m with size := Function.update m.size shmid none }
  | .shmat segp shmid start =>
      if start = mapFailed then m
      else { m with owner := put m.owner (bytesFrom start ((m.size shmid).getD 0)) (some segp) }
  | .shmdt segp _ => { m with owner := drop m.owner segp }
  | _ => m

/-- What the kernel can answer: memory is put where no segment has any, or where
`MAP_FIXED` says; an id is given to one piece of shared memory at a time. -/
def Memory.Allows (m : Memory) : SysCall → Prop
  | .mmap _ addr length _ flags _ _ memp => memp ≠ mapFailed →
      if flags &&& mapFixed ≠ 0 then memp = addr
      else ∀ a ∈ bytesFrom memp length, m.owner a = none
  | .shmget _ _ _ shmid => shmid ≠ shmIdNone → m.size shmid = none
  | .shmat _ shmid start => start ≠ mapFailed →
      ∀ a ∈ bytesFrom start ((m.size shmid).getD 0), m.owner a = none
  | _ => True

/-- No other segment has the memory that is mapped. -/
def Memory.Spares (m : Memory) : SysCall → Prop
  | .mmap segp _ length _ _ _ _ memp => memp ≠ mapFailed →
      ∀ a ∈ bytesFrom memp length, ∀ q, m.owner a = some q → q = segp
  | _ => True

/-- One call after the other. -/
def Memory.calls (m : Memory) : List SysCall → Memory
  | [] => m
  | c :: cs => (m.call c).calls cs

/-- Each call has the property in the memory it meets. -/
def Memory.All (P : Memory → SysCall → Prop) (m : Memory) : List SysCall → Prop
  | [] => True
  | c :: cs => P m c ∧ Memory.All P (m.call c) cs

section Calls

variable {P : Memory → SysCall → Prop}

theorem Memory.calls_append (cs cs' : List SysCall) :
    ∀ m : Memory, m.calls (cs ++ cs') = (m.calls cs).calls cs' := by
  induction cs with
  | nil => exact fun _ => rfl
  | cons c cs ih => exact fun m => ih (m.call c)

theorem Memory.all_append {cs cs' : List SysCall} :
    ∀ {m : Memory}, m.All P (cs ++ cs') ↔ m.All P cs ∧ (m.calls cs).All P cs' := by
  induction cs with
  | nil => exact fun {_} => (and_iff_right trivial).symm
  | cons c cs ih =>
      intro m
      rw [List.cons_append, Memory.All, Memory.All, ih, and_assoc]
      rfl

theorem Memory.all_of_forall {cs : List SysCall} (h : ∀ c ∈ cs, ∀ m, P m c) :
    ∀ m : Memory, m.All P cs := by
  induction cs with
  | nil => exact fun _ => trivial
  | cons c cs ih =>
      rw [List.forall_mem_cons] at h
      exact fun m => ⟨h.1 m, ih h.2 (m.call c)⟩

/-- A call that gives something back maps nothing. -/
theorem SysCall.Releases.spares {c : SysCall} (h : c.Releases) (m : Memory) : m.Spares c := by
  cases c <;> first | exact trivial | exact h.elim

theorem SysCall.Neutral.spares {c : SysCall} (h : c.Neutral) (m : Memory) : m.Spares c := by
  cases c <;> first | exact trivial | exact fun hne => absurd h hne

/-- A failed request, and a call that works on memory, changes none. -/
theorem Memory.call_neutral (m : Memory) {c : SysCall} (hc : c.Neutral) : m.call c = m := by
  cases c with
  | shmget segp size shmflg shmid => exact if_pos hc
  | shmat segp shmid start => exact if_pos hc
  | mmap segp addr length prot flags fd offset memp => exact if_pos hc
  | close | shmRmid | shmdt | munmap => exact hc.elim
  | openFile | mprotect | shmLock | touchMemory | mbind | getNode | mlock => rfl

end Calls

/-! ## What the table says -/

/-- The memory a record stands for. -/
def Segment.area (s : Segment) : Set Word :=
  { a | s.segType ≠ .segtNone ∧ s.isMaps = false ∧ s.segStart ≠ mapFailed ∧
    a ∈ bytesFrom s.segStart s.segLength }

/-- The memory a segment has mapped, by the table. -/
def Glctx.area (g : Glctx) (segp : SegPtr) : Set Word :=
  { a | segp ∈ g.entries ∧ a ∈ (g.heap segp).area }

section Area

variable {g g' : Glctx} {segp : SegPtr} {s : Segment}

theorem Segment.area_of_unmapped (h : s.segStart = mapFailed) : s.area = ∅ :=
  Set.eq_empty_of_forall_notMem fun _ ha => ha.2.2.1 h

theorem Segment.area_of_unused (h : s.segType = .segtNone) : s.area = ∅ :=
  Set.eq_empty_of_forall_notMem fun _ ha => ha.1 h

theorem Segment.area_of_maps (h : s.isMaps = true) : s.area = ∅ := by
  refine Set.eq_empty_of_forall_notMem fun _ ha => ?_
  rw [ha.2.1] at h
  cases h

theorem Segment.area_of_mapped (htype : s.segType ≠ .segtNone) (hmaps : s.isMaps = false)
    (hstart : s.segStart ≠ mapFailed) : s.area = bytesFrom s.segStart s.segLength :=
  Set.ext fun _ => ⟨fun ha => ha.2.2.2, fun ha => ⟨htype, hmaps, hstart, ha⟩⟩

theorem area_of_mem (hmem : segp ∈ g.entries) : g.area segp = (g.heap segp).area :=
  Set.ext fun _ => and_iff_right hmem

/-- One record is rewritten. -/
theorem area_write (hmem : segp ∈ g.entries) (hent : g'.entries = g.entries)
    (hheap : g'.heap = Function.update g.heap segp s) :
    g'.area = Function.update g.area segp s.area := by
  funext q
  by_cases hq : q = segp
  · rw [hq, Function.update_self, area_of_mem (by rw [hent]; exact hmem), hheap,
      Function.update_self]
  · rw [Function.update_of_ne hq]
    simp only [Glctx.area, hent, hheap, Function.update_of_ne hq]

/-- A record is rewritten that stands for the same memory. -/
theorem area_write_same (hmem : segp ∈ g.entries) (hent : g'.entries = g.entries)
    (hheap : g'.heap = Function.update g.heap segp s) (harea : s.area = (g.heap segp).area) :
    g'.area = g.area := by
  rw [area_write hmem hent hheap, harea, ← area_of_mem hmem, Function.update_eq_self]

theorem area_newSlot (h : RepInv g) : (newSlot g g.entries.length).2.area = g.area := by
  funext q
  ext a
  simp only [Glctx.area, h.entries_newSlot, List.mem_append, List.mem_singleton, Set.mem_ofPred_eq]
  constructor
  · rintro ⟨hmem | rfl, ha⟩
    · rw [h.newSlot_heap_of_mem _ hmem] at ha
      exact ⟨hmem, ha⟩
    · rw [Segment.area_of_unused (by simp [newSlot, Segment.zero])] at ha
      exact ha.elim
  · rintro ⟨hmem, ha⟩
    rw [h.newSlot_heap_of_mem _ hmem]
    exact ⟨.inl hmem, ha⟩

end Area

/-! ## Steps -/

/-- The kernel has the sizes of the shared memory right, and each segment has its own. -/
structure SizesOk (g : Glctx) (m : Memory) : Prop where
  size_eq : ∀ segp, g.Live segp → (g.heap segp).segType = .segtShm →
    m.size (g.heap segp).segShmid = some (g.heap segp).segLength
  apart : ∀ p q, g.Live p → g.Live q → (g.heap p).segType = .segtShm →
    (g.heap q).segType = .segtShm → (g.heap p).segShmid = (g.heap q).segShmid → p = q

theorem ne_segtShm {type : SegType} (h : type = .segtAnon ∨ type = .segtFile) :
    type ≠ .segtShm := by
  rcases h with rfl | rfl <;> decide

section Steps

variable {g g' : Glctx} {m m' : Memory} {segp : SegPtr} {s : Segment}

/-- The shared memory of the table is where it was. -/
theorem SizesOk.congr (h : SizesOk g m) (hsize : m'.size = m.size)
    (hshm : ∀ segp, g'.Live segp → (g'.heap segp).segType = .segtShm →
      g.Live segp ∧ (g.heap segp).segType = .segtShm ∧
        (g'.heap segp).segShmid = (g.heap segp).segShmid ∧
        (g'.heap segp).segLength = (g.heap segp).segLength) : SizesOk g' m' := by
  constructor
  · intro segp hlive htype
    rcases hshm segp hlive htype with ⟨hlive₀, htype₀, hid, hlen⟩
    rw [hsize, hid, hlen]
    exact h.size_eq segp hlive₀ htype₀
  · intro p q hp hq hptype hqtype hids
    rcases hshm p hp hptype with ⟨hp₀, hptype₀, hpid, -⟩
    rcases hshm q hq hqtype with ⟨hq₀, hqtype₀, hqid, -⟩
    exact h.apart p q hp₀ hq₀ hptype₀ hqtype₀ (by rw [← hpid, ← hqid, hids])

/-- A record is rewritten, and its shared memory, if it has any, is the same. -/
theorem SizesOk.write (h : SizesOk g m) (hsize : m'.size = m.size) (hent : g'.entries = g.entries)
    (hheap : g'.heap = Function.update g.heap segp s)
    (hs : s.segType = .segtShm → (g.heap segp).segType = .segtShm ∧
      s.segShmid = (g.heap segp).segShmid ∧ s.segLength = (g.heap segp).segLength) :
    SizesOk g' m' := by
  refine h.congr hsize fun q hq htype => ?_
  by_cases hne : q = segp
  · rw [hne, hheap, Function.update_self] at htype ⊢
    rcases hs htype with ⟨htype₀, hid, hlen⟩
    have hmem : segp ∈ g.entries := by
      rw [← hent, ← hne]
      exact hq.1
    exact ⟨⟨hmem, by rw [htype₀]; decide⟩, htype₀, hid, hlen⟩
  · have hsame : g'.heap q = g.heap q := by rw [hheap, Function.update_of_ne hne]
    rw [hsame] at htype ⊢
    exact ⟨⟨by rw [← hent]; exact hq.1, by rw [htype]; decide⟩, htype, rfl, rfl⟩

/-- A new piece of shared memory. -/
theorem SizesOk.shmget (h : SizesOk g m) {shmflg : Flags} (hent : g'.entries = g.entries)
    (hheap : g'.heap = Function.update g.heap segp s) (hid : s.segShmid ≠ shmIdNone)
    (hallows : m.Allows (.shmget segp s.segLength shmflg s.segShmid)) :
    SizesOk g' (m.call (.shmget segp s.segLength shmflg s.segShmid)) := by
  have hnew : m.size s.segShmid = none := hallows hid
  have hsize : (m.call (.shmget segp s.segLength shmflg s.segShmid)).size =
      Function.update m.size s.segShmid (some s.segLength) := by
    simp only [Memory.call, hid, if_false]
  -- a segment that was there before has another id
  have hother : ∀ q, q ≠ segp → g'.Live q → (g'.heap q).segType = .segtShm →
      g.Live q ∧ g'.heap q = g.heap q ∧ (g.heap q).segShmid ≠ s.segShmid := by
    intro q hne hq htype
    have hsame : g'.heap q = g.heap q := by rw [hheap, Function.update_of_ne hne]
    have hlive : g.Live q := ⟨by rw [← hent]; exact hq.1, by rw [← hsame]; exact hq.2⟩
    refine ⟨hlive, hsame, fun heq => ?_⟩
    have hsome := h.size_eq q hlive (hsame ▸ htype)
    rw [heq, hnew] at hsome
    cases hsome
  have hself : g'.heap segp = s := by rw [hheap, Function.update_self]
  constructor
  · intro q hq htype
    rw [hsize]
    by_cases hne : q = segp
    · rw [hne, hself, Function.update_self]
    · rcases hother q hne hq htype with ⟨hlive, hsame, hids⟩
      rw [hsame, Function.update_of_ne hids]
      exact h.size_eq q hlive (hsame ▸ htype)
  · intro p q hp hq hptype hqtype hids
    by_cases hpne : p = segp
    · by_cases hqne : q = segp
      · rw [hpne, hqne]
      · rcases hother q hqne hq hqtype with ⟨-, hsame, hne⟩
        rw [hpne, hself, hsame] at hids
        exact absurd hids.symm hne
    · rcases hother p hpne hp hptype with ⟨hplive, hpsame, hpids⟩
      by_cases hqne : q = segp
      · rw [hqne, hself, hpsame] at hids
        exact absurd hids hpids
      · rcases hother q hqne hq hqtype with ⟨hqlive, hqsame, -⟩
        rw [hpsame, hqsame] at hids
        exact h.apart p q hplive hqlive (hpsame ▸ hptype) (hqsame ▸ hqtype) hids

/-- Giving back a slot removes the shared memory of its segment, if there is any. -/
theorem calls_release (m : Memory) (segp : SegPtr) (s : Segment) :
    (m.calls (releaseCalls segp s)).owner = m.owner ∧
      ∀ id, ¬ (s.segType = .segtShm ∧ id = s.segShmid) →
        (m.calls (releaseCalls segp s)).size id = m.size id := by
  have hclose : m.calls (if s.segType = .segtFile ∧ s.segFd ≠ segFdNone then
      [.close segp s.segFd] else []) = m := by
    split <;> rfl
  rw [releaseCalls, Memory.calls_append, hclose]
  split
  · next hshm =>
    refine ⟨rfl, fun id hid => ?_⟩
    exact Function.update_of_ne (fun heq => hid ⟨hshm.1, heq⟩) none m.size
  · exact ⟨rfl, fun _ _ => rfl⟩

/-- A segment is freed, and its shared memory with it. -/
theorem SizesOk.freed (h : SizesOk g m) (hlive : g.Live segp) :
    SizesOk (freeSegSlot g segp) (m.calls (releaseCalls segp (g.heap segp))) := by
  have hother : ∀ q, (freeSegSlot g segp).Live q → q ≠ segp ∧ g.Live q ∧
      (freeSegSlot g segp).heap q = g.heap q := by
    intro q hq
    rw [freeSegSlot_eq] at hq ⊢
    have hne : q ≠ segp := by
      rintro rfl
      exact hq.2 (by simp [Segment.zero])
    have hsame : Function.update g.heap segp
        { Segment.zero with segSlot := (g.heap segp).segSlot } q = g.heap q :=
      Function.update_of_ne hne ..
    exact ⟨hne, ⟨hq.1, by rw [← hsame]; exact hq.2⟩, hsame⟩
  constructor
  · intro q hq htype
    rcases hother q hq with ⟨hne, hqlive, hsame⟩
    rw [hsame] at htype ⊢
    rw [(calls_release m segp (g.heap segp)).2 _ fun hc =>
      hne (h.apart q segp hqlive hlive htype hc.1 hc.2)]
    exact h.size_eq q hqlive htype
  · intro p q hp hq hptype hqtype hids
    rcases hother p hp with ⟨-, hplive, hpsame⟩
    rcases hother q hq with ⟨-, hqlive, hqsame⟩
    rw [hpsame] at hptype hids
    rw [hqsame] at hqtype hids
    exact h.apart p q hplive hqlive hptype hqtype hids

/-- What the calls do to the memory is what the step does to the table, and the calls spare
the memory of others exactly if the step takes nothing from them. -/
structure Mirrors (g g' : Glctx) (cs : List SysCall) : Prop where
  silent : cs = [] → g'.area = g.area
  sizes : ∀ m : Memory, SizesOk g m → m.All Memory.Allows cs → SizesOk g' (m.calls cs)
  change : ∀ m : Memory, SizesOk g m → m.All Memory.Allows cs → ∃ P,
    Change m.owner g.area P (m.calls cs).owner g'.area ∧
      (Tiles m.owner g.area → (m.All Memory.Spares cs ↔ P))

theorem Mirrors.still {cs : List SysCall} (harea : g'.area = g.area)
    (hspares : ∀ c ∈ cs, ∀ m : Memory, m.Spares c)
    (hcs : ∀ m : Memory, SizesOk g m → m.All Memory.Allows cs →
      SizesOk g' (m.calls cs) ∧ (m.calls cs).owner = m.owner) : Mirrors g g' cs where
  silent _ := harea
  sizes m hsizes hallows := (hcs m hsizes hallows).1
  change m hsizes hallows := by
    rw [(hcs m hsizes hallows).2, harea]
    exact ⟨True, .still, fun _ => iff_true_intro (Memory.all_of_forall hspares m)⟩

/-- Memory is put where `bytes` are. -/
theorem Mirrors.place {c : SysCall} {bytes : Memory → Set Word}
    [∀ m, DecidablePred (· ∈ bytes m)] (hmem : segp ∈ g.entries)
    (hnone : (g.heap segp).area = ∅) (hent : g'.entries = g.entries)
    (hheap : g'.heap = Function.update g.heap segp s)
    (hcs : ∀ m : Memory, SizesOk g m → m.Allows c → SizesOk g' (m.call c) ∧
      (m.call c).owner = put m.owner (bytes m) (some segp) ∧ s.area = bytes m ∧
        (m.Spares c ↔ ∀ a ∈ bytes m, ∀ q, m.owner a = some q → q = segp)) :
    Mirrors g g' [c] where
  silent hnil := absurd hnil (List.cons_ne_nil c [])
  sizes m hsizes hallows := (hcs m hsizes hallows.1).1
  change := by
    rintro m hsizes ⟨hallows, -⟩
    rcases hcs m hsizes hallows with ⟨-, howner, harea, hspares⟩
    refine ⟨∀ q, q ≠ segp → ∀ a ∈ bytes m, a ∉ g.area q, ?_, fun htiles => ?_⟩
    · show Change m.owner g.area _ (m.call c).owner g'.area
      rw [howner, area_write hmem hent hheap, harea]
      exact .place (by rw [area_of_mem hmem, hnone])
    · show (m.Spares c ∧ True) ↔ _
      rw [and_true, hspares]
      constructor
      · intro hown q hne a ha hq
        exact hne (hown a ha q ((htiles a q).mpr hq))
      · intro hfree a ha q hq
        by_contra hne
        exact hfree q hne a ha ((htiles a q).mp hq)

/-- The memory of a segment is taken out, and the record no longer stands for it. -/
theorem mirrors_unmap (hp : g.Live segp) (hstart : (g.heap segp).segStart ≠ mapFailed)
    (hmaps : (g.heap segp).isMaps = false) (hent : g'.entries = g.entries)
    (hheap : g'.heap = Function.update g.heap segp { g.heap segp with segStart := mapFailed }) :
    Mirrors g g' (unmapCalls segp (g.heap segp)) := by
  have harea : g'.area = Function.update g.area segp ∅ := by
    rw [area_write hp.1 hent hheap, Segment.area_of_unmapped rfl]
  have hmapped : g.area segp = bytesFrom (g.heap segp).segStart (g.heap segp).segLength := by
    rw [area_of_mem hp.1, Segment.area_of_mapped hp.2 hmaps hstart]
  have hsizes : ∀ {m m' : Memory}, SizesOk g m → m'.size = m.size → SizesOk g' m' :=
    fun h hsize => h.write hsize hent hheap fun hs => ⟨hs, rfl, rfl⟩
  cases htype : (g.heap segp).segType with
  | segtNone => exact absurd htype hp.2
  | segtAnon | segtFile =>
      rw [unmapCalls, htype]
      refine ⟨fun hnil => absurd hnil (List.cons_ne_nil _ _), fun _ h _ => hsizes h rfl, ?_⟩
      intro m _ _
      rw [harea]
      exact ⟨True, .clear hmapped, fun _ => iff_true_intro ⟨trivial, trivial⟩⟩
  | segtShm =>
      rw [unmapCalls, htype]
      refine ⟨fun hnil => absurd hnil (List.cons_ne_nil _ _), fun _ h _ => hsizes h rfl, ?_⟩
      intro m _ _
      rw [harea]
      exact ⟨True, .drop, fun _ => iff_true_intro ⟨trivial, trivial⟩⟩

/-- Giving back a slot maps nothing. -/
theorem spares_release (segp : SegPtr) (s : Segment) :
    ∀ c ∈ releaseCalls segp s, ∀ m : Memory, m.Spares c := by
  intro c hc m
  unfold releaseCalls at hc
  rcases List.mem_append.mp hc with hc | hc <;> split at hc
  · rw [List.mem_singleton.mp hc]
    exact trivial
  · cases hc
  · rw [List.mem_singleton.mp hc]
    exact trivial
  · cases hc

/-- What a primitive step does to the memory is what it does to the table. -/
theorem Prim.mirrors (hstep : Prim g g') (hrep : RepInv g) (hpages : PageInv g) :
    ∃ cs, g'.log = g.log ++ cs ∧ Mirrors g g' cs := by
  cases hstep with
  | cache =>
      exact ⟨[], (List.append_nil _).symm, .still rfl (List.forall_mem_nil _) fun m hsizes _ =>
        ⟨hsizes.congr rfl fun q hq htype => ⟨hq, htype, rfl, rfl⟩, rfl⟩⟩
  | alloc hlt =>
      refine ⟨[], (List.append_nil _).symm, .still (area_newSlot hrep) (List.forall_mem_nil _)
        fun m hsizes _ => ⟨hsizes.congr rfl fun q hq htype => ?_, rfl⟩⟩
      have hlive := (hrep.live_newSlot q).mp hq
      rw [hrep.newSlot_heap_of_mem _ hlive.1] at htype ⊢
      exact ⟨hlive, htype, rfl, rfl⟩
  | @claim segp s name cs hun _ _ _ _ hnew =>
      have hunused : (g.heap segp).area = ∅ := Segment.area_of_unused hun.2
      refine ⟨cs, rfl, ?_⟩
      have harea : s.area = (g.heap segp).area := by
        rw [hunused]
        cases hnew with
        | maps hmaps => exact Segment.area_of_maps hmaps
        | anon _ _ hstart | file _ _ _ _ hstart | shm _ _ _ hstart =>
            exact Segment.area_of_unmapped hstart
      have hspares : ∀ c ∈ cs, ∀ m : Memory, m.Spares c := by
        cases hnew with
        | maps | anon => exact List.forall_mem_nil _
        | file | shm => exact List.forall_mem_singleton.mpr fun _ => trivial
      refine .still (area_write_same hun.1 rfl rfl harea) hspares fun m hsizes hallows => ?_
      cases hnew with
      | maps _ htype =>
          exact ⟨hsizes.write rfl rfl rfl fun hs => absurd hs (ne_segtShm htype), rfl⟩
      | anon _ htype =>
          exact ⟨hsizes.write rfl rfl rfl fun hs => absurd hs (ne_segtShm (.inl htype)), rfl⟩
      | file _ _ _ htype =>
          exact ⟨hsizes.write rfl rfl rfl fun hs => absurd hs (ne_segtShm (.inr htype)), rfl⟩
      | shm shmflg _ _ _ _ hid =>
          refine ⟨hsizes.shmget rfl rfl hid hallows.1, ?_⟩
          simp only [Memory.calls, Memory.call, hid, if_false]
  | @call c hc =>
      refine ⟨[c], rfl, .still rfl (List.forall_mem_singleton.mpr hc.spares) fun m hsizes _ => ?_⟩
      have hcall : m.calls [c] = m := m.call_neutral hc
      rw [hcall]
      exact ⟨hsizes.congr rfl fun q hq htype => ⟨hq, htype, rfl, rfl⟩, rfl⟩
  | @retune segp s hp htype hstart hre _ =>
      have hne : s.segType ≠ .segtShm := by
        rw [hre.type]
        exact ne_segtShm htype
      refine ⟨[], (List.append_nil _).symm, .still (area_write_same hp.1 rfl rfl ?_)
        (List.forall_mem_nil _) fun m hsizes _ =>
          ⟨hsizes.write rfl rfl rfl fun hs => absurd hs hne, rfl⟩⟩
      rw [Segment.area_of_unmapped hstart, Segment.area_of_unmapped (hre.start.trans hstart)]
  | @mapped segp addr upper lower flags fd offset memp hp htype hstart hne _ _ =>
      have hmaps := (hpages.records segp hp).not_maps_of_unmapped hstart
      refine ⟨[_], rfl, @Mirrors.place _ _ _ _ _
        (fun _ => bytesFrom memp (g.heap segp).segLength) _ hp.1
        (Segment.area_of_unmapped hstart) rfl rfl fun m hsizes _ => ⟨?_, ?_, ?_, ?_⟩⟩
      · refine hsizes.write ?_ rfl rfl fun hs => absurd hs (ne_segtShm htype)
        simp only [Memory.call, hne, if_false]
      · simp only [Memory.call, hne, if_false]
      · exact Segment.area_of_mapped hp.2 hmaps hne
      · exact ⟨fun hspares => hspares hne, fun hown _ => hown⟩
  | @attached segp start hp htype hstart hne =>
      have hmaps := (hpages.records segp hp).not_maps_of_unmapped hstart
      refine ⟨[_], rfl, @Mirrors.place _ _ _ _ _
        (fun m => bytesFrom start ((m.size (g.heap segp).segShmid).getD 0)) _ hp.1
        (Segment.area_of_unmapped hstart) rfl rfl fun m hsizes hallows => ?_⟩
      have hsize := hsizes.size_eq segp hp htype
      refine ⟨hsizes.write ?_ rfl rfl fun _ => ⟨htype, rfl, rfl⟩, ?_, ?_,
        iff_of_true trivial fun a ha q hq => ?_⟩
      · simp only [Memory.call, hne, if_false]
      · simp only [Memory.call, hne, if_false]
      · rw [hsize]
        exact Segment.area_of_mapped hp.2 hmaps hne
      · rw [hallows hne a ha] at hq
        cases hq
  | @reprotected segp prot hp =>
      refine ⟨[_], rfl, .still (area_write_same hp.1 rfl rfl rfl)
        (List.forall_mem_singleton.mpr fun _ => trivial) fun m hsizes _ =>
          ⟨hsizes.write rfl rfl rfl fun hs => ⟨hs, rfl, rfl⟩, rfl⟩⟩
  | @unmapped segp hp hstart hmaps =>
      refine ⟨unmapCalls segp (g.heap segp), by rw [unmapSegment_eq hstart hmaps], ?_⟩
      rw [unmapSegment_eq hstart hmaps]
      exact mirrors_unmap hp hstart hmaps rfl rfl
  | @freed segp hp hstart hmaps =>
      refine ⟨releaseCalls segp (g.heap segp), freeSegSlot_log g segp, .still ?_
        (spares_release segp (g.heap segp)) fun m hsizes _ =>
          ⟨hsizes.freed hp, (calls_release m segp (g.heap segp)).1⟩⟩
      rw [freeSegSlot_eq]
      refine area_write_same hp.1 rfl rfl ?_
      rw [Segment.area_of_unmapped hstart, Segment.area_of_unused rfl]

/-- From `g` to `g'` the table and the memory change alike. -/
structure Follow (g g' : Glctx) (cs : List SysCall) (m : Memory) : Prop where
  sizes : SizesOk g' (m.calls cs)
  atMost : AtMost m.owner g.area → AtMost (m.calls cs).owner g'.area
  tiles : m.All Memory.Spares cs → Tiles m.owner g.area → Tiles (m.calls cs).owner g'.area
  /-- What a single call takes from another segment is missed afterwards. -/
  exact : cs.length ≤ 1 → Tiles m.owner g.area → Tiles (m.calls cs).owner g'.area →
    m.All Memory.Spares cs

/-- What each primitive step does alike, a sequence of them does. -/
theorem star_follow (hstar : ReflTransGen Prim g g') (hrep : RepInv g) (hpages : PageInv g) :
    ∃ cs, g'.log = g.log ++ cs ∧ RepInv g' ∧ PageInv g' ∧ (cs = [] → g'.area = g.area) ∧
      ∀ m : Memory, SizesOk g m → m.All Memory.Allows cs → Follow g g' cs m := by
  induction hstar with
  | refl =>
      exact ⟨[], (List.append_nil _).symm, hrep, hpages, fun _ => rfl,
        fun m hsizes _ => ⟨hsizes, id, fun _ => id, fun _ _ _ => trivial⟩⟩
  | @tail g₁ g₂ _ hlast ih =>
      rcases ih with ⟨cs₁, hlog₁, hrep₁, hpages₁, hsilent₁, hfollow⟩
      rcases hlast.mirrors hrep₁ hpages₁ with ⟨cs₂, hlog₂, hmirrors⟩
      refine ⟨cs₁ ++ cs₂, by rw [hlog₂, hlog₁, List.append_assoc], hlast.repInv hrep₁,
        hlast.pageInv hrep₁ hpages₁, fun hnil => ?_, fun m hsizes hallows => ?_⟩
      · rw [List.append_eq_nil_iff] at hnil
        rw [hmirrors.silent hnil.2, hsilent₁ hnil.1]
      · rw [Memory.all_append] at hallows
        have hfirst := hfollow m hsizes hallows.1
        have hsizes₂ := hmirrors.sizes _ hfirst.sizes hallows.2
        rcases hmirrors.change _ hfirst.sizes hallows.2 with ⟨P, hchange, hspares⟩
        refine ⟨?_, ?_, ?_, ?_⟩
        · rw [Memory.calls_append]
          exact hsizes₂
        · rw [Memory.calls_append]
          exact fun hatMost => (hfirst.atMost hatMost).change hchange
        · rw [Memory.calls_append, Memory.all_append]
          intro hall htiles
          have htiles₁ := hfirst.tiles hall.1 htiles
          exact (htiles₁.change_iff hchange).mpr ((hspares htiles₁).mp hall.2)
        · rw [Memory.calls_append, Memory.all_append]
          intro hlen htiles htiles₂
          -- the call, if there is one, is in the last step or in those before it
          cases cs₂ with
          | nil =>
              rw [hmirrors.silent rfl] at htiles₂
              exact ⟨hfirst.exact (by simpa using hlen) htiles htiles₂, trivial⟩
          | cons c cs =>
              obtain rfl : cs₁ = [] := by
                refine List.eq_nil_of_length_eq_zero ?_
                rw [List.length_append, List.length_cons] at hlen
                omega
              have htiles₁ : Tiles m.owner g₁.area := by
                rw [hsilent₁ rfl]
                exact htiles
              exact ⟨trivial, (hspares htiles₁).mpr ((htiles₁.change_iff hchange).mp htiles₂)⟩

end Steps

end Memtoy
