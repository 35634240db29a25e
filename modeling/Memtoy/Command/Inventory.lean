import Memtoy.Command.Answers

/-!
# Command.Inventory — what is known of the segments without asking the kernel

Whether a call of the segment API is refused depends on little: which names there are, whether
they are mapped, and the ranges in their records. `Inventory` is that much of the table, with
an operation for each call. Under a kernel that grants every request but the empty ones, a
call comes to what the operation says (`Op.Meets`), and the table it leaves to the inventory
that the operation leaves.
-/

namespace Memtoy

open CString MachineWord

/-! ## The inventory -/

/-- A segment as a script can know it. -/
structure Standing where
  type : SegType
  preloaded : Bool
  mapped : Bool
  /-- Zero until it is set. -/
  pagesize : Word
  offset : Word
  length : Word
deriving DecidableEq, Repr

def Segment.standing (s : Segment) : Standing where
  type := s.segType
  preloaded := s.isMaps
  mapped := s.segStart ≠ mapFailed
  pagesize := s.segPagesize
  offset := s.segOffset
  length := s.segLength

@[ext]
structure Inventory where
  pagesize : Word
  hugePagesize : Word
  find : CStr → Option Standing
  /-- How many segments can still be registered. -/
  room : Nat

def Glctx.inventory (g : Glctx) : Inventory where
  pagesize := g.pagesize
  hugePagesize := g.hugePagesize
  find := fun name => (g.registry.lookup name).map Segment.standing
  room := maxSegments - g.live.length

/-- Why a script does not go on: an error is reported, `quit`, or something that has no
defined end, such as a division by zero, an endless loop or an uninitialised value. -/
inductive Halt where
  | refused
  | quits
  | astray
deriving DecidableEq, Repr

/-! ## Its operations -/

/-- The offset is behind the end. -/
def Standing.Misses (st : Standing) (offset : Word) : Prop :=
  st.length ≤ downTo st.pagesize offset

instance (st : Standing) (offset : Word) : Decidable (st.Misses offset) :=
  inferInstanceAs (Decidable (_ ≤ _))

/-- A segment that has just been registered. Shared memory is made at once, of the pages it is
to have. -/
def Standing.registered (pagesize : Word) (type : SegType) (range : Range) : Standing :=
  if type = .segtShm then
    ⟨type, false, false, pagesize, downTo pagesize range.offset, upTo pagesize range.length⟩
  else ⟨type, false, false, 0, range.offset, range.length⟩

/-- What is left of a file from an offset on, if no length is given. -/
def fileLength (pagesize size offset length : Word) : Word :=
  if upTo pagesize length = 0 then upTo pagesize size - downTo pagesize offset
  else upTo pagesize length

/-- The segment after it was mapped; files are `size` bytes long. -/
def Standing.map (pagesize size : Word) (range : Option Range) (st : Standing) : Option Standing :=
  match st.type with
  | .segtNone => none
  | .segtShm => some { st with mapped := true }
  | .segtAnon =>
      if upTo pagesize st.length = 0 then none
      else some { st with
        mapped := true
        pagesize
        offset := downTo pagesize st.offset
        length := upTo pagesize st.length }
  | .segtFile =>
      let asked := range.getD ⟨st.offset, st.length, 0⟩
      let length := fileLength pagesize size asked.offset asked.length
      if size < downTo pagesize asked.offset ∨ length = 0 then none
      else some { st with
        mapped := true
        pagesize
        offset := downTo pagesize asked.offset
        length }

namespace Inventory

variable (inv : Inventory)

def put (name : CStr) (st : Option Standing) : Inventory :=
  { inv with find := Function.update inv.find name st }

def get (name : CStr) : Except Halt Standing :=
  match inv.find name with
  | none => .error .refused
  | some st => .ok st

/-- The segment a registration makes. -/
def fresh (type : SegType) (range : Range) (huge : Bool) : Standing :=
  .registered (if huge then inv.hugePagesize else inv.pagesize) type range

def register (type : SegType) (name : CStr) (range : Range) (huge : Bool) :
    Except Halt Inventory :=
  if inv.find name ≠ none ∨ inv.room = 0 ∨
      (type = .segtShm ∧ (inv.fresh type range huge).length = 0) then .error .refused
  else .ok { inv.put name (some (inv.fresh type range huge)) with room := inv.room - 1 }

def remove (name : CStr) : Except Halt Inventory := do
  let st ← inv.get name
  if st.preloaded then .error .refused
  else .ok { inv.put name none with room := inv.room + 1 }

def unmap (name : CStr) : Except Halt Inventory := do
  let st ← inv.get name
  if st.preloaded then .error .refused else .ok (inv.put name (some { st with mapped := false }))

def map (size : Word) (name : CStr) (range : Option Range) : Except Halt Inventory := do
  let st ← inv.get name
  if st.mapped then .ok inv
  else
    match st.map inv.pagesize size range with
    | none => .error .refused
    | some st => .ok (inv.put name (some st))

/-- A call that works on a segment, and may be one with a page loop. -/
def access (name : CStr) (refuses : Standing → Prop) [DecidablePred refuses] (loops : Bool) :
    Except Halt Inventory := do
  let st ← inv.get name
  if refuses st then .error .refused
  else if loops ∧ st.pagesize = 0 then .error .astray
  else .ok inv

/-- `touch` does not ask whether the segment is mapped. -/
def touch (name : CStr) (offset : Word) (write : Bool) : Except Halt Inventory :=
  inv.access name (fun st => write ∧ st.preloaded ∨ st.Misses offset) true

def mbind (name : CStr) (offset : Word) : Except Halt Inventory :=
  inv.access name (fun st => ¬ st.mapped ∨ st.Misses offset) false

def location (name : CStr) (offset : Word) : Except Halt Inventory :=
  inv.access name (fun st => ¬ st.mapped ∨ st.Misses offset) true

def lockUnlock (name : CStr) (offset : Word) : Except Halt Inventory :=
  inv.access name (fun st => ¬ st.mapped ∨ st.Misses offset) false

def shmLockUnlock (name : CStr) : Except Halt Inventory :=
  inv.access name (fun st => ¬ st.mapped ∨ st.type ≠ .segtShm) false

end Inventory

/-! ## A kernel that grants -/

/-- Every request is granted but the empty ones; every file is `size` bytes long. -/
structure Kernel.Grants (k : Kernel) (size : Word) : Prop where
  stat : ∀ path, k.stat path = some true
  access : ∀ path, ∃ mode, k.access path mode = true
  openFile : ∀ path mode, 0 ≤ k.openFile path mode
  fstat : ∀ fd, k.fstat fd = some size
  shmget : ∀ length flags, k.shmget length flags = shmIdNone ↔ length = 0
  shmat : ∀ id, k.shmat id ≠ mapFailed
  shmLock : ∀ id lock, k.shmLock id lock = true
  mmap : ∀ addr length prot flags fd offset, addr ≠ mapFailed →
    (k.mmap addr length prot flags fd offset = mapFailed ↔ length = 0)
  mbind : ∀ start length policy nodemask flags, k.mbind start length policy nodemask flags = true
  getNode : ∀ vaddr, 0 ≤ k.getNode vaddr
  mlock : ∀ lock start length, k.mlock lock start length = true

theorem Kernel.Grants.fileSize_eq {k : Kernel} {size : Word} (h : k.Grants size) (fd : Int) :
    fileSize k fd = size := by
  rw [fileSize, h.fstat]
  rfl

/-- What a call comes to. -/
def Op.Meets (op : Op) (g : Glctx) : Except Halt Inventory → Prop
  | .ok inv => op.answer g = .ok ∧ (op.exec g).inventory = inv
  | .error .refused => op.answer g = .err
  | .error .astray => ¬ (op.answer g).Returns
  | .error .quits => False

/-! ## Open files -/

/-- A registered file is open. -/
def Segment.FileOpen (s : Segment) : Prop :=
  s.isMaps = false → s.segType = .segtFile → s.segFd ≠ segFdNone

theorem newSegment_fileOpen {g : Glctx} {segp : SegPtr} {s : Segment} {calls : List SysCall}
    (h : NewSegment g segp s calls) : s.FileOpen := by
  intro hmaps hfile
  cases h with
  | maps hm => exact absurd hmaps (by simp [hm])
  | anon _ htype => exact absurd hfile (by simp [htype])
  | file _ _ _ _ _ hfd =>
      intro hnone
      rw [hnone] at hfd
      exact absurd hfd (by decide)
  | shm _ _ htype => exact absurd hfile (by simp [htype])

theorem Prim.fileOpen {g g' : Glctx} (hrep : RepInv g) (hstep : Prim g g') (hpages : PageInv g)
    (h : AllLive Segment.FileOpen g) : AllLive Segment.FileOpen g' := by
  cases hstep with
  | cache | call => exact h
  | alloc => exact h.alloc hrep
  | claim _ _ _ _ _ hnew => exact h.write rfl rfl fun _ => newSegment_fileOpen hnew
  | @retune segp s hp htype hstart hre hflags =>
      -- an unmapped segment is none of the maps file, before and after
      refine h.write rfl rfl fun _ _ hfile => ?_
      rw [hre.fd]
      exact h segp hp ((hpages.records segp hp).not_maps_of_unmapped hstart) (hre.type ▸ hfile)
  | @mapped segp _ _ _ _ _ _ _ hp | @attached segp _ hp | @reprotected segp _ hp =>
      exact h.write rfl rfl fun _ => h segp hp
  | @unmapped segp hp hstart hmaps =>
      rw [unmapSegment_eq hstart hmaps]
      exact h.write rfl rfl fun _ => h segp hp
  | freed =>
      rw [freeSegSlot_eq]
      exact h.write rfl rfl fun hne => absurd rfl hne

theorem reachable_fileOpen {P : Op → Prop} {g : Glctx} (h : (segSpec P).Reachable g) :
    AllLive Segment.FileOpen g := by
  refine (@reachable_inv (fun g => PageInv g ∧ AllLive Segment.FileOpen g) ?_ ?_ P g h).2.2
  · intro cfg
    refine ⟨emptyTable_pageInv cfg, fun segp hp => ?_⟩
    have hmem := hp.1
    rw [emptyTable_entries] at hmem
    exact absurd hmem List.not_mem_nil
  · rintro g g' hrep hstep ⟨hpages, hopen⟩
    exact ⟨hstep.pageInv hrep hpages, hstep.fileOpen hrep hpages hopen⟩

/-! ## The inventory of a table -/

section Inventory

variable {g g' : Glctx} {name : CStr} {segp : SegPtr} {s : Segment}

theorem inventory_find_none (h : RepInv g) (hfree : g.NameFree name) :
    g.inventory.find name = none := by
  simp [Glctx.inventory, h.registry_none.mpr hfree]

theorem inventory_find_some (h : RepInv g) (hlive : g.Live segp)
    (hname : (g.heap segp).segName = some name) :
    g.inventory.find name = some (g.heap segp).standing := by
  simp [Glctx.inventory, h.registry_lookup.mpr ⟨segp, hlive, hname, rfl⟩]

/-- The same live records make the same inventory. -/
theorem inventory_congr (h : RepInv g) (h' : RepInv g') (hsegs : g'.liveSegs = g.liveSegs)
    (hpage : g'.pagesize = g.pagesize ∧ g'.hugePagesize = g.hugePagesize) :
    g'.inventory = g.inventory := by
  simp only [Glctx.inventory, h.registry_congr h' hsegs, live_of_liveSegs hsegs, hpage.1, hpage.2]

theorem Op.exec_pagesizes (op : Op) (hok : op.Ok) (h : RepInv g) :
    (op.exec g).pagesize = g.pagesize ∧ (op.exec g).hugePagesize = g.hugePagesize :=
  Trans.preserved_of_star (fun g' => g'.pagesize = g.pagesize ∧ g'.hugePagesize = g.hugePagesize)
    (fun _ _ hstep heq =>
      ⟨hstep.pagesizes.1.trans heq.1, hstep.pagesizes.2.trans heq.2⟩) (op.star hok h) ⟨rfl, rfl⟩

theorem Op.exec_repInv (op : Op) (hok : op.Ok) (h : RepInv g) : RepInv (op.exec g) :=
  Trans.preserved_of_star RepInv (fun _ _ hstep => hstep.repInv) (op.star hok h) h

/-- A call that only reads changes nothing. -/
theorem inventory_reads {op : Op} (hok : op.Ok) (h : RepInv g) (hop : op.reads = some name) :
    (op.exec g).inventory = g.inventory := by
  rcases op.exec_reads hop g with ⟨hent, hheap⟩
  refine inventory_congr h (op.exec_repInv hok h) ?_ (op.exec_pagesizes hok h)
  rw [Glctx.liveSegs_congr hent hheap]
  exact segmentGet_liveSegs h name

/-- A record is rewritten under its name. -/
theorem inventory_write (h : RepInv g) (h' : RepInv g') (hlive : g.Live segp)
    (hname : (g.heap segp).segName = some name) (hent : g'.entries = g.entries)
    (hheap : g'.heap = Function.update g.heap segp s) (hkeep : s.segName = (g.heap segp).segName)
    (htype : s.segType = (g.heap segp).segType)
    (hpage : g'.pagesize = g.pagesize ∧ g'.hugePagesize = g.hugePagesize) :
    g'.inventory = g.inventory.put name (some s.standing) := by
  have hself : g'.heap segp = s := by rw [hheap, Function.update_self]
  have hother : ∀ q, q ≠ segp → g'.heap q = g.heap q := by
    intro q hq
    rw [hheap, Function.update_of_ne hq]
  have htypes : ∀ q, (g'.heap q).segType = (g.heap q).segType := by
    intro q
    by_cases hq : q = segp
    · rw [hq, hself, htype]
    · rw [hother q hq]
  have hlives : ∀ q, g'.Live q ↔ g.Live q := fun q => by
    rw [Glctx.Live, Glctx.Live, hent, htypes]
  have hlist : g'.live = g.live := by
    simp only [Glctx.live, hent, htypes]
  have hfind : g'.inventory.find =
      Function.update g.inventory.find name (some s.standing) := by
    funext n
    by_cases hn : n = name
    · subst hn
      rw [Function.update_self, inventory_find_some h' ((hlives segp).mpr hlive)
        (by rw [hself, hkeep, hname]), hself]
    · rw [Function.update_of_ne hn]
      by_cases hfree : g.NameFree n
      · rw [inventory_find_none h hfree]
        refine inventory_find_none h' fun q hq hqn => ?_
        by_cases hne : q = segp
        · rw [hne, hself, hkeep, hname] at hqn
          exact hn (Option.some.inj hqn).symm
        · rw [hother q hne] at hqn
          exact hfree q ((hlives q).mp hq) hqn
      · simp only [Glctx.NameFree, not_forall, not_not] at hfree
        rcases hfree with ⟨q, hq, hqn⟩
        have hne : q ≠ segp := by
          rintro rfl
          rw [hname] at hqn
          exact hn (Option.some.inj hqn).symm
        rw [inventory_find_some h hq hqn, inventory_find_some h' ((hlives q).mpr hq)
          (by rw [hother q hne]; exact hqn), hother q hne]
  have hroom : g'.inventory.room = g.inventory.room := by simp only [Glctx.inventory, hlist]
  exact Inventory.ext hpage.1 hpage.2 hfind hroom

end Inventory

/-! ## Calls that read -/

section Calls

variable {g : Glctx} {k : Kernel} {size : Word} {name : CStr}

/-- A call is refused if there is no segment with the name. -/
theorem meets_bind {op : Op} (h : RepInv g) {f : Standing → Except Halt Inventory}
    (hnone : (segmentGet g name).1 = none → op.answer g = .err)
    (hsome : ∀ segp avail, g.Live segp → (g.heap segp).segName = some name →
      segmentGet g name = (some segp, { g with segAvail := avail }) →
      op.Meets g (f (g.heap segp).standing)) :
    op.Meets g (g.inventory.get name >>= f) := by
  rcases lookup_cases h name with ⟨hfree, hget⟩ | ⟨segp, avail, hlive, hname, hget⟩
  · have hfind : g.inventory.get name = .error .refused := by
      rw [Inventory.get, inventory_find_none h hfree]
    rw [hfind]
    exact hnone hget
  · have hfind : g.inventory.get name = .ok (g.heap segp).standing := by
      rw [Inventory.get, inventory_find_some h hlive hname]
    rw [hfind]
    exact hsome segp avail hlive hname hget

theorem meets_get (h : RepInv g) (name : CStr) :
    (Op.get name).Meets g (g.inventory.get name >>= fun _ => .ok g.inventory) := by
  refine meets_bind h (fun hnone => ?_) fun segp avail _ _ hget => ?_
  · simp [Op.answer, hnone]
  · exact ⟨by simp [Op.answer, hget], inventory_reads trivial h rfl⟩

/-- The call of the API. -/
def RangeOp.op (name : CStr) (range : Range) : RangeOp → Op
  | .touch ev rw => .touch ev loopFuel name range rw
  | .mbind k policy nodemask flags => .mbind k name range policy nodemask flags
  | .location k sig => .location k sig loopFuel name range
  | .lockUnlock k lock shm => .lockUnlock k name range lock shm

def RangeOp.loops : RangeOp → Bool
  | .touch .. | .location .. => true
  | .mbind .. | .lockUnlock .. => false

def RangeOp.Granted (size : Word) : RangeOp → Prop
  | .touch .. => True
  | .mbind k _ _ _ | .location k _ | .lockUnlock k _ _ => k.Grants size

theorem RangeOp.ok_op (op : RangeOp) (name : CStr) (range : Range) : (op.op name range).Ok := by
  cases op <;> trivial

theorem RangeOp.reads_op (op : RangeOp) (name : CStr) (range : Range) :
    (op.op name range).reads = some name := by
  cases op <;> rfl

theorem RangeOp.answer_op (op : RangeOp) (g : Glctx) (name : CStr) (range : Range) :
    (op.op name range).answer g = (op.run loopFuel g name range).1.answer := by
  cases op with
  | touch => exact (Outcome.answer_void _).symm
  | location => exact (Outcome.answer_void _).symm
  | mbind => rfl
  | lockUnlock => rfl

/-- Without a segment every operation is refused. -/
theorem run_of_none (op : RangeOp) (range : Range) (hnone : (segmentGet g name).1 = none) :
    (op.run loopFuel g name range).1 = .segErr := by
  cases op <;> simp only [RangeOp.run, segmentTouch, segmentMbind, segmentLocation,
    segmentLockUnlock] <;> generalize segmentGet g name = r at hnone ⊢ <;>
    rcases r with ⟨o, g₁⟩ <;> cases hnone <;> rfl

/-- The page loop of `where` stops at an error of `get_node` only. -/
theorem nodeLoop_ok {getNode : Word → Int} (hnode : ∀ vaddr, 0 ≤ getNode vaddr)
    (sig : Nat → Bool) (pagesize endp : Word) : ∀ (fuel k : Nat) (apage : Word) (pgid : Flags)
      (needNl : Bool) (run : NodeRun),
      nodeLoop getNode sig pagesize endp fuel k apage pgid needNl = some run → run.ok = true := by
  intro fuel
  induction fuel with
  | zero =>
      intro k apage pgid needNl run hrun
      rw [nodeLoop] at hrun
      split at hrun
      · cases hrun
        rfl
      · cases hrun
  | succ fuel ih =>
      intro k apage pgid needNl run hrun
      rw [nodeLoop] at hrun
      split at hrun
      · cases hrun
        rfl
      · simp only at hrun
        rw [if_neg (Int.not_lt.mpr (hnode apage))] at hrun
        split at hrun
        · cases hrun
          rfl
        · rcases Option.map_eq_some_iff.mp hrun with ⟨rest, hrest, rfl⟩
          exact ih _ _ _ _ rest hrest

/-- What gets past the guards is granted. -/
theorem run_granted (h : (segSpec anyOp).Reachable g) {segp : SegPtr} (hlive : g.Live segp)
    (hname : (g.heap segp).segName = some name) {op : RangeOp} {range : Range}
    (hnot : ¬ Refuses (g.heap segp) range op) (hk : op.Granted size)
    (hpage : op.loops = true → (g.heap segp).segPagesize ≠ 0) :
    (op.run loopFuel g name range).1 = .segOk () := by
  have hrep := reachable_repInv h
  rcases segmentGet_live hrep hlive hname with ⟨avail, hget⟩
  have hclamps : ∀ {range : Range}, ¬ (g.heap segp).segLength ≤
      roundDownToSegmentPagesize range.offset (g.heap segp) →
      ∃ r, clampRange (g.heap segp) range = some r :=
    fun hlen => Option.ne_none_iff_exists'.mp fun hc => hlen (clampRange_none.mp hc)
  cases op with
  | touch ev rw =>
      -- the loop ends, and nothing else can be in the way
      have hreturns : ((RangeOp.touch ev rw).run loopFuel g name range).1.answer.Returns :=
        run_returns_of_settled h hlive hname (hpage rfl) _
      rcases not_or.mp hnot with ⟨hwrite, hlen⟩
      rcases hclamps hlen with ⟨⟨offset, length⟩, hclamp⟩
      revert hreturns
      simp only [RangeOp.run, segmentTouch, hget, hclamp]
      rw [if_neg hwrite]
      split
      · rintro (hc | hc) <;> cases hc
      · rw [if_neg (hpage rfl)]
        exact fun _ => rfl
  | mbind k policy nodemask flags =>
      rcases not_or.mp hnot with ⟨hstart, hlen⟩
      rcases hclamps hlen with ⟨⟨offset, length⟩, hclamp⟩
      simp only [RangeOp.run, segmentMbind, hget, hclamp]
      rw [if_neg hstart, if_pos (hk.mbind _ _ _ _ _)]
  | location k sig =>
      have hreturns : ((RangeOp.location k sig).run loopFuel g name range).1.answer.Returns :=
        run_returns_of_settled h hlive hname (hpage rfl) _
      rcases not_or.mp hnot with ⟨hstart, hlen⟩
      rw [← whereRange_offset (g.heap segp) range] at hlen
      rcases hclamps hlen with ⟨⟨offset, length⟩, hclamp⟩
      revert hreturns
      simp only [RangeOp.run, segmentLocation, hget, hclamp]
      rw [if_neg hstart, if_neg (hpage rfl)]
      split
      · rintro (hc | hc) <;> cases hc
      · next run hrun =>
        rw [if_pos (nodeLoop_ok hk.getNode _ _ _ _ _ _ _ _ _ hrun)]
        exact fun _ => rfl
  | lockUnlock k lock shm =>
      rcases not_or.mp hnot with ⟨hstart, hshm⟩
      simp only [RangeOp.run, segmentLockUnlock, hget]
      rw [if_neg hstart]
      cases shm with
      | true =>
          rw [if_pos rfl, not_not] at hshm
          rw [if_pos rfl, if_neg (not_not.mpr hshm), if_pos (hk.shmLock _ _)]
      | false =>
          rw [if_neg (by simp)] at hshm
          rcases hclamps hshm with ⟨⟨offset, length⟩, hclamp⟩
          rw [if_neg (by simp), hclamp]
          simp only [hk.mlock, if_true]

/-- Past its guards an operation with a page loop does not come back without a page size. -/
theorem run_astray (h : RepInv g) {segp : SegPtr} (hlive : g.Live segp)
    (hname : (g.heap segp).segName = some name) {op : RangeOp} {range : Range}
    (hnot : ¬ Refuses (g.heap segp) range op) (hloops : op.loops = true)
    (hpage : (g.heap segp).segPagesize = 0) :
    ¬ (op.run loopFuel g name range).1.answer.Returns := by
  rw [← op.answer_op]
  cases op with
  | touch ev rw => exact touch_of_no_pagesize h hlive hname hpage ev hnot loopFuel
  | location k sig => exact location_of_no_pagesize h hlive hname hpage k sig hnot loopFuel
  | mbind => cases hloops
  | lockUnlock => cases hloops

/-- The calls on a range, told by what they refuse. -/
theorem meets_access (h : (segSpec anyOp).Reachable g) {op : RangeOp} (hk : op.Granted size)
    (name : CStr) (range : Range) (refuses : Standing → Prop) [DecidablePred refuses]
    (hrefuses : ∀ s : Segment, refuses s.standing ↔ Refuses s range op) :
    (op.op name range).Meets g (g.inventory.access name refuses op.loops) := by
  have hrep := reachable_repInv h
  refine meets_bind hrep (fun hnone => ?_) fun segp avail hlive hname hget => ?_
  · rw [op.answer_op, run_of_none op range hnone]
    rfl
  · by_cases hguard : refuses (g.heap segp).standing
    · rw [if_pos hguard]
      show (op.op name range).answer g = .err
      rw [op.answer_op, (run_of_refuses hrep hlive hname ((hrefuses _).mp hguard) loopFuel).1]
      rfl
    · have hnot : ¬ Refuses (g.heap segp) range op := fun hc => hguard ((hrefuses _).mpr hc)
      rw [if_neg hguard]
      by_cases hastray : op.loops = true ∧ (g.heap segp).standing.pagesize = 0
      · rw [if_pos hastray]
        show ¬ ((op.op name range).answer g).Returns
        rw [op.answer_op]
        exact run_astray hrep hlive hname hnot hastray.1 hastray.2
      · rw [if_neg hastray]
        constructor
        · rw [op.answer_op, run_granted h hlive hname hnot hk fun hloops hzero =>
            hastray ⟨hloops, hzero⟩]
          rfl
        · exact inventory_reads (op.ok_op name range) hrep (op.reads_op name range)

section Accesses

variable (h : (segSpec anyOp).Reachable g) (hk : k.Grants size) (name : CStr) (range : Range)

theorem mapped_standing (s : Segment) : ¬ s.standing.mapped = true ↔ s.segStart = mapFailed := by
  simp [Segment.standing]

include h

theorem meets_touch (ev : Nat → PageEvent) (write : Bool) :
    (Op.touch ev loopFuel name range write).Meets g
      (g.inventory.touch name range.offset write) :=
  @meets_access g 0 h (.touch ev write) trivial name range _ _ fun _ => Iff.rfl

include hk

theorem meets_mbind (policy : Int) (nodemask : Option Nat) (flags : Flags) :
    (Op.mbind k name range policy nodemask flags).Meets g
      (g.inventory.mbind name range.offset) :=
  @meets_access g size h (.mbind k policy nodemask flags) hk name range _ _ fun s =>
    or_congr (mapped_standing s) Iff.rfl

theorem meets_location (sig : Nat → Bool) :
    (Op.location k sig loopFuel name range).Meets g (g.inventory.location name range.offset) :=
  @meets_access g size h (.location k sig) hk name range _ _ fun s =>
    or_congr (mapped_standing s) Iff.rfl

theorem meets_lockUnlock (lock : Bool) :
    (Op.lockUnlock k name range lock false).Meets g
      (g.inventory.lockUnlock name range.offset) :=
  @meets_access g size h (.lockUnlock k lock false) hk name range _ _ fun s =>
    or_congr (mapped_standing s) Iff.rfl

theorem meets_shmLockUnlock (lock : Bool) :
    (Op.lockUnlock k name range lock true).Meets g (g.inventory.shmLockUnlock name) :=
  @meets_access g size h (.lockUnlock k lock true) hk name range _ _ fun s =>
    or_congr (mapped_standing s) Iff.rfl

end Accesses

/-! ## Calls that write -/

theorem unmapSegment_update {segp : SegPtr} (hmaps : (g.heap segp).isMaps = false) :
    (unmapSegment g segp).heap =
      Function.update g.heap segp { g.heap segp with segStart := mapFailed } := by
  by_cases hstart : (g.heap segp).segStart = mapFailed
  · rw [unmapSegment_of_not_mapped (.inl hstart), ← hstart, Function.update_eq_self]
  · rw [unmapSegment_eq hstart hmaps]

theorem meets_unmap (h : RepInv g) (name : CStr) :
    (Op.unmap name).Meets g (g.inventory.unmap name) := by
  refine meets_bind h (fun hnone => ?_) fun segp avail hlive hname hget => ?_
  · simp only [Op.answer, segmentUnmap]
    generalize segmentGet g name = r at hnone ⊢
    rcases r with ⟨o, g₁⟩
    cases hnone
    rfl
  · show (Op.unmap name).Meets g (if (g.heap segp).isMaps then .error .refused
      else .ok (g.inventory.put name (some { (g.heap segp).standing with mapped := false })))
    by_cases hmaps : (g.heap segp).isMaps = true
    · rw [if_pos hmaps]
      show (Op.unmap name).answer g = .err
      simp only [Op.answer, segmentUnmap, hget]
      rw [if_pos hmaps]
      rfl
    · have hmaps' : (g.heap segp).isMaps = false := by simpa using hmaps
      have hexec : segmentUnmap g name =
          (.segOk, unmapSegment { g with segAvail := avail } segp) := by
        simp only [segmentUnmap, hget]
        rw [if_neg hmaps]
      rw [if_neg hmaps]
      constructor
      · simp only [Op.answer, hexec]
        rfl
      · have hstanding : ({ g.heap segp with segStart := mapFailed } : Segment).standing =
            { (g.heap segp).standing with mapped := false } := by
          simp [Segment.standing, Segment.isMaps]
        rw [← hstanding]
        refine inventory_write h ((Op.unmap name).exec_repInv trivial h) hlive hname ?_ ?_ rfl rfl
          ((Op.unmap name).exec_pagesizes trivial h)
        · simp only [Op.exec, hexec]
          exact unmapSegment_entries _ segp
        · simp only [Op.exec, hexec]
          exact unmapSegment_update (g := { g with segAvail := avail }) hmaps'

theorem Inventory.put_self {inv : Inventory} {st : Option Standing} (h : inv.find name = st) :
    inv.put name st = inv := by
  rw [Inventory.put, ← h, Function.update_eq_self]

/-- The protection of a segment is none of its standing. -/
theorem mprotect_inventory (k : Kernel) (h : RepInv g) (name : CStr) (prot : Flags) :
    ((Op.mprotect k name prot).exec g).inventory = g.inventory := by
  have hrep := (Op.mprotect k name prot).exec_repInv trivial h
  have hpages := (Op.mprotect k name prot).exec_pagesizes trivial h
  have hsame := segmentGet_liveSegs h name
  rcases lookup_cases h name with ⟨-, hnone⟩ | ⟨segp, avail, hlive, hname, hget⟩
  · refine inventory_congr h hrep ?_ hpages
    simp only [Op.exec, segmentMprotect]
    generalize segmentGet g name = r at hnone hsame ⊢
    rcases r with ⟨o, g₁⟩
    cases hnone
    exact hsame
  · cases hk : k.mprotect (g.heap segp).segStart (g.heap segp).segLength prot with
    | false =>
        refine inventory_congr h hrep ?_ hpages
        simp only [Op.exec, segmentMprotect, hget, hk]
        rfl
    | true =>
        have hwrite := inventory_write h hrep hlive hname
          (s := { g.heap segp with segProt := prot }) (by
            simp only [Op.exec, segmentMprotect, hget, hk]
            rfl) (by
            simp only [Op.exec, segmentMprotect, hget, hk]
            rfl) rfl rfl hpages
        rw [hwrite]
        exact Inventory.put_self (inventory_find_some h hlive hname)

/-- A table without one of its live segments has one less. -/
theorem length_filter_live (h : RepInv g) {segp : SegPtr} (hlive : g.Live segp) :
    (g.liveSegs.filter fun e => e.1 ≠ segp).length + 1 = g.live.length := by
  have hmem : segp ∈ g.live := Glctx.mem_live.mpr hlive
  have herase : (g.live.filter fun q => q ≠ segp) = g.live.erase segp := by
    rw [h.live_nodup.erase_eq_filter]
    simp [bne, beq_eq_decide]
  have hlength : (g.liveSegs.filter fun e => e.1 ≠ segp).length =
      (g.live.filter fun q => q ≠ segp).length := by
    simp only [Glctx.liveSegs, List.filter_map, List.length_map]
    rfl
  rw [hlength, herase, List.length_erase_of_mem hmem]
  have hpos := List.length_pos_of_mem hmem
  omega

theorem live_length_le (h : RepInv g) : g.live.length ≤ maxSegments :=
  (List.length_filter_le _ _).trans h.bound

theorem meets_remove (h : RepInv g) (name : CStr) :
    (Op.remove name).Meets g (g.inventory.remove name) := by
  refine meets_bind h (fun hnone => ?_) fun segp avail hlive hname hget => ?_
  · simp only [Op.answer, segmentRemove]
    generalize segmentGet g name = r at hnone ⊢
    rcases r with ⟨o, g₁⟩
    cases hnone
    rfl
  · show (Op.remove name).Meets g (if (g.heap segp).isMaps then .error .refused
      else .ok { g.inventory.put name none with room := g.inventory.room + 1 })
    by_cases hmaps : (g.heap segp).isMaps = true
    · rw [if_pos hmaps]
      show (Op.remove name).answer g = .err
      simp only [Op.answer, segmentRemove, hget]
      rw [if_pos hmaps]
      rfl
    · rw [if_neg hmaps]
      rcases h.refinesMap.remove segp name hlive hname (by simpa using hmaps) with
        ⟨hok, hsegs, hregistry⟩
      have hpages := (Op.remove name).exec_pagesizes trivial h
      have hlength : ((Op.remove name).exec g).live.length + 1 = g.live.length := by
        rw [← length_filter_live h hlive, ← hsegs, liveSegs_length]
        rfl
      have hle := live_length_le h
      constructor
      · simp only [Op.answer, hok]
        rfl
      · have hfind : ((Op.remove name).exec g).inventory.find =
            Function.update g.inventory.find name none := by
          funext n
          show ((segmentRemove g name).2.registry.lookup n).map Segment.standing = _
          rw [hregistry]
          by_cases hn : n = name
          · rw [hn, Function.update_self, Finmap.lookup_erase]
            rfl
          · rw [Function.update_of_ne hn, Finmap.lookup_erase_ne hn]
            rfl
        have hroom : maxSegments - ((Op.remove name).exec g).live.length =
            maxSegments - g.live.length + 1 := by omega
        exact Inventory.ext hpages.1 hpages.2 hfind hroom

/-- A record with the address of its mapping. -/
theorem standing_mapped {r : Segment} (hmaps : r.isMaps = false) {memp : Word}
    (hmemp : memp = mapFailed ↔ r.segLength = 0) :
    (if memp = mapFailed then none else some ({ r with segStart := memp } : Segment).standing) =
      if r.segLength = 0 then none
      else some ⟨r.segType, false, true, r.segPagesize, r.segOffset, r.segLength⟩ := by
  by_cases hzero : r.segLength = 0
  · rw [if_pos (hmemp.mpr hzero), if_pos hzero]
  · have hne : memp ≠ mapFailed := fun hc => hzero (hmemp.mp hc)
    have hkeep : ({ r with segStart := memp } : Segment).isMaps = false := hmaps
    rw [if_neg hne, if_neg hzero]
    simp [Segment.standing, hkeep, hne]

section MapEffect

variable {pagesize : Word} {segp : SegPtr} {s : Segment} {range : Option Range} {flags : Flags}

theorem flags_not_maps {s' : Segment} (hmaps : s.isMaps = false) (hflags : flags &&& segfMaps = 0)
    (hs' : s'.segFlags = if flags ≠ 0 then flags else s.segFlags) : s'.isMaps = false := by
  rw [isMaps_eq_false, hs']
  split
  · exact hflags
  · exact isMaps_eq_false.mp hmaps

theorem anonRecord_fields : (anonRecord pagesize s flags).segOffset = downTo pagesize s.segOffset ∧
    (anonRecord pagesize s flags).segLength = upTo pagesize s.segLength ∧
    (anonRecord pagesize s flags).segType = s.segType := by
  unfold anonRecord Segment.overrideFlags
  split <;> exact ⟨rfl, rfl, rfl⟩

/-- `mmap` is not asked for a mapping where none can be. -/
theorem downTo_ne_mapFailed (hps : IsPageSize pagesize) (x : Word) :
    downTo pagesize x ≠ mapFailed := by
  intro hfailed
  have hdvd : Divides pagesize (downTo pagesize x) :=
    divides_roundDown (s := { Segment.zero with segPagesize := pagesize }) hps x
  have height : 8 ∣ (downTo pagesize x).toNat := Nat.dvd_trans hps.eight_dvd hdvd
  rw [hfailed] at height
  exact absurd height (by decide)

theorem lengthInEffect_grants (hk : k.Grants size) {fd : Int} (hfd : fd ≠ segFdNone) {r : Range}
    (hoff : ¬ size < downTo pagesize r.offset) :
    lengthInEffect k pagesize fd r = fileLength pagesize size r.offset r.length := by
  rw [lengthInEffect, fileLength, hk.fileSize_eq]
  simp only [hfd, hoff, ne_eq, not_false_eq_true, and_true]

/-- The record a `map` leaves is the one that was foreseen. -/
theorem mapEffect_standing (hk : k.Grants size) (hps : IsPageSize pagesize)
    (hstart : s.segStart = mapFailed) (hmaps : s.isMaps = false) (hopen : s.FileOpen)
    (htype : s.segType ≠ .segtNone) (hflags : flags &&& segfMaps = 0) :
    s.standing.map pagesize size range =
      if (mapEffect k pagesize segp s range flags).1.segStart = mapFailed then none
      else some (mapEffect k pagesize segp s range flags).1.standing := by
  cases hst : s.segType with
  | segtNone => exact absurd hst htype
  | segtShm =>
      simp [mapEffect, hst, Standing.map, Segment.standing, Segment.isMaps, hk.shmat]
  | segtAnon =>
      have hkeep : (anonRecord pagesize s flags).isMaps = false :=
        flags_not_maps hmaps hflags (overrideFlags_segFlags s flags)
      rcases @anonRecord_fields pagesize s flags with ⟨hoff, hlen, htyp⟩
      simp only [mapEffect, hst]
      have haddr : (anonRecord pagesize s flags).segOffset ≠ mapFailed :=
        hoff ▸ downTo_ne_mapFailed hps s.segOffset
      rw [standing_mapped hkeep (hk.mmap _ _ _ _ _ _ haddr), hlen, hoff, htyp, hst]
      simp only [Standing.map, Segment.standing, hst, hmaps]
      rfl
  | segtFile =>
      have hkeep : (fileRecord k pagesize s range flags).isMaps = false :=
        flags_not_maps hmaps hflags (fileRecord_segFlags k pagesize s range flags)
      have hfd : (fileRecord k pagesize s range flags).segFd ≠ segFdNone := by
        rw [show (fileRecord k pagesize s range flags).segFd = s.segFd from
          (override_retunes s range flags).fd]
        exact hopen hmaps hst
      have htyp : (fileRecord k pagesize s range flags).segType = s.segType :=
        (override_retunes s range flags).type
      have hearly : ((fileRecord k pagesize s range flags).segFd = segFdNone ∨
          fileSize k (fileRecord k pagesize s range flags).segFd <
            (fileRecord k pagesize s range flags).segOffset) ↔
          size < downTo pagesize (askedRange s range).offset := by
        rw [fileRecord_segOffset, hk.fileSize_eq]
        exact or_iff_right hfd
      have hasked : range.getD ⟨s.segOffset, s.segLength, 0⟩ = askedRange s range := rfl
      simp only [mapEffect, hst]
      by_cases hoff : size < downTo pagesize (askedRange s range).offset
      · -- the offset is behind the end of the file
        have hunmapped : (fileRecord k pagesize s range flags).segStart = mapFailed :=
          (override_retunes s range flags).start.trans hstart
        rw [if_pos (hearly.mpr hoff), if_pos hunmapped]
        simp only [Standing.map, Segment.standing, hst]
        exact if_pos (.inl hoff)
      · have hlen := fileRecord_segLength k pagesize s range flags
        rw [lengthInEffect_grants hk (hopen hmaps hst) hoff] at hlen
        rw [if_neg (fun hc => hoff (hearly.mp hc)), standing_mapped hkeep
          (hk.mmap _ _ _ _ _ _ (by decide)), hlen, fileRecord_segOffset, htyp, hst]
        simp only [Standing.map, Segment.standing, hst, hasked, hoff, false_or, hmaps]
        rfl

end MapEffect

theorem meets_map (h : (segSpec anyOp).Reachable g) (hk : k.Grants size) (name : CStr)
    (range : Option Range) {flags : Flags} (hflags : flags &&& segfMaps = 0) :
    (Op.map k name range flags).Meets g (g.inventory.map size name range) := by
  have hrep := reachable_repInv h
  have hpages := reachable_pageInv h
  refine meets_bind hrep (fun hnone => ?_) fun segp avail hlive hname hget => ?_
  · simp only [Op.answer, segmentMap]
    generalize segmentGet g name = r at hnone ⊢
    rcases r with ⟨o, g₁⟩
    cases hnone
    rfl
  · by_cases hstart : (g.heap segp).segStart = mapFailed
    · have hmaps := (hpages.records segp hlive).not_maps_of_unmapped hstart
      rcases segmentMap_effect k hrep hpages.pagesize hlive hname hstart range flags with
        ⟨avail', -, hmap⟩
      have hnot : ¬ (g.heap segp).standing.mapped = true := (mapped_standing _).mpr hstart
      set s' := (mapEffect k g.pagesize segp (g.heap segp) range flags).1 with hs'
      have hstanding : (g.heap segp).standing.map g.inventory.pagesize size range =
          if s'.segStart = mapFailed then none else some s'.standing :=
        mapEffect_standing hk hpages.pagesize hstart hmaps (reachable_fileOpen h segp hlive)
          hlive.2 hflags
      rw [if_neg hnot, hstanding]
      by_cases hfail : s'.segStart = mapFailed
      · rw [if_pos hfail]
        show (Op.map k name range flags).answer g = .err
        simp only [Op.answer, hmap, Glctx.mapped]
        rw [if_pos hfail]
        rfl
      · rw [if_neg hfail]
        have hkeep := mapEffect_identity k g.pagesize segp (g.heap segp) range flags
        constructor
        · simp only [Op.answer, hmap, Glctx.mapped]
          rw [if_neg hfail]
          rfl
        · refine inventory_write hrep ((Op.map k name range flags).exec_repInv hflags hrep) hlive
            hname ?_ ?_ hkeep.1 hkeep.2 ((Op.map k name range flags).exec_pagesizes hflags hrep)
          · simp only [Op.exec, hmap]
            rfl
          · simp only [Op.exec, hmap]
            rfl
    · -- it is mapped already
      have hmapped : (g.heap segp).standing.mapped = true := by
        simpa [Segment.standing] using hstart
      have hmap : segmentMap k g name range flags = (.segOk, { g with segAvail := avail }) := by
        simp only [segmentMap, hget]
        exact if_pos hstart
      rw [if_pos hmapped]
      constructor
      · simp only [Op.answer, hmap]
        rfl
      · refine inventory_congr hrep ((Op.map k name range flags).exec_repInv hflags hrep) ?_
          ((Op.map k name range flags).exec_pagesizes hflags hrep)
        simp only [Op.exec, hmap]
        rfl

/-! ## Registration -/

/-- `shmflg & SHM_HUGETLB` of `get_shm_segment`. -/
def wantsHuge (flags : Flags) : Bool :=
  (shmR ||| shmW ||| (flags &&& shmHugetlb)) &&& shmHugetlb ≠ 0

theorem getShmSegment_update {segp : SegPtr} {s : Segment}
    (hok : (getShmSegment k (g.setSeg segp s) segp).1 = .segOk) :
    (getShmSegment k (g.setSeg segp s) segp).2.entries = g.entries ∧
      ∃ id, (getShmSegment k (g.setSeg segp s) segp).2.heap = Function.update g.heap segp
        { s.pageAlign (if wantsHuge s.segFlags then g.hugePagesize else g.pagesize) with
          segShmid := id } := by
  revert hok
  simp only [getShmSegment, Glctx.setSeg_heap, Function.update_self, Glctx.setSeg_pagesize,
    Glctx.setSeg_hugePagesize, wantsHuge, decide_eq_true_eq]
  generalize (if (shmR ||| shmW ||| (s.segFlags &&& shmHugetlb)) &&& shmHugetlb ≠ 0 then
    g.hugePagesize else g.pagesize) = pagesize
  split
  · intro hc
    cases hc
  · intro _
    refine ⟨rfl, k.shmget (s.pageAlign pagesize).segLength
      (shmR ||| shmW ||| (s.segFlags &&& shmHugetlb)), ?_⟩
    simp [Glctx.emit, Glctx.setSeg]

/-- The record of a segment that was registered. -/
theorem segmentRegister_standing (h : RepInv g) {type : SegType} (name : CStr) (range : Range)
    {flags : Flags} (htype : type ≠ .segtNone) (hmaps : flags &&& segfMaps = 0)
    (hok : (segmentRegister k g type name range flags).1 = .segOk) :
    ∃ segp s, HasRecord (segmentRegister k g type name range flags).2 segp s ∧
      s.segType = type ∧ s.segName = some (basename name) ∧
        s.standing = g.inventory.fresh type range (wantsHuge flags) := by
  rcases hget : segmentGet g (basename name) with ⟨_ | p, g₁⟩
  · have h₁ := segmentGet_repInv h (basename name)
    have hsizes := segmentGet_pagesizes h (basename name)
    rw [hget] at h₁ hsizes
    rcases segmentGet_none h hget with ⟨-, ⟨q, hav, hun⟩ | ⟨rfl, hav, hfull, hall⟩⟩
    · have hclear : (g₁.heap q).segPagesize = 0 := by
        rw [h₁.cleared q hun]
        rfl
      have hname : some (basename (basenameEdit name)) = some (basename name) :=
        congrArg some (basename_basenameEdit name)
      revert hok
      simp only [segmentRegister, hget, getSegSlot_cached hav]
      rw [if_neg (not_not.mpr hmaps)]
      cases type with
      | segtNone => exact absurd rfl htype
      | segtAnon =>
          intro _
          refine ⟨q, _, ⟨hun.1, Function.update_self ..⟩, rfl, hname, ?_⟩
          simp [Segment.standing, newRecord, Inventory.fresh, Standing.registered, Segment.isMaps,
            hmaps, hclear]
      | segtFile =>
          intro hok
          rcases openFile_ok k hok with ⟨hent, prot, fd, hheap⟩
          refine ⟨q, _, ⟨by rw [hent]; exact hun.1, by rw [hheap, Function.update_self]⟩, rfl,
            hname, ?_⟩
          simp [Segment.standing, newRecord, Inventory.fresh, Standing.registered, Segment.isMaps,
            hmaps, hclear]
      | segtShm =>
          intro hok
          rcases getShmSegment_update hok with ⟨hent, id, hheap⟩
          refine ⟨q, _, ⟨by rw [hent]; exact hun.1, by rw [hheap, Function.update_self]⟩, rfl,
            hname, ?_⟩
          show Segment.standing { Segment.pageAlign _ (if wantsHuge flags then g₁.hugePagesize
            else g₁.pagesize) with segShmid := id } = _
          rw [hsizes.1, hsizes.2]
          simp only [Segment.standing, newRecord, Inventory.fresh, Standing.registered,
            Segment.isMaps, hmaps, Segment.pageAlign, if_true]
          rfl
    · simp only [segmentRegister, hget, getSegSlot_full h hav hfull hall] at hok
      cases hok
  · simp only [segmentRegister, hget] at hok
    rw [if_neg (not_not.mpr hmaps)] at hok
    cases hok

/-- A request for huge pages is one for shared memory. -/
theorem Inventory.register_of_not_shm (inv : Inventory) {type : SegType} (htype : type ≠ .segtShm)
    (name : CStr) (range : Range) (huge huge' : Bool) :
    inv.register type name range huge = inv.register type name range huge' := by
  have hfresh : inv.fresh type range huge = inv.fresh type range huge' := by
    simp only [Inventory.fresh, Standing.registered, htype, if_false]
  simp only [Inventory.register, hfresh]

theorem openMode_of_access {path : CStr} {mode : OpenMode} (h : k.access path mode = true) :
    ∃ mode, openMode k path = some mode := by
  unfold openMode
  split_ifs with hrdwr hrdonly hwronly
  · exact ⟨_, rfl⟩
  · exact ⟨_, rfl⟩
  · exact ⟨_, rfl⟩
  · cases mode <;> contradiction

/-- A granting kernel refuses empty shared memory only. -/
theorem opens_grants (hk : k.Grants size) {type : SegType} (htype : type ≠ .segtNone)
    (name : CStr) (range : Range) (flags : Flags) :
    Opens k g type name range flags ↔
      ¬ (type = .segtShm ∧ (g.inventory.fresh type range (wantsHuge flags)).length = 0) := by
  cases type with
  | segtNone => exact absurd rfl htype
  | segtAnon => simp [Opens]
  | segtFile =>
      rcases hk.access (basenameEdit name) with ⟨mode, hmode⟩
      rcases openMode_of_access hmode with ⟨mode', hmode'⟩
      refine iff_of_true ⟨hk.stat _, mode', hmode', hk.openFile _ _⟩ ?_
      simp
  | segtShm =>
      have hreq : (shmRequest g range flags).1 =
          (g.inventory.fresh .segtShm range (wantsHuge flags)).length := by
        simp only [shmRequest, Inventory.fresh, Standing.registered, wantsHuge, decide_eq_true_eq]
        rfl
      rw [Opens, hreq, ne_eq, hk.shmget]
      simp

theorem meets_register (h : RepInv g) (hk : k.Grants size) {type : SegType}
    (htype : type ≠ .segtNone) (name : CStr) (range : Range) {flags : Flags}
    (hflags : flags &&& segfMaps = 0) :
    (Op.register k type name range flags).Meets g
      (g.inventory.register type (basename name) range (wantsHuge flags)) := by
  have hok : (Op.register k type name range flags).Ok := ⟨htype, hflags⟩
  have hrefines := segmentRegister_refines k h name range htype hflags
  have hle := live_length_le h
  have hfind : g.inventory.find (basename name) = none ↔
      g.registry.lookup (basename name) = none := Option.map_eq_none_iff
  have hiff : (segmentRegister k g type name range flags).1 = .segOk ↔
      ¬ (g.inventory.find (basename name) ≠ none ∨ g.inventory.room = 0 ∨ (type = .segtShm ∧
        (g.inventory.fresh type range (wantsHuge flags)).length = 0)) := by
    have hroom : ¬ g.inventory.room = 0 ↔ g.live.length < maxSegments := by
      show ¬ maxSegments - g.live.length = 0 ↔ _
      omega
    rw [hrefines.ok_iff, ← hfind, opens_grants hk htype, not_or, not_or, not_not, hroom]
  unfold Inventory.register
  split
  · next hrefused =>
    show (Op.register k type name range flags).answer g = .err
    have hnot := mt hiff.mp (not_not.mpr hrefused)
    simp only [Op.answer]
    cases hres : (segmentRegister k g type name range flags).1 with
    | segErr => rfl
    | segOk => exact absurd hres hnot
  · next hrefused =>
    have hgranted := hiff.mpr hrefused
    refine ⟨by simp only [Op.answer, hgranted]; rfl, ?_⟩
    -- the one segment that is new is the one that was foreseen
    have hrep := (Op.register k type name range flags).exec_repInv hok h
    rcases hrefines.ok hgranted with ⟨p, s, hname, hstype, hnew, hperm, hregistry⟩
    rcases segmentRegister_standing h name range htype hflags hgranted with
      ⟨segp, s', ⟨hmem, hrec⟩, htype', hname', hstanding⟩
    have hlookup : (segmentRegister k g type name range flags).2.registry.lookup (basename name) =
        some s' := hrep.registry_lookup.mpr ⟨segp, ⟨hmem, by
          show ((segmentRegister k g type name range flags).2.heap segp).segType ≠ _
          rw [hrec, htype']
          exact htype⟩, by rw [← hname', ← hrec]; rfl, hrec⟩
    have hlength := hperm.length_eq
    rw [liveSegs_length, List.length_cons, liveSegs_length] at hlength
    have hroom : maxSegments - (segmentRegister k g type name range flags).2.live.length =
        maxSegments - g.live.length - 1 := by omega
    have hpages := (Op.register k type name range flags).exec_pagesizes hok h
    have hfinds : ((Op.register k type name range flags).exec g).inventory.find =
        Function.update g.inventory.find (basename name)
          (some (g.inventory.fresh type range (wantsHuge flags))) := by
      funext n
      show ((segmentRegister k g type name range flags).2.registry.lookup n).map _ = _
      by_cases hn : n = basename name
      · rw [hn, Function.update_self, hlookup, ← hstanding]
        rfl
      · rw [Function.update_of_ne hn, hregistry, Finmap.lookup_insert_of_ne _ hn]
        rfl
    exact Inventory.ext hpages.1 hpages.2 hfinds hroom

end Calls

end Memtoy
