import Mathlib.Algebra.Order.BigOperators.Group.List
import Mathlib.Algebra.Order.Ring.Nat
import Mathlib.Data.Finmap
import Memtoy.Segment.Api

/-!
# Segment.Refinement — the segment table as a finite map

Two readings of the table in `seglist`:

* the array itself (`TableOk`): a NULL-terminated prefix of distinct slots with
  matching slot numbers, and a cache that never points at a live segment;
* what it is for (`Registry`): a finite map from names to segments that holds
  at most `MAX_SEGMENTS` of them. Lookup, registration and removal of the table
  are lookup, insertion and erasure of the map, and a call that fails leaves the
  map alone.
-/

namespace Memtoy

open CString Relation

/-! ## The array -/

/-- The representation invariant, read off the raw array. -/
structure TableOk (g : Glctx) : Prop where
  /-- The non-NULL entries form a prefix of at most `MAX_SEGMENTS`. -/
  nullTerminated : ∃ n ≤ maxSegments, g.seglist.length = maxSegments + 1 ∧
    (∀ i < n, ∃ segp, g.seglist[i]? = some (some segp)) ∧
    ∀ i, n ≤ i → i ≤ maxSegments → g.seglist[i]? = some none
  /-- A scan that finds nothing stops at a NULL entry of the array. -/
  scansStop : (∀ name avail i, scanName g.heap name g.seglist g.segAvail 0 = .miss avail i →
      g.seglist[i]? = some none) ∧
    ∀ i, scanUnused g.heap g.seglist 0 = .stop i → g.seglist[i]? = some none
  slotNumber : ∀ (i : Nat) (segp : SegPtr), g.seglist[i]? = some (some segp) →
    (g.heap segp).segSlot = i
  distinct : ∀ (i j : Nat) (segp : SegPtr), g.seglist[i]? = some (some segp) →
    g.seglist[j]? = some (some segp) → i = j
  cacheUnused : ∀ segp, g.segAvail = some segp →
    (∃ i : Nat, g.seglist[i]? = some (some segp)) ∧ (g.heap segp).segType = .segtNone

theorem RepInv.seglist_getElem? {g : Glctx} (h : RepInv g) {i : Nat} {segp : SegPtr} :
    g.seglist[i]? = some (some segp) ↔ g.entries[i]? = some segp := by
  conv_lhs => rw [h.shape, List.getElem?_append]
  split
  · simp
  · next hge =>
    rw [List.length_map] at hge
    rw [List.getElem?_replicate, List.getElem?_eq_none (by omega)]
    split <;> simp

theorem RepInv.seglist_null {g : Glctx} (h : RepInv g) {i : Nat} (hge : g.entries.length ≤ i)
    (hle : i ≤ maxSegments) : g.seglist[i]? = some none := by
  rw [h.shape, List.getElem?_append_right (by simpa using hge), List.getElem?_replicate,
    if_pos (by rw [List.length_map]; omega)]

/-- A table in shape is what the source takes it for. -/
theorem RepInv.tableOk {g : Glctx} (h : RepInv g) : TableOk g where
  nullTerminated := by
    refine ⟨g.entries.length, h.bound, ?_, ?_, ?_⟩
    · have hb := h.bound
      rw [h.shape, List.length_append, List.length_map, List.length_replicate]
      omega
    · intro i hi
      exact ⟨g.entries[i], h.seglist_getElem?.mpr (List.getElem?_eq_getElem hi)⟩
    · intro i hge hle
      exact h.seglist_null hge hle
  scansStop := by
    constructor
    · intro name avail i hscan
      have hspec := scanName_spec g.heap name
        (List.replicate (maxSegments - g.entries.length) none) g.entries g.segAvail 0
      rw [← h.shape_cons, Nat.zero_add, hscan] at hspec
      rcases hspec with ⟨p, avail', hhit, -⟩ | ⟨avail', hmiss, -⟩
      · cases hhit
      · cases hmiss
        exact h.seglist_null le_rfl h.bound
    · intro i hscan
      have hspec := scanUnused_spec g.heap
        (List.replicate (maxSegments - g.entries.length) none) g.entries 0
      rw [← h.shape_cons, Nat.zero_add, hscan] at hspec
      rcases hspec with ⟨p, -, hfound, -⟩ | ⟨hstop, -⟩
      · cases hfound
      · cases hstop
        exact h.seglist_null le_rfl h.bound
  slotNumber := fun i segp hp => h.slot i segp (h.seglist_getElem?.mp hp)
  distinct := by
    intro i j segp hi hj
    have h1 := h.slot i segp (h.seglist_getElem?.mp hi)
    have h2 := h.slot j segp (h.seglist_getElem?.mp hj)
    exact h1.symm.trans h2
  cacheUnused := by
    intro segp hav
    obtain ⟨hmem, htype⟩ := h.avail segp hav
    obtain ⟨i, hi⟩ := List.getElem?_of_mem hmem
    exact ⟨⟨i, h.seglist_getElem?.mpr hi⟩, htype⟩

/-- The exit-time cleanup frees entries of the table only, so it keeps it in
shape. -/
theorem cleanupScan_repInv : ∀ (l : List (Option SegPtr)) {g : Glctx}, RepInv g →
    (∀ segp, some segp ∈ l → segp ∈ g.entries) → RepInv (cleanupScan l g)
  | [], _, h, _ => h
  | none :: _, _, h, _ => h
  | some segp :: rest, g, h, hmem => by
      have hrest : ∀ q, some q ∈ rest → q ∈ g.entries :=
        fun q hq => hmem q (List.mem_cons_of_mem _ hq)
      simp only [cleanupScan]
      split
      · exact cleanupScan_repInv rest h hrest
      · next htype =>
        have hshm : (g.heap segp).segType = .segtShm := by simpa using htype
        have hlive : g.Live segp := ⟨hmem segp List.mem_cons_self, by rw [hshm]; simp⟩
        refine cleanupScan_repInv rest (h.free hlive) ?_
        intro q hq
        rw [freeSegSlot_eq]
        exact hrest q hq

theorem mem_entries {g : Glctx} {segp : SegPtr} : some segp ∈ g.seglist ↔ segp ∈ g.entries := by
  simp [Glctx.entries_eq]

theorem segmentCleanup_repInv {g : Glctx} (h : RepInv g) : RepInv (segmentCleanup g) :=
  cleanupScan_repInv g.seglist h (fun _ hq => mem_entries.mp hq)

/-- In every reachable state, and after the exit-time cleanup of any reachable
state, the array is in order. -/
theorem segment_table_ok {g : Glctx} (h : (segSpec anyOp).Reachable g) :
    TableOk g ∧ TableOk (segmentCleanup g) := by
  have hrep := reachable_repInv h
  exact ⟨hrep.tableOk, (segmentCleanup_repInv hrep).tableOk⟩

/-- On the concrete machine, after a shared memory segment was registered. -/
theorem segment_table_ok_shmem :
    TableOk (Op.exec (.register sampleKernel .segtShm ['s'] ⟨0, 0x1000#64, 0⟩ mapShared)
      sampleTable) :=
  (segment_table_ok ((sampleTable_reachable anyOp).step
    ⟨.register sampleKernel .segtShm ['s'] ⟨0, 0x1000#64, 0⟩ mapShared,
      ⟨by decide, by decide⟩, trivial, rfl⟩)).1

/-! ## The map -/

/-- What the table is for: a finite map from names to segments. -/
abbrev Registry := Finmap fun _ : CStr => Segment

namespace Glctx

/-- The live segments, in table order. -/
def live (g : Glctx) : List SegPtr :=
  g.entries.filter fun segp => (g.heap segp).segType ≠ .segtNone

/-- The live segments with their records. -/
def liveSegs (g : Glctx) : List (SegPtr × Segment) := g.live.map fun segp => (segp, g.heap segp)

/-- The map the table represents. -/
def registry (g : Glctx) : Registry :=
  (g.live.map fun segp => Sigma.mk ((g.heap segp).segName.getD []) (g.heap segp)).toFinmap

theorem mem_live {g : Glctx} {segp : SegPtr} : segp ∈ g.live ↔ g.Live segp := by
  simp [live, Live]

theorem mem_liveSegs {g : Glctx} {segp : SegPtr} {s : Segment} :
    (segp, s) ∈ g.liveSegs ↔ g.Live segp ∧ g.heap segp = s := by
  simp [liveSegs, mem_live]

/-- Two tables with the same entries and the same live records have the same
live segments. -/
theorem liveSegs_congr {g g' : Glctx} (hent : g'.entries = g.entries)
    (hheap : g'.heap = g.heap) : g'.liveSegs = g.liveSegs := by
  simp only [liveSegs, live, hent, hheap]

end Glctx

theorem RepInv.live_nodup {g : Glctx} (h : RepInv g) : g.live.Nodup := h.nodup.filter _

/-- The map at a name is the live segment with that name. -/
theorem RepInv.registry_lookup {g : Glctx} (h : RepInv g) {name : CStr} {s : Segment} :
    g.registry.lookup name = some s ↔
      ∃ segp, g.Live segp ∧ (g.heap segp).segName = some name ∧ g.heap segp = s := by
  have hkeys : (g.live.map fun segp =>
      (⟨(g.heap segp).segName.getD [], g.heap segp⟩ : (_ : CStr) × Segment)).NodupKeys := by
    rw [List.NodupKeys, List.keys, List.map_map]
    refine List.Nodup.map_on ?_ h.live_nodup
    intro p hp q hq heq
    have hlp := Glctx.mem_live.mp hp
    have hlq := Glctx.mem_live.mp hq
    obtain ⟨np, hnp⟩ := h.named p hlp
    obtain ⟨nq, hnq⟩ := h.named q hlq
    refine h.unique p q hlp hlq ?_
    simp only [Function.comp, hnp, hnq, Option.getD_some] at heq
    rw [hnp, hnq, heq]
  rw [Glctx.registry, Finmap.dlookup_list_toFinmap, ← Option.mem_def, List.mem_dlookup_iff hkeys,
    List.mem_map]
  constructor
  · rintro ⟨p, hp, heq⟩
    have hl := Glctx.mem_live.mp hp
    obtain ⟨np, hnp⟩ := h.named p hl
    simp only [hnp, Option.getD_some, Sigma.mk.injEq, heq_eq_eq] at heq
    exact ⟨p, hl, by rw [hnp, heq.1], heq.2⟩
  · rintro ⟨p, hl, hn, hs⟩
    refine ⟨p, Glctx.mem_live.mpr hl, ?_⟩
    subst hs
    simp [hn]

theorem RepInv.registry_none {g : Glctx} (h : RepInv g) {name : CStr} :
    g.registry.lookup name = none ↔ g.NameFree name := by
  constructor
  · intro hnone p hp hn
    have hsome := h.registry_lookup.mpr ⟨p, hp, hn, rfl⟩
    rw [hnone] at hsome
    cases hsome
  · intro hfree
    rcases hl : g.registry.lookup name with _ | s
    · rfl
    · obtain ⟨p, hp, hn, -⟩ := h.registry_lookup.mp hl
      exact absurd hn (hfree p hp)

/-- Tables with the same live records represent the same map. -/
theorem RepInv.registry_congr {g g' : Glctx} (h : RepInv g) (h' : RepInv g')
    (heq : g'.liveSegs = g.liveSegs) : g'.registry = g.registry := by
  have hmem : ∀ p s, (g'.Live p ∧ g'.heap p = s) ↔ (g.Live p ∧ g.heap p = s) := by
    intro p s
    rw [← Glctx.mem_liveSegs, ← Glctx.mem_liveSegs, heq]
  refine Finmap.ext_lookup (fun name => Option.ext fun s => ?_)
  rw [h'.registry_lookup, h.registry_lookup]
  constructor
  · rintro ⟨p, hl, hn, hs⟩
    obtain ⟨hl', hs'⟩ := (hmem p s).mp ⟨hl, hs⟩
    exact ⟨p, hl', by rw [hs', ← hs]; exact hn, hs'⟩
  · rintro ⟨p, hl, hn, hs⟩
    obtain ⟨hl', hs'⟩ := (hmem p s).mpr ⟨hl, hs⟩
    exact ⟨p, hl', by rw [hs', ← hs]; exact hn, hs'⟩

/-! ## Lookup -/

/-- A lookup changes no live segment. -/
theorem segmentGet_liveSegs {g : Glctx} (h : RepInv g) (name : CStr) :
    (segmentGet g name).2.liveSegs = g.liveSegs := by
  rcases segmentGet_cases h name with ⟨p, avail, heq, -⟩ | ⟨-, q, -, heq, -⟩ |
      ⟨-, -, -, ⟨-, heq⟩ | ⟨-, heq⟩⟩
  · rw [heq]
    rfl
  · rw [heq]
    rfl
  · -- the preallocated slot is not live
    rw [heq]
    have hmap : ∀ p ∈ g.live, (newSlot g g.entries.length).2.heap p = g.heap p :=
      fun p hp => h.newSlot_heap_of_mem _ (Glctx.mem_live.mp hp).1
    have hlive : (newSlot g g.entries.length).2.live = g.live := by
      have hnew : ((newSlot g g.entries.length).2.heap g.brk).segType = .segtNone := by
        simp [newSlot, Segment.zero]
      simp only [Glctx.live, h.entries_newSlot, List.filter_append, List.filter_singleton, hnew]
      simp only [ne_eq, not_true_eq_false, decide_false, cond_false, List.append_nil]
      refine List.filter_congr (fun p hp => ?_)
      rw [h.newSlot_heap_of_mem _ hp]
    show (newSlot g g.entries.length).2.liveSegs = g.liveSegs
    simp only [Glctx.liveSegs, hlive]
    exact List.map_congr_left (fun p hp => by rw [hmap p hp])
  · rw [heq]

/-- A lookup leaves the page sizes of the context alone. -/
theorem segmentGet_pagesizes {g : Glctx} (h : RepInv g) (name : CStr) :
    (segmentGet g name).2.pagesize = g.pagesize ∧
      (segmentGet g name).2.hugePagesize = g.hugePagesize := by
  rcases segmentGet_cases h name with ⟨p, avail, heq, -⟩ | ⟨-, q, -, heq, -⟩ |
      ⟨-, -, -, ⟨-, heq⟩ | ⟨-, heq⟩⟩ <;> rw [heq] <;> exact ⟨rfl, rfl⟩

/-- The result of a lookup is the live segment with the name. -/
theorem segmentGet_result {g : Glctx} (h : RepInv g) (name : CStr) :
    (∃ p, (segmentGet g name).1 = some p ∧ g.Live p ∧ (g.heap p).segName = some name) ∨
      ((segmentGet g name).1 = none ∧ g.NameFree name) := by
  rcases segmentGet_cases h name with ⟨p, avail, heq, hl, hn, -⟩ | ⟨hfree, q, -, heq, -⟩ |
      ⟨hfree, -, -, ⟨-, heq⟩ | ⟨-, heq⟩⟩
  · exact Or.inl ⟨p, by rw [heq], hl, hn⟩
  · exact Or.inr ⟨by rw [heq], hfree⟩
  · exact Or.inr ⟨by rw [heq], hfree⟩
  · exact Or.inr ⟨by rw [heq], hfree⟩

/-! ## Registration -/

/-- Tables with the same live records have the same segments live. -/
theorem live_of_liveSegs {g g' : Glctx} (h : g'.liveSegs = g.liveSegs) : g'.live = g.live := by
  have hfst := congrArg (List.map Prod.fst) h
  simpa [Glctx.liveSegs, List.map_map, Function.comp_def] using hfst

/-- A table full of live segments has no room. -/
theorem live_length_of_full {g : Glctx} (hfull : g.entries.length = maxSegments)
    (hall : ∀ p ∈ g.entries, g.Live p) : g.live.length = maxSegments := by
  have hlive : g.live = g.entries := by
    rw [Glctx.live, List.filter_eq_self]
    intro p hp
    simpa using (hall p hp).2
  rw [hlive, hfull]

/-- The two ways a registration without `SEGF_MAPS` goes: refused because of the
name or for want of room, or a slot is filled. -/
theorem segmentRegister_cases (k : Kernel) {g : Glctx} (h : RepInv g) {type : SegType}
    (name : CStr) (range : Range) {flags : Flags} (htype : type ≠ .segtNone)
    (hmaps : flags &&& segfMaps = 0) :
    ((¬ g.NameFree (basename name) ∨ g.live.length = maxSegments) ∧
      ∃ avail, segmentRegister k g type name range flags =
        (.segErr, { g with segAvail := avail })) ∨
    (g.NameFree (basename name) ∧ ∃ g₁ segp, RepInv g₁ ∧ g₁.liveSegs = g.liveSegs ∧
      g₁.Unused segp ∧ Fills g₁ segp (Opens k g type name range flags) (basename name) type
        (segmentRegister k g type name range flags)) := by
  rcases hget : segmentGet g (basename name) with ⟨_ | p, g₁⟩
  · have h₁ : RepInv g₁ := by
      have hrep := segmentGet_repInv h (basename name)
      rwa [hget] at hrep
    have hsame : g₁.liveSegs = g.liveSegs := by
      have hlive := segmentGet_liveSegs h (basename name)
      rwa [hget] at hlive
    have hfree : g.NameFree (basename name) := by
      rcases segmentGet_result h (basename name) with ⟨p, hp, -⟩ | ⟨-, hfree⟩
      · rw [hget] at hp
        cases hp
      · exact hfree
    obtain ⟨-, ⟨q, hav, hun⟩ | ⟨rfl, hav, hfull, hall⟩⟩ := segmentGet_none h hget
    · -- the lookup has left an unused slot in the cache
      right
      have hopens : Opens k g₁ type name range flags ↔ Opens k g type name range flags := by
        have hpages : g₁.pagesize = g.pagesize ∧ g₁.hugePagesize = g.hugePagesize := by
          have hsizes := segmentGet_pagesizes h (basename name)
          rwa [hget] at hsizes
        cases type <;> simp only [Opens, shmRequest, hpages.1, hpages.2]
      have hfills := segmentRegister_fills k h₁ hun hav range hget htype hmaps
      exact ⟨hfree, _, q, h₁.uncache, hsame, hun, propext hopens ▸ hfills⟩
    · -- every slot is in use
      left
      refine ⟨Or.inr ?_, g₁.segAvail, ?_⟩
      · exact live_length_of_full hfull hall
      · simp only [segmentRegister, hget, getSegSlot_full h hav hfull hall]
  · left
    obtain ⟨hp, hn, avail, rfl⟩ := segmentGet_some h hget
    refine ⟨Or.inl (fun hfree => hfree p hp hn), avail, ?_⟩
    simp only [segmentRegister, hget, hmaps]
    rfl

/-- A table in shape holds fewer live segments than `MAX_SEGMENTS` when a slot
is unused. -/
theorem RepInv.live_lt_of_unused {g : Glctx} (h : RepInv g) {segp : SegPtr}
    (hun : g.Unused segp) : g.live.length < maxSegments := by
  refine lt_of_lt_of_le ?_ h.bound
  rw [Glctx.live, List.length_filter_lt_length_iff_exists]
  exact ⟨segp, hun.1, by simp [hun.2]⟩

theorem RepInv.liveSegs_nodup {g : Glctx} (h : RepInv g) : g.liveSegs.Nodup :=
  h.live_nodup.map (fun _ _ heq => congrArg Prod.fst heq)

theorem liveSegs_length (g : Glctx) : g.liveSegs.length = g.live.length := by
  simp [Glctx.liveSegs]

section Update

variable {g g' : Glctx} {segp : SegPtr} {s : Segment}

/-- Which segments are live after a write to one slot of the table. -/
theorem live_of_update (hent : g'.entries = g.entries)
    (hheap : g'.heap = Function.update g.heap segp s) (hmem : segp ∈ g.entries) (q : SegPtr) :
    g'.Live q ↔ (q = segp ∧ s.segType ≠ .segtNone) ∨ (q ≠ segp ∧ g.Live q) := by
  by_cases hq : q = segp
  · subst hq
    simp [Glctx.Live, hent, hheap, hmem]
  · simp [Glctx.Live, hent, hheap, hq]

/-- A live record written to an unused slot is one more live segment. -/
theorem liveSegs_insert (h : RepInv g) (h' : RepInv g') (hun : g.Unused segp)
    (hent : g'.entries = g.entries) (hheap : g'.heap = Function.update g.heap segp s)
    (htype : s.segType ≠ .segtNone) :
    segp ∉ g.live ∧ g'.liveSegs.Perm ((segp, s) :: g.liveSegs) := by
  have hnot : ¬ g.Live segp := fun hl => hl.2 hun.2
  refine ⟨fun hmem => hnot (Glctx.mem_live.mp hmem), ?_⟩
  have hnodup : ((segp, s) :: g.liveSegs).Nodup := by
    refine List.nodup_cons.mpr ⟨fun hmem => hnot (Glctx.mem_liveSegs.mp hmem).1, h.liveSegs_nodup⟩
  refine (List.perm_ext_iff_of_nodup h'.liveSegs_nodup hnodup).mpr ?_
  rintro ⟨q, t⟩
  rw [Glctx.mem_liveSegs, List.mem_cons, Glctx.mem_liveSegs,
    live_of_update hent hheap hun.1, hheap]
  by_cases hq : q = segp
  · subst hq
    simp [htype, hnot, eq_comm]
  · simp [hq]

theorem registry_insert (h : RepInv g) (h' : RepInv g') (hun : g.Unused segp)
    (hent : g'.entries = g.entries) (hheap : g'.heap = Function.update g.heap segp s)
    (htype : s.segType ≠ .segtNone) {name : CStr} (hname : s.segName = some name)
    (hfree : g.NameFree name) : g'.registry = g.registry.insert name s := by
  have hlive := live_of_update hent hheap hun.1
  have hself : g'.heap segp = s := by rw [hheap, Function.update_self]
  have hother : ∀ q, q ≠ segp → g'.heap q = g.heap q := by
    intro q hq
    rw [hheap, Function.update_of_ne hq]
  refine Finmap.ext_lookup (fun n => Option.ext fun t => ?_)
  rw [h'.registry_lookup]
  -- at the name itself the new segment is the only one; elsewhere nothing changes
  by_cases hn : n = name
  · subst hn
    rw [Finmap.lookup_insert]
    constructor
    · rintro ⟨q, hq, hqn, rfl⟩
      rcases (hlive q).mp hq with ⟨rfl, -⟩ | ⟨hne, hl⟩
      · rw [hself]
      · rw [hother q hne] at hqn
        exact absurd hqn (hfree q hl)
    · intro heq
      cases heq
      exact ⟨segp, (hlive segp).mpr (Or.inl ⟨rfl, htype⟩), by rw [hself, hname], hself⟩
  · rw [Finmap.lookup_insert_of_ne _ hn, h.registry_lookup]
    constructor
    · rintro ⟨q, hq, hqn, rfl⟩
      rcases (hlive q).mp hq with ⟨rfl, -⟩ | ⟨hne, hl⟩
      · rw [hself, hname] at hqn
        exact absurd (Option.some.inj hqn).symm hn
      · rw [hother q hne] at hqn ⊢
        exact ⟨q, hl, hqn, rfl⟩
    · rintro ⟨q, hl, hqn, rfl⟩
      have hne : q ≠ segp := by
        rintro rfl
        exact hl.2 hun.2
      exact ⟨q, (hlive q).mpr (Or.inr ⟨hne, hl⟩), by rw [hother q hne]; exact hqn, hother q hne⟩

/-- Clearing a live slot takes exactly its segment out. -/
theorem liveSegs_erase (hent : g'.entries = g.entries)
    (hheap : g'.heap = Function.update g.heap segp s) (htype : s.segType = .segtNone) :
    g'.liveSegs = g.liveSegs.filter (fun e => e.1 ≠ segp) := by
  have hl : g'.live = g.live.filter (fun q => q ≠ segp) := by
    rw [Glctx.live, Glctx.live, hent, List.filter_filter]
    refine List.filter_congr (fun q _ => ?_)
    by_cases hq : q = segp
    · subst hq
      simp [hheap, htype]
    · simp [hheap, hq]
  rw [Glctx.liveSegs, Glctx.liveSegs, hl, List.filter_map]
  refine List.map_congr_left (fun q hq => ?_)
  have hne : q ≠ segp := by simpa using (List.mem_filter.mp hq).2
  rw [hheap, Function.update_of_ne hne]

theorem registry_erase (h : RepInv g) (h' : RepInv g') (hl : g.Live segp)
    (hent : g'.entries = g.entries) (hheap : g'.heap = Function.update g.heap segp s)
    (htype : s.segType = .segtNone) {name : CStr} (hname : (g.heap segp).segName = some name) :
    g'.registry = g.registry.erase name := by
  have hlive := live_of_update hent hheap hl.1
  have hother : ∀ q, q ≠ segp → g'.heap q = g.heap q := by
    intro q hq
    rw [hheap, Function.update_of_ne hq]
  refine Finmap.ext_lookup (fun n => Option.ext fun t => ?_)
  rw [h'.registry_lookup]
  by_cases hn : n = name
  · subst hn
    rw [Finmap.lookup_erase]
    constructor
    · rintro ⟨q, hq, hqn, -⟩
      rcases (hlive q).mp hq with ⟨-, hno⟩ | ⟨hne, hlq⟩
      · exact absurd htype hno
      · rw [hother q hne] at hqn
        exact absurd (h.unique q segp hlq hl (hqn.trans hname.symm)) hne
    · intro hc
      cases hc
  · rw [Finmap.lookup_erase_ne hn, h.registry_lookup]
    constructor
    · rintro ⟨q, hq, hqn, rfl⟩
      rcases (hlive q).mp hq with ⟨-, hno⟩ | ⟨hne, hlq⟩
      · exact absurd htype hno
      · rw [hother q hne] at hqn ⊢
        exact ⟨q, hlq, hqn, rfl⟩
    · rintro ⟨q, hlq, hqn, rfl⟩
      have hne : q ≠ segp := by
        rintro rfl
        rw [hname] at hqn
        exact hn (Option.some.inj hqn).symm
      exact ⟨q, (hlive q).mpr (Or.inr ⟨hne, hlq⟩), by rw [hother q hne]; exact hqn, hother q hne⟩

end Update

/-! ## The refinement -/

/-- `n` further segments can be registered one after the other. -/
def CanRegister : Nat → Glctx → Prop
  | 0, _ => True
  | n + 1, g => ∃ k type name range flags, type ≠ .segtNone ∧ flags &&& segfMaps = 0 ∧
      (segmentRegister k g type name range flags).1 = .segOk ∧
      CanRegister n (segmentRegister k g type name range flags).2

/-- What a registration does to the map, seen from outside. -/
structure RegisterRefines (g : Glctx) (opens : Prop) (type : SegType) (name : CStr)
    (r : SegRet × Glctx) : Prop where
  ok_iff : r.1 = .segOk ↔
    g.registry.lookup name = none ∧ g.live.length < maxSegments ∧ opens
  ok : r.1 = .segOk → ∃ segp s, s.segName = some name ∧ s.segType = type ∧ segp ∉ g.live ∧
    r.2.liveSegs.Perm ((segp, s) :: g.liveSegs) ∧ r.2.registry = g.registry.insert name s
  err : r.1 ≠ .segOk → r.2.liveSegs = g.liveSegs ∧ r.2.registry = g.registry ∧
    ∀ n, CanRegister n r.2 ↔ CanRegister n g

theorem segmentRegister_repInv (k : Kernel) {g : Glctx} (h : RepInv g) {type : SegType}
    (name : CStr) (range : Range) {flags : Flags} (htype : type ≠ .segtNone)
    (hmaps : flags &&& segfMaps = 0) : RepInv (segmentRegister k g type name range flags).2 :=
  Trans.preserved_of_star RepInv (fun _ _ hstep => hstep.repInv)
    (segmentRegister_star k h name range flags htype (fun hm => absurd hmaps hm)) h

/-- What a registration does to the live segments. -/
theorem segmentRegister_live (k : Kernel) {g : Glctx} (h : RepInv g) {type : SegType}
    (name : CStr) (range : Range) {flags : Flags} (htype : type ≠ .segtNone)
    (hmaps : flags &&& segfMaps = 0) :
    let r := segmentRegister k g type name range flags
    (r.1 = .segErr ∧ r.2.liveSegs = g.liveSegs ∧
      ¬ (g.NameFree (basename name) ∧ g.live.length < maxSegments ∧
        Opens k g type name range flags)) ∨
    (r.1 = .segOk ∧ g.NameFree (basename name) ∧ g.live.length < maxSegments ∧
      Opens k g type name range flags ∧ ∃ segp s, s.segName = some (basename name) ∧
        s.segType = type ∧ segp ∉ g.live ∧ r.2.liveSegs.Perm ((segp, s) :: g.liveSegs) ∧
        r.2.registry = g.registry.insert (basename name) s) := by
  intro r
  have hr : RepInv r.2 := segmentRegister_repInv k h name range htype hmaps
  rcases segmentRegister_cases k h name range htype hmaps with
    ⟨hwhy, avail, heq⟩ | ⟨hfree, g₁, segp, h₁, hsame, hun, hfills⟩
  · left
    have hreq : r = (.segErr, { g with segAvail := avail }) := heq
    rw [hreq]
    refine ⟨rfl, rfl, ?_⟩
    rintro ⟨hfree, hlt, -⟩
    rcases hwhy with hname | hfull
    · exact hname hfree
    · omega
  · -- a slot of `g₁`, the table after the lookup, is filled, or cleared again
    have hlive := live_of_liveSegs hsame
    have hlt : g.live.length < maxSegments := by
      rw [← hlive]
      exact h₁.live_lt_of_unused hun
    by_cases hopens : Opens k g type name range flags
    · right
      obtain ⟨s, calls, heq, hname, hst, -, -⟩ := hfills.ok hopens
      have hreq : r = (.segOk, { g₁.setSeg segp s with log := g₁.log ++ calls }) := heq
      have hent : r.2.entries = g₁.entries := by rw [hreq]; rfl
      have hheap : r.2.heap = Function.update g₁.heap segp s := by rw [hreq]; rfl
      have hne : s.segType ≠ .segtNone := by rw [hst]; exact htype
      have hfree₁ : g₁.NameFree (basename name) := by
        intro p hp hn
        have hmem : (p, g₁.heap p) ∈ g.liveSegs := hsame ▸ Glctx.mem_liveSegs.mpr ⟨hp, rfl⟩
        obtain ⟨hp', heq⟩ := Glctx.mem_liveSegs.mp hmem
        exact hfree p hp' (by rw [heq]; exact hn)
      obtain ⟨hnew, hperm⟩ := liveSegs_insert h₁ hr hun hent hheap hne
      refine ⟨by rw [hreq], hfree, hlt, hopens, segp, s, hname, hst, ?_, ?_, ?_⟩
      · rwa [hlive] at hnew
      · rwa [hsame] at hperm
      · rw [registry_insert h₁ hr hun hent hheap hne hname hfree₁, h.registry_congr h₁ hsame]
    · left
      obtain ⟨calls, heq, -⟩ := hfills.err hopens
      have hreq : r = (.segErr, { g₁ with segAvail := some segp, log := g₁.log ++ calls }) := heq
      refine ⟨by rw [hreq], ?_, fun hall => hopens hall.2.2⟩
      rw [hreq, ← hsame]
      exact Glctx.liveSegs_congr rfl rfl

/-- A name longer than every live segment's is free. -/
theorem exists_nameFree (g : Glctx) : ∃ name, g.NameFree name ∧ basename name = name := by
  set n := (g.live.map fun p => ((g.heap p).segName.getD []).length).sum with hn
  refine ⟨List.replicate (n + 1) 'a', ?_, ?_⟩
  · intro p hp hname
    have hle : ((g.heap p).segName.getD []).length ≤ n := by
      refine List.single_le_sum (fun _ _ => Nat.zero_le _) _ ?_
      exact List.mem_map.mpr ⟨p, Glctx.mem_live.mpr hp, rfl⟩
    rw [hname, Option.getD_some, List.length_replicate] at hle
    omega
  · refine basename_of_no_slash (by simp) ?_
    simp

/-- The room left in the table is the number of segments that can still be
registered. -/
theorem canRegister_iff : ∀ (n : Nat) {g : Glctx}, RepInv g →
    (CanRegister n g ↔ g.live.length + n ≤ maxSegments)
  | 0, g, h => by
      have hle : g.live.length ≤ maxSegments := (List.length_filter_le _ _).trans h.bound
      simpa [CanRegister] using hle
  | n + 1, g, h => by
      constructor
      · rintro ⟨k, type, name, range, flags, htype, hmaps, hok, hrest⟩
        have hr := segmentRegister_repInv k h name range htype hmaps
        have hlen := (canRegister_iff n hr).mp hrest
        rcases segmentRegister_live k h name range htype hmaps with
          ⟨herr, -⟩ | ⟨-, -, -, -, segp, s, -, -, -, hperm, -⟩
        · rw [hok] at herr
          cases herr
        · have hlen' := hperm.length_eq
          rw [liveSegs_length, List.length_cons, liveSegs_length] at hlen'
          omega
      · intro hlen
        -- an anonymous segment with a fresh name always finds room
        obtain ⟨name, hfree, hbase⟩ := exists_nameFree g
        have htype : SegType.segtAnon ≠ .segtNone := by simp
        have hmaps : (0 : Flags) &&& segfMaps = 0 := by decide
        have hr := segmentRegister_repInv sampleKernel h name ⟨0, 0, 0⟩ htype hmaps
        rcases segmentRegister_live sampleKernel h name ⟨0, 0, 0⟩ htype hmaps with
          ⟨-, -, hno⟩ | ⟨hok, -, -, -, segp, s, -, -, -, hperm, -⟩
        · exact absurd ⟨by rwa [hbase], by omega, trivial⟩ hno
        · refine ⟨sampleKernel, .segtAnon, name, ⟨0, 0, 0⟩, 0, htype, hmaps, hok,
            (canRegister_iff n hr).mpr ?_⟩
          have hlen' := hperm.length_eq
          rw [liveSegs_length, List.length_cons, liveSegs_length] at hlen'
          omega

theorem segmentRegister_refines (k : Kernel) {g : Glctx} (h : RepInv g) {type : SegType}
    (name : CStr) (range : Range) {flags : Flags} (htype : type ≠ .segtNone)
    (hmaps : flags &&& segfMaps = 0) :
    RegisterRefines g (Opens k g type name range flags) type (basename name)
      (segmentRegister k g type name range flags) := by
  have hr := segmentRegister_repInv k h name range htype hmaps
  rcases segmentRegister_live k h name range htype hmaps with
    ⟨herr, hsame, hno⟩ | ⟨hok, hfree, hlt, hopens, hadd⟩
  · refine ⟨?_, ?_, ?_⟩
    · rw [h.registry_none, herr]
      constructor
      · intro hc
        cases hc
      · intro hall
        exact absurd hall hno
    · intro hok
      rw [hok] at herr
      cases herr
    · intro _
      refine ⟨hsame, h.registry_congr hr hsame, fun n => ?_⟩
      rw [canRegister_iff n hr, canRegister_iff n h, ← liveSegs_length, hsame, liveSegs_length]
  · refine ⟨?_, fun _ => hadd, fun hne => absurd hok hne⟩
    rw [h.registry_none]
    exact ⟨fun _ => ⟨hfree, hlt, hopens⟩, fun _ => hok⟩

/-! ## Removal -/

theorem freeSegSlot_entries (g : Glctx) (segp : SegPtr) :
    (freeSegSlot g segp).entries = g.entries := by
  rw [freeSegSlot_eq]
  rfl

theorem unmapSegment_entries (g : Glctx) (segp : SegPtr) :
    (unmapSegment g segp).entries = g.entries := by
  rw [Glctx.entries, unmapSegment_seglist]
  rfl

/-- `unmap_segment` and `free_seg_slot` in a row clear the slot and touch no
other. -/
theorem freeSegSlot_unmapSegment_heap {g : Glctx} {segp : SegPtr}
    (hmaps : (g.heap segp).isMaps = false) :
    (freeSegSlot (unmapSegment g segp) segp).heap = Function.update g.heap segp
      { Segment.zero with segSlot := (g.heap segp).segSlot } := by
  rw [freeSegSlot_eq]
  by_cases hstart : (g.heap segp).segStart = mapFailed
  · rw [unmapSegment_of_not_mapped (Or.inl hstart)]
  · rw [unmapSegment_eq hstart hmaps]
    simp

/-- `segment_remove` of a live segment that is not from the maps file clears its
slot and touches no other. -/
theorem segmentRemove_clears {g : Glctx} (h : RepInv g) {segp : SegPtr} {name : CStr}
    (hlive : g.Live segp) (hname : (g.heap segp).segName = some name)
    (hmaps : (g.heap segp).isMaps = false) :
    (segmentRemove g name).1 = .segOk ∧ (segmentRemove g name).2.entries = g.entries ∧
      (segmentRemove g name).2.heap = Function.update g.heap segp
        { Segment.zero with segSlot := (g.heap segp).segSlot } := by
  rcases hget : segmentGet g name with ⟨_ | p, g₁⟩
  · rcases segmentGet_result h name with ⟨p, hp, -⟩ | ⟨-, hfree⟩
    · rw [hget] at hp
      cases hp
    · exact absurd hname (hfree segp hlive)
  · obtain ⟨hp, hn, avail, rfl⟩ := segmentGet_some h hget
    have hpq : p = segp := h.unique p segp hp hlive (hn.trans hname.symm)
    subst hpq
    simp only [segmentRemove, hget, hmaps]
    refine ⟨rfl, ?_, ?_⟩
    · show (freeSegSlot (unmapSegment _ p) p).entries = _
      rw [freeSegSlot_entries, unmapSegment_entries]
      rfl
    · exact freeSegSlot_unmapSegment_heap (g := { g with segAvail := avail }) hmaps

/-- The table in one state, as an implementation of the map. -/
structure RefinesMap (g : Glctx) : Prop where
  /-- A lookup returns the live segment with the name, or NULL when there is
  none, and changes no live segment. -/
  get : ∀ name,
    (∀ segp, (segmentGet g name).1 = some segp ↔
      g.Live segp ∧ (g.heap segp).segName = some name) ∧
    (segmentGet g name).1.map g.heap = g.registry.lookup name ∧
    (segmentGet g name).2.liveSegs = g.liveSegs ∧ (segmentGet g name).2.registry = g.registry
  register : ∀ k type name range flags, type ≠ .segtNone → flags &&& segfMaps = 0 →
    RegisterRefines g (Opens k g type name range flags) type (basename name)
      (segmentRegister k g type name range flags)
  /-- Removal of a live segment that is not from the maps file. -/
  remove : ∀ segp name, g.Live segp → (g.heap segp).segName = some name →
    (g.heap segp).isMaps = false →
    (segmentRemove g name).1 = .segOk ∧
      (segmentRemove g name).2.liveSegs = g.liveSegs.filter (fun e => e.1 ≠ segp) ∧
      (segmentRemove g name).2.registry = g.registry.erase name

theorem RepInv.refinesMap {g : Glctx} (h : RepInv g) : RefinesMap g where
  get := by
    intro name
    have hsame := segmentGet_liveSegs h name
    refine ⟨?_, ?_, hsame, h.registry_congr (segmentGet_repInv h name) hsame⟩
    · intro segp
      rcases segmentGet_result h name with ⟨p, hp, hl, hn⟩ | ⟨hnone, hfree⟩
      · rw [hp]
        constructor
        · intro heq
          cases heq
          exact ⟨hl, hn⟩
        · rintro ⟨hl', hn'⟩
          rw [h.unique p segp hl hl' (hn.trans hn'.symm)]
      · rw [hnone]
        constructor
        · intro heq
          cases heq
        · rintro ⟨hl, hn⟩
          exact absurd hn (hfree segp hl)
    · rcases segmentGet_result h name with ⟨p, hp, hl, hn⟩ | ⟨hnone, hfree⟩
      · rw [hp, Option.map_some, h.registry_lookup.mpr ⟨p, hl, hn, rfl⟩]
      · rw [hnone, Option.map_none, h.registry_none.mpr hfree]
  register := by
    intro k type name range flags htype hmaps
    exact segmentRegister_refines k h name range htype hmaps
  remove := by
    intro segp name hlive hname hmaps
    have hr : RepInv (segmentRemove g name).2 :=
      Trans.preserved_of_star RepInv (fun _ _ hstep => hstep.repInv) (segmentRemove_star h name) h
    obtain ⟨hok, hent, hheap⟩ := segmentRemove_clears h hlive hname hmaps
    exact ⟨hok, liveSegs_erase hent hheap rfl, registry_erase h hr hlive hent hheap rfl hname⟩

/-- In every reachable state the table implements a finite map of capacity
`MAX_SEGMENTS`. -/
theorem segment_table_refines_map {g : Glctx} (h : (segSpec anyOp).Reachable g) : RefinesMap g :=
  (reachable_repInv h).refinesMap

/-- On the concrete machine the heap segment of the maps file is in the map. -/
theorem segment_table_refines_map_heap :
    (segSpec anyOp).Reachable sampleTable ∧
      (segmentGet sampleTable ['h', 'e', 'a', 'p']).1 = some 0 ∧ RefinesMap sampleTable :=
  ⟨sampleTable_reachable anyOp, by decide,
    segment_table_refines_map (sampleTable_reachable anyOp)⟩

end Memtoy
