import Memtoy.Lib.MachineWord
import Memtoy.Segment.Api

/-!
# Segment.Pages — page sizes, lengths and mappings

`seg_pagesize` is set by some of the register and map paths only. `PageInv` says
what a record's page size, length and start address have to do with each other
in every reachable state: a segment of the maps file has no page size but always
a start address; a segment that `mmap` or `shmget` has seen is a whole number of
pages long.
-/

namespace Memtoy

open CString MachineWord

/-! ## Rounding -/

theorem IsPageSize.ne_zero {n : Word} (h : IsPageSize n) : n ≠ 0 := by
  obtain ⟨k, -, hk, rfl⟩ := h
  intro hc
  have hpow := BitVec.toNat_twoPow_of_lt hk
  rw [hc] at hpow
  exact absurd hpow.symm (Nat.two_pow_pos k).ne'

theorem divides_roundUp {s : Segment} (h : IsPageSize s.segPagesize) (size : Word) :
    Divides s.segPagesize (roundUpToSegmentPagesize size s) := by
  obtain ⟨k, -, hk, heq⟩ := h
  simp only [roundUpToSegmentPagesize, heq]
  exact divides_mask hk _

theorem divides_roundDown {s : Segment} (h : IsPageSize s.segPagesize) (size : Word) :
    Divides s.segPagesize (roundDownToSegmentPagesize size s) := by
  obtain ⟨k, -, hk, heq⟩ := h
  simp only [roundDownToSegmentPagesize, heq]
  exact divides_mask hk _

theorem IsPageSize.divides_sub {n x y : Word} (h : IsPageSize n) (hx : Divides n x)
    (hy : Divides n y) : Divides n (x - y) := by
  obtain ⟨k, -, hk, rfl⟩ := h
  exact MachineWord.divides_sub hk hx hy

theorem roundUp_of_no_pagesize {s : Segment} (h : s.segPagesize = 0) (size : Word) :
    roundUpToSegmentPagesize size s = 0 := by
  simp only [roundUpToSegmentPagesize, h]
  exact mask_zero _

theorem roundDown_of_no_pagesize {s : Segment} (h : s.segPagesize = 0) (size : Word) :
    roundDownToSegmentPagesize size s = 0 := by
  simp only [roundDownToSegmentPagesize, h]
  exact mask_zero _

/-! ## The invariant -/

/-- The length is a whole number of pages. Without huge pages in the system a
huge page size and length are zero. -/
def Segment.Paged (s : Segment) : Prop :=
  (IsPageSize s.segPagesize ∧ Divides s.segPagesize s.segLength) ∨
    (s.segPagesize = 0 ∧ s.segLength = 0)

/-- What a live record's page size, length and start address have to do with
each other. -/
structure Segment.PagesOk (s : Segment) : Prop where
  maps : s.isMaps = true →
    s.segStart ≠ mapFailed ∧ s.segLength ≠ 0 ∧ s.segPagesize = 0 ∧ s.segType ≠ .segtShm
  mapped : s.isMaps = false → s.segStart ≠ mapFailed → s.Paged
  shm : s.segType = .segtShm → s.segShmid ≠ shmIdNone ∧ s.Paged

structure PageInv (g : Glctx) : Prop where
  pagesize : IsPageSize g.pagesize
  hugePagesize : g.hugePagesize = 0 ∨ IsPageSize g.hugePagesize
  records : AllLive Segment.PagesOk g

theorem paged_pageAlign (s : Segment) {pagesize : Word}
    (h : pagesize = 0 ∨ IsPageSize pagesize) : (s.pageAlign pagesize).Paged := by
  rcases h with rfl | h
  · exact Or.inr ⟨rfl, roundUp_of_no_pagesize (s := { s with segPagesize := 0 }) rfl _⟩
  · exact Or.inl ⟨h, divides_roundUp (s := { s with segPagesize := pagesize }) h _⟩

namespace Segment.PagesOk

variable {s s' : Segment}

theorem not_maps_of_unmapped (h : s.PagesOk) (hstart : s.segStart = mapFailed) :
    s.isMaps = false := by
  by_contra hc
  exact (h.maps (by simpa using hc)).1 hstart

/-- An anonymous or file segment that is not mapped has nothing to keep. -/
theorem of_unmapped (hmaps : s.isMaps = false) (hstart : s.segStart = mapFailed)
    (htype : s.segType ≠ .segtShm) : s.PagesOk where
  maps hm := by
    rw [hmaps] at hm
    cases hm
  mapped _ hst := absurd hstart hst
  shm ht := absurd ht htype

end Segment.PagesOk

theorem newSegment_pagesOk {g : Glctx} (h : PageInv g) {segp : SegPtr} {s : Segment}
    {calls : List SysCall} (hnew : NewSegment g segp s calls) : s.PagesOk := by
  cases hnew with
  | maps hmaps htype hstart hlen hpage _ _ =>
      have hne : s.segType ≠ .segtShm := by
        rcases htype with ht | ht <;> simp [ht]
      refine ⟨fun _ => ⟨hstart, hlen, hpage, hne⟩, ?_, fun ht => absurd ht hne⟩
      intro hm
      rw [hmaps] at hm
      cases hm
  | anon hmaps htype hstart _ _ => exact .of_unmapped hmaps hstart (by simp [htype])
  | file _ _ hmaps htype hstart _ _ => exact .of_unmapped hmaps hstart (by simp [htype])
  | @shm s₀ pagesize _ hmaps htype hstart _ hid hpage heq =>
      have hzero : pagesize = 0 ∨ IsPageSize pagesize := by
        rcases hpage with rfl | rfl
        · exact Or.inr h.pagesize
        · exact h.hugePagesize
      have hpaged : s.Paged := by
        rw [heq]
        exact paged_pageAlign s₀ hzero
      refine ⟨?_, fun _ hst => absurd hstart hst, fun _ => ⟨hid, hpaged⟩⟩
      intro hm
      rw [hmaps] at hm
      cases hm

/-- All steps leave the context's page sizes alone. -/
theorem Prim.pagesizes {g g' : Glctx} (hstep : Prim g g') :
    g'.pagesize = g.pagesize ∧ g'.hugePagesize = g.hugePagesize := by
  cases hstep with
  | unmapped _ hstart hmaps =>
      rw [unmapSegment_eq hstart hmaps]
      exact ⟨rfl, rfl⟩
  | freed _ _ _ =>
      rw [freeSegSlot_eq]
      exact ⟨rfl, rfl⟩
  | _ => exact ⟨rfl, rfl⟩

theorem Op.exec_pagesize (op : Op) (hok : op.Ok) {g : Glctx} (h : RepInv g) :
    (op.exec g).pagesize = g.pagesize :=
  Trans.preserved_of_star (fun g' => g'.pagesize = g.pagesize)
    (fun _ _ hstep heq => hstep.pagesizes.1.trans heq) (op.star hok h) rfl

/-- Every primitive step keeps the pages in order. -/
theorem Prim.pageInv {g g' : Glctx} (hrep : RepInv g) (hstep : Prim g g') (h : PageInv g) :
    PageInv g' := by
  have hsame := hstep.pagesizes
  refine ⟨by rw [hsame.1]; exact h.pagesize, by rw [hsame.2]; exact h.hugePagesize, ?_⟩
  have hrec := h.records
  cases hstep with
  | cache _ _ => exact hrec
  | alloc _ => exact hrec.alloc hrep
  | claim _ _ _ _ _ hnew => exact hrec.write rfl rfl (fun _ => newSegment_pagesOk h hnew)
  | call _ => exact hrec
  | @retune segp s hp htype hstart hre hflags =>
      refine hrec.write rfl rfl (fun _ => .of_unmapped ?_ (hre.start.trans hstart) ?_)
      · rcases hflags with hf | hf
        · exact isMaps_eq_false.mpr hf
        · have hold := isMaps_eq_false.mp ((hrec segp hp).not_maps_of_unmapped hstart)
          exact isMaps_eq_false.mpr (by rw [hf]; exact hold)
      · rw [hre.type]
        rcases htype with ht | ht <;> simp [ht]
  | @mapped segp _ upper lower _ _ _ memp hp htype hstart _ hpage hlen =>
      have hnot := (hrec segp hp).not_maps_of_unmapped hstart
      have hps : IsPageSize (g.heap segp).segPagesize := by rw [hpage]; exact h.pagesize
      have hdvd : Divides (g.heap segp).segPagesize (g.heap segp).segLength := by
        rw [hlen]
        exact hps.divides_sub (divides_roundUp hps _) (divides_roundDown hps _)
      refine hrec.write rfl rfl (fun _ => ⟨?_, fun _ _ => Or.inl ⟨hps, hdvd⟩, ?_⟩)
      · intro hm
        rw [show ({ g.heap segp with segStart := memp } : Segment).isMaps =
          (g.heap segp).isMaps from rfl, hnot] at hm
        cases hm
      · intro ht
        change (g.heap segp).segType = .segtShm at ht
        rcases htype with htype | htype <;> rw [htype] at ht <;> cases ht
  | @attached segp start hp htype hstart _ =>
      have hold := hrec segp hp
      refine hrec.write rfl rfl (fun _ => ⟨?_, fun _ _ => (hold.shm htype).2,
        fun _ => hold.shm htype⟩)
      intro hm
      rw [show ({ g.heap segp with segStart := start } : Segment).isMaps =
        (g.heap segp).isMaps from rfl, hold.not_maps_of_unmapped hstart] at hm
      cases hm
  | @reprotected segp prot hp =>
      have hold := hrec segp hp
      exact hrec.write rfl rfl (fun _ => ⟨hold.maps, hold.mapped, hold.shm⟩)
  | @unmapped segp hp hstart hmaps =>
      rw [unmapSegment_eq hstart hmaps]
      have hold := hrec segp hp
      refine hrec.write rfl rfl (fun _ => ⟨?_, fun _ hst => absurd rfl hst, hold.shm⟩)
      intro hm
      rw [show ({ g.heap segp with segStart := mapFailed } : Segment).isMaps =
        (g.heap segp).isMaps from rfl, hmaps] at hm
      cases hm
  | freed _ _ _ =>
      rw [freeSegSlot_eq]
      exact hrec.write rfl rfl (fun hne => absurd rfl hne)

theorem emptyTable_pageInv (cfg : Config) : PageInv (emptyTable cfg) := by
  refine ⟨cfg.pagesize_ok, cfg.huge_ok, ?_⟩
  intro p hp
  have hmem := hp.1
  rw [emptyTable_entries] at hmem
  exact absurd hmem List.not_mem_nil

/-- In every reachable state the pages are in order. -/
theorem reachable_pageInv {P : Op → Prop} {g : Glctx} (h : (segSpec P).Reachable g) : PageInv g :=
  (reachable_inv emptyTable_pageInv (fun _ _ hrep hstep hp => hstep.pageInv hrep hp) h).2

end Memtoy
