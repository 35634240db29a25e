import Mathlib.Data.Nat.Find
import Memtoy.Lib.ByteMemory
import Memtoy.Lib.Scan
import Memtoy.Segment.Remap

/-!
# Segment.Accesses — the pages `touch_memory` gets to

`touchLoop` says which accesses of the loop complete; `touchRunLoop` is the same loop
with the memory it writes to. Wherever the loop is left (`LeftAfter`), the accesses are
those of the pages before that point, each once, in order, and in write mode each word
holds its own address. `segment_touch` does not look at where the loop was left: its
report is right exactly when all pages of the range were touched.
-/

namespace Memtoy

open CString MachineWord ByteMemory

/-! ## Where the loop is left -/

/-- The number of accesses that complete, of `n` iterations from iteration `k` on. -/
def completed (ev : Nat → PageEvent) : (n k : Nat) → Nat
  | 0, _ => 0
  | n + 1, k =>
      match ev k with
      | .faults => 0
      | .signalled => 1
      | .completes => completed ev n (k + 1) + 1

/-- The loop over `n` pages is left after `j` accesses: all are done; or page `j`
faults; or a signal is noticed after page `j - 1`. -/
inductive LeftAfter (ev : Nat → PageEvent) (n : Nat) : Nat → Prop where
  | done : (∀ k < n, ev k = .completes) → LeftAfter ev n n
  | fault {j : Nat} : j < n → (∀ k < j, ev k = .completes) → ev j = .faults → LeftAfter ev n j
  | signal {j : Nat} : j < n → (∀ k < j, ev k = .completes) → ev j = .signalled →
      LeftAfter ev n (j + 1)

theorem LeftAfter.le {ev : Nat → PageEvent} {n c : Nat} (h : LeftAfter ev n c) : c ≤ n := by
  cases h with
  | done _ => exact le_rfl
  | fault hj _ _ => exact hj.le
  | signal hj _ _ => exact hj

/-- The first `j` of the iterations from `k` on are not the last ones. -/
theorem completed_add (ev : Nat → PageEvent) {j : Nat} :
    ∀ {k : Nat} (n : Nat), (∀ i < j, ev (k + i) = .completes) →
      completed ev (j + n) k = j + completed ev n (k + j) := by
  induction j with
  | zero =>
      intro k n _
      simp
  | succ j ih =>
      intro k n h
      have hk : ev k = .completes := h 0 (Nat.succ_pos j)
      have hrest : ∀ i < j, ev (k + 1 + i) = .completes := by
        intro i hi
        have hnext := h (i + 1) (Nat.succ_lt_succ hi)
        rwa [show k + (i + 1) = k + 1 + i by omega] at hnext
      rw [show j + 1 + n = (j + n) + 1 by omega, completed, hk]
      show completed ev (j + n) (k + 1) + 1 = _
      rw [ih n hrest, show k + 1 + j = k + (j + 1) by omega]
      omega

/-- `completed` counts up to where the loop is left, -/
theorem LeftAfter.completed {ev : Nat → PageEvent} {n j : Nat} (h : LeftAfter ev n j) :
    completed ev n 0 = j := by
  cases h with
  | done hall => simpa [Memtoy.completed] using completed_add ev (k := 0) 0 (by simpa using hall)
  | @fault j hj hall hev =>
      rcases Nat.exists_eq_add_of_lt hj with ⟨m, rfl⟩
      rw [Nat.add_assoc, completed_add ev (m + 1) (by simpa using hall)]
      simp [Memtoy.completed, hev]
  | @signal j hj hall hev =>
      rcases Nat.exists_eq_add_of_lt hj with ⟨m, rfl⟩
      rw [Nat.add_assoc, completed_add ev (m + 1) (by simpa using hall)]
      simp [Memtoy.completed, hev]

/-- and it is left somewhere: at the first iteration that is not the usual one. -/
theorem exists_leftAfter (ev : Nat → PageEvent) (n : Nat) : ∃ j, LeftAfter ev n j := by
  by_cases hall : ∀ k < n, ev k = .completes
  · exact ⟨n, .done hall⟩
  · push Not at hall
    classical
    have hfirst := Nat.find_spec hall
    have hbefore : ∀ k < Nat.find hall, ev k = .completes := by
      intro k hk
      by_contra hc
      exact Nat.find_min hall hk ⟨hk.trans hfirst.1, hc⟩
    cases hev : ev (Nat.find hall) with
    | completes => exact absurd hev hfirst.2
    | faults => exact ⟨_, .fault hfirst.1 hbefore hev⟩
    | signalled => exact ⟨_, .signal hfirst.1 hbefore hev⟩

theorem leftAfter_iff {ev : Nat → PageEvent} {n j : Nat} :
    LeftAfter ev n j ↔ completed ev n 0 = j := by
  constructor
  · exact LeftAfter.completed
  · rintro rfl
    rcases exists_leftAfter ev n with ⟨j, hj⟩
    rw [hj.completed]
    exact hj

/-! ## The addresses -/

/-- The first `c` addresses from `pp` on. -/
def pageAddresses (pp stride : Word) (c : Nat) : List Word :=
  (List.range c).map fun i => pp + BitVec.ofNat 64 (i * stride.toNat)

theorem pageAddresses_succ (pp stride : Word) (c : Nat) :
    pageAddresses pp stride (c + 1) = pp :: pageAddresses (pp + stride) stride c := by
  rw [pageAddresses, List.range_succ_eq_map, List.map_cons, List.map_map, pageAddresses]
  refine congrArg₂ List.cons (by simp) (List.map_congr_left fun i _ => ?_)
  -- stride `i + 1` from `pp` is stride `i` from the next address
  have hword : BitVec.ofNat 64 ((i + 1) * stride.toNat) =
      stride + BitVec.ofNat 64 (i * stride.toNat) := by
    apply BitVec.eq_of_toNat_eq
    rw [BitVec.toNat_add, BitVec.toNat_ofNat, BitVec.toNat_ofNat, Nat.succ_mul,
      Nat.add_mod_mod, Nat.add_comm]
  show pp + BitVec.ofNat 64 ((i + 1) * stride.toNat) = _
  rw [hword, BitVec.add_assoc]

/-- The addresses in exact arithmetic, while they are below the end of a range that does not
wrap around. -/
theorem toNat_pageAddresses {pp stride : Word} {n c : Nat} (hc : c ≤ n)
    (hend : pp.toNat + n * stride.toNat < 2 ^ 64) :
    (pageAddresses pp stride c).map BitVec.toNat =
      (List.range c).map fun i => pp.toNat + i * stride.toNat := by
  rw [pageAddresses, List.map_map]
  refine List.map_congr_left fun i hi => ?_
  have hlt : i * stride.toNat ≤ n * stride.toNat :=
    Nat.mul_le_mul_right _ ((List.mem_range.mp hi).le.trans hc)
  show (pp + BitVec.ofNat 64 (i * stride.toNat)).toNat = _
  rw [BitVec.toNat_add, BitVec.toNat_ofNat, Nat.mod_eq_of_lt (a := i * stride.toNat) (by omega),
    Nat.mod_eq_of_lt (by omega)]

/-- The loop over exactly `n` strides. -/
theorem touchLoop_eq (ev : Nat → PageEvent) {memend stride : Word} (hstride : 0 < stride.toNat) :
    ∀ {n fuel : Nat} (k : Nat) {pp : Word}, memend.toNat = pp.toNat + n * stride.toNat →
      n ≤ fuel →
      touchLoop ev memend stride fuel k pp =
        some (pageAddresses pp stride (completed ev n k)) := by
  intro n
  induction n with
  | zero =>
      intro fuel k pp hend _
      have hle : memend ≤ pp := by
        rw [BitVec.le_def]
        omega
      cases fuel <;> rw [touchLoop, if_pos hle] <;> rfl
  | succ n ih =>
      intro fuel k pp hend hfuel
      obtain ⟨fuel, rfl⟩ := Nat.exists_eq_succ_of_ne_zero (by omega : fuel ≠ 0)
      rw [Nat.succ_mul] at hend
      have hlt : ¬ memend ≤ pp := by
        rw [BitVec.le_def]
        omega
      -- the next address does not wrap around: the end is not before it
      have hnext : (pp + stride).toNat = pp.toNat + stride.toNat := by
        have hmem := memend.isLt
        rw [BitVec.toNat_add, Nat.mod_eq_of_lt (by omega)]
      rw [touchLoop, if_neg hlt, completed]
      cases ev k with
      | faults => rfl
      | signalled => simp [pageAddresses]
      | completes =>
          simp only
          rw [@ih _ (k + 1) (pp + stride) (by omega) (by omega), pageAddresses_succ]
          rfl

/-- `touch_memory` over a range of whole pages that does not wrap around. -/
theorem touchMemory_eq (ev : Nat → PageEvent) {fuel : Nat} {memp length pagesize : Word}
    (hpos : 0 < pagesize.toNat) (h8 : 8 ∣ pagesize.toNat) (hdvd : Divides pagesize length)
    (hwrap : memp.toNat + length.toNat < 2 ^ 64)
    (hfuel : length.toNat / pagesize.toNat ≤ fuel) :
    touchMemory ev fuel memp length pagesize =
      some (pageAddresses memp pagesize (completed ev (length.toNat / pagesize.toNat) 0)) := by
  have hend : (memp + length).toNat =
      memp.toNat + length.toNat / pagesize.toNat * pagesize.toNat := by
    rw [BitVec.toNat_add, Nat.mod_eq_of_lt hwrap, Nat.div_mul_cancel hdvd]
  simp only [touchMemory, longs_cancel h8, longs_cancel (Nat.dvd_trans h8 hdvd)]
  exact touchLoop_eq ev hpos 0 hend hfuel

/-! ## The memory -/

/-- What the loop accessed and what it left in memory. -/
structure TouchRun where
  accessed : List Word
  mem : Mem 64

/-- `if (rw) *pp = (unsigned long)pp; else sink = *pp;` -/
def touchAccess (rw : Bool) (mem : Mem 64) (pp : Word) : Mem 64 :=
  if rw then store 8 mem pp pp else mem

/-- `touchLoop` with the memory; an access that faults has not stored anything. -/
def touchRunLoop (ev : Nat → PageEvent) (rw : Bool) (memend stride : Word) :
    (fuel k : Nat) → (pp : Word) → Mem 64 → Option TouchRun
  | fuel, k, pp, mem =>
      if memend ≤ pp then some ⟨[], mem⟩
      else
        match fuel with
        | 0 => none
        | fuel + 1 =>
            match ev k with
            | .faults => some ⟨[], mem⟩
            | .signalled => some ⟨[pp], touchAccess rw mem pp⟩
            | .completes =>
                (touchRunLoop ev rw memend stride fuel (k + 1) (pp + stride)
                  (touchAccess rw mem pp)).map fun r => { r with accessed := pp :: r.accessed }

/-- `touch_memory()` with the memory. -/
def touchMemoryRun (ev : Nat → PageEvent) (fuel : Nat) (rw : Bool) (memp memlen pagesize : Word)
    (mem : Mem 64) : Option TouchRun :=
  let longsInPage := pagesize / sizeofLong
  let memend := memp + memlen / sizeofLong * sizeofLong
  touchRunLoop ev rw memend (longsInPage * sizeofLong) fuel 0 memp mem

/-- The loop with the memory accesses what the loop accesses, and stores there. -/
theorem touchRunLoop_eq (ev : Nat → PageEvent) (rw : Bool) (memend stride : Word) (fuel : Nat) :
    ∀ (k : Nat) (pp : Word) (mem : Mem 64),
      touchRunLoop ev rw memend stride fuel k pp mem =
        (touchLoop ev memend stride fuel k pp).map fun ps =>
          ⟨ps, if rw then storeAll 8 id mem ps else mem⟩ := by
  induction fuel with
  | zero =>
      intro k pp mem
      rw [touchRunLoop, touchLoop]
      split <;> simp [storeAll]
  | succ fuel ih =>
      intro k pp mem
      rw [touchRunLoop, touchLoop]
      split
      · simp [storeAll]
      · cases ev k with
        | faults => simp [storeAll]
        | signalled => cases rw <;> rfl
        | completes =>
            simp only
            rw [ih, Option.map_map, Option.map_map]
            refine congrArg (Option.map · _) (funext fun ps => ?_)
            cases rw <;> rfl

/-- What `touch_memory` has done when it is left after `c` of the pages. -/
structure TouchesPages (rw : Bool) (start pagesize c : Nat) (mem : Mem 64) (run : TouchRun) :
    Prop where
  /-- The addresses accessed, one in each page, in order. -/
  accessed : run.accessed.map BitVec.toNat = (List.range c).map fun k => start + k * pagesize
  /-- No address is accessed twice. -/
  once : run.accessed.Nodup
  reads : rw = false → run.mem = mem
  /-- In write mode every accessed word has its own address, -/
  writes : rw = true → ∀ p ∈ run.accessed, Holds 8 run.mem p p
  /-- and no other byte has changed. -/
  frame : ∀ a, (∀ p ∈ run.accessed, ¬ InSpan 8 p a) → run.mem a = mem a

/-- Words of different pages do not overlap. -/
theorem pageAddresses_apart {start pagesize : Word} {n c : Nat} (hc : c ≤ n)
    (h8 : 8 ≤ pagesize.toNat) (hend : start.toNat + n * pagesize.toNat < 2 ^ 64) :
    (pageAddresses start pagesize c).Pairwise (Apart 8) := by
  have hnat := toNat_pageAddresses hc hend
  rw [List.pairwise_iff_getElem]
  intro i j hi hj hij
  have hjc : j < c := by simpa [pageAddresses] using hj
  have hget : ∀ k (hk : k < (pageAddresses start pagesize c).length),
      ((pageAddresses start pagesize c)[k]).toNat = start.toNat + k * pagesize.toNat := by
    intro k hk
    have hmap := List.getElem_map BitVec.toNat (l := pageAddresses start pagesize c) (i := k)
      (h := by simpa using hk)
    rw [← hmap]
    simp only [hnat, List.getElem_map, List.getElem_range]
  have hstep : (i + 1) * pagesize.toNat ≤ j * pagesize.toNat := Nat.mul_le_mul_right _ hij
  have hlast : (j + 1) * pagesize.toNat ≤ n * pagesize.toNat :=
    Nat.mul_le_mul_right _ (by omega)
  rw [Nat.succ_mul] at hstep hlast
  apply apart_of_le
  · rw [hget, hget]
    omega
  · rw [hget]
    omega

/-- `touch_memory` returns, and wherever its loop is left it has touched exactly the pages
before that point: all of them when nothing happens, those before page `j` when that page
faults, those up to page `j` when a signal is noticed after it. -/
theorem touchMemory_touches_pages (ev : Nat → PageEvent) (rw : Bool) (mem : Mem 64)
    {start length pagesize : Word} (hpos : 0 < pagesize.toNat) (h8 : 8 ∣ pagesize.toNat)
    (hdvd : Divides pagesize length) (hwrap : start.toNat + length.toNat < 2 ^ 64) :
    let n := length.toNat / pagesize.toNat
    ∃ run, (∀ fuel, n ≤ fuel → touchMemoryRun ev fuel rw start length pagesize mem = some run) ∧
      ((∀ k < n, ev k = .completes) →
        TouchesPages rw start.toNat pagesize.toNat n mem run) ∧
      (∀ j < n, (∀ k < j, ev k = .completes) → ev j = .faults →
        TouchesPages rw start.toNat pagesize.toNat j mem run) ∧
      ∀ j < n, (∀ k < j, ev k = .completes) → ev j = .signalled →
        TouchesPages rw start.toNat pagesize.toNat (j + 1) mem run := by
  intro n
  have hrange : start.toNat + n * pagesize.toNat < 2 ^ 64 := by
    rwa [Nat.div_mul_cancel hdvd]
  have htouches : ∀ c, LeftAfter ev n c → TouchesPages rw start.toNat pagesize.toNat c mem
      ⟨pageAddresses start pagesize (completed ev n 0),
        if rw then storeAll 8 id mem (pageAddresses start pagesize (completed ev n 0)) else mem⟩ := by
    intro c hleft
    have hc := hleft.le
    rw [hleft.completed]
    have hnat := toNat_pageAddresses hc hrange
    have hapart := pageAddresses_apart hc (Nat.le_of_dvd hpos h8) hrange
    refine ⟨hnat, ?_, ?_, ?_, ?_⟩
    · apply List.Nodup.of_map BitVec.toNat
      rw [hnat]
      refine List.nodup_range.map ?_
      intro i j hij
      exact Nat.eq_of_mul_eq_mul_right hpos (Nat.add_left_cancel hij)
    · rintro rfl
      rfl
    · rintro rfl
      exact holds_storeAll id hapart mem
    · intro a ha
      cases rw with
      | false => rfl
      | true => exact storeAll_frame id ha mem
  refine ⟨_, ?_, fun hall => htouches n (.done hall), ?_, ?_⟩
  · intro fuel hfuel
    have hrun := touchMemory_eq ev hpos h8 hdvd hwrap hfuel
    show touchRunLoop ev rw _ _ fuel 0 start mem = _
    rw [touchRunLoop_eq]
    exact congrArg (Option.map _) hrun
  · exact fun j hj hall hev => htouches j (.fault hj hall hev)
  · exact fun j hj hall hev => htouches (j + 1) (.signal hj hall hev)

/-- A page fault in the second of three pages, while they are written. -/
theorem touchMemory_touches_pages_fault :
    ∃ run, (∀ fuel, 3 ≤ fuel →
        touchMemoryRun (fun k => if k = 1 then .faults else .completes) fuel true 0x10000#64
          0x3000#64 0x1000#64 (fun _ => 0) = some run) ∧
      TouchesPages true 0x10000 0x1000 1 (fun _ => 0) run := by
  obtain ⟨run, hruns, -, hfault, -⟩ := @touchMemory_touches_pages
    (fun k => if k = 1 then .faults else .completes) true (fun _ => 0) 0x10000#64 0x3000#64
    0x1000#64 (by decide) (by decide)
    (by unfold Divides; decide) (by decide)
  refine ⟨run, hruns, hfault 1 (by decide) ?_ rfl⟩
  intro k hk
  rw [if_neg (by omega)]

/-! ## The report of `segment_touch` -/

/-- A segment the kernel has mapped: its addresses do not wrap around. -/
def Segment.InMemory (s : Segment) : Prop :=
  s.segStart ≠ mapFailed ∧ s.segStart.toNat + s.segLength.toNat < 2 ^ 64

/-- A mapped segment with a page size is a whole number of pages. -/
theorem Segment.PagesOk.whole_pages {s : Segment} (h : s.PagesOk) (hstart : s.segStart ≠ mapFailed)
    (hpage : 0 < s.segPagesize.toNat) :
    s.isMaps = false ∧ IsPageSize s.segPagesize ∧ Divides s.segPagesize s.segLength := by
  have hne : s.segPagesize ≠ 0 := by
    intro hzero
    rw [hzero] at hpage
    exact absurd hpage (lt_irrefl 0)
  have hmaps : s.isMaps = false := by
    by_contra hc
    exact hne (h.maps (by simpa using hc)).2.2.1
  rcases h.mapped hmaps hstart with ⟨hps, hdvd⟩ | ⟨hzero, -⟩
  · exact ⟨hmaps, hps, hdvd⟩
  · exact absurd hzero hne

/-- The settled range of an offset in the segment, in exact arithmetic. -/
theorem clampRange_pages {s : Segment} (hps : IsPageSize s.segPagesize)
    (hdvd : Divides s.segPagesize s.segLength) (range : Range)
    (hoff : floorTo s.segPagesize.toNat range.offset.toNat < s.segLength.toNat) :
    ∃ offset length, clampRange s range = some (offset, length) ∧
      offset.toNat = floorTo s.segPagesize.toNat range.offset.toNat ∧
      length.toNat = exactLength s.segPagesize.toNat s.segLength.toNat
        (floorTo s.segPagesize.toNat range.offset.toNat) range.length.toNat ∧
      offset.toNat + length.toNat ≤ s.segLength.toNat ∧ Divides s.segPagesize length ∧
      0 < length.toNat := by
  have hpow := hps.powerOfTwo
  have hlt := s.segLength.isLt
  obtain ⟨hpos, hin, hldvd⟩ := exactLength_spec hpow.pos hdvd
    (dvd_floorTo s.segPagesize.toNat range.offset.toNat) hoff range.length.toNat
  have ho : (BitVec.ofNat 64 (floorTo s.segPagesize.toNat range.offset.toNat)).toNat =
      floorTo s.segPagesize.toNat range.offset.toNat := by
    rw [BitVec.toNat_ofNat, Nat.mod_eq_of_lt (by omega)]
  have hl : (BitVec.ofNat 64 (exactLength s.segPagesize.toNat s.segLength.toNat
      (floorTo s.segPagesize.toNat range.offset.toNat) range.length.toNat)).toNat =
      exactLength s.segPagesize.toNat s.segLength.toNat
        (floorTo s.segPagesize.toNat range.offset.toNat) range.length.toNat := by
    rw [BitVec.toNat_ofNat, Nat.mod_eq_of_lt (by omega)]
  refine ⟨_, _, ?_, ho, hl, ?_, ?_, ?_⟩
  · rw [clampRange_exact hpow, if_neg (by omega)]
  · rw [ho, hl]
    exact hin
  · rw [Divides, hl]
    exact hldvd
  · rw [hl]
    exact hpos

/-- When the number of pages in the report is the number of pages touched. The loop is not
left before the last page, and the number is printed as it is; or, of more pages than `%d`
can print, exactly as many are touched as it happens to print. -/
def ReportsTouched (ev : Nat → PageEvent) (n : Nat) : Prop :=
  (n < 2 ^ 31 ∧ ∀ k < n, ev k ≠ .faults ∧ (k + 1 < n → ev k ≠ .signalled)) ∨
    (2 ^ 32 ≤ n ∧ n % 2 ^ 32 < 2 ^ 31 ∧ LeftAfter ev n (n % 2 ^ 32))

/-- All pages are touched. -/
theorem leftAfter_all_iff {ev : Nat → PageEvent} {n : Nat} :
    LeftAfter ev n n ↔ ∀ k < n, ev k ≠ .faults ∧ (k + 1 < n → ev k ≠ .signalled) := by
  constructor
  · intro h k hk
    cases h with
    | done hall => simp [hall k hk]
    | fault hlt _ _ => exact absurd hlt (lt_irrefl n)
    | @signal j _ hall hev =>
        -- the signal comes after the last page
        rcases Nat.lt_succ_iff_lt_or_eq.mp hk with hlt | rfl
        · simp [hall k hlt]
        · exact ⟨by simp [hev], fun hc => absurd hc (lt_irrefl _)⟩
  · intro h
    have hcompletes : ∀ k, k + 1 < n → ev k = .completes := by
      intro k hk
      obtain ⟨hfault, hsignal⟩ := h k (by omega)
      cases hev : ev k with
      | completes => rfl
      | faults => exact absurd hev hfault
      | signalled => exact absurd hev (hsignal hk)
    cases n with
    | zero => exact .done fun k hk => absurd hk (Nat.not_lt_zero k)
    | succ m =>
        cases hev : ev m with
        | faults => exact absurd hev (h m (Nat.lt_succ_self m)).1
        | signalled =>
            exact .signal (Nat.lt_succ_self m) (fun k hk => hcompletes k (by omega)) hev
        | completes =>
            refine .done fun k hk => ?_
            rcases Nat.lt_succ_iff_lt_or_eq.mp hk with hlt | rfl
            · exact hcompletes k (by omega)
            · exact hev

/-- What `%d` prints of a count of pages. -/
theorem toInt32_eq_iff {v : Word} {c : Nat} :
    toInt32 v = (c : Int) ↔ v.toNat % 2 ^ 32 < 2 ^ 31 ∧ c = v.toNat % 2 ^ 32 := by
  rw [toInt32, BitVec.toInt_eq_toNat_cond, BitVec.truncate_eq_setWidth, BitVec.toNat_setWidth]
  split <;> omega

theorem reportsTouched_iff {ev : Nat → PageEvent} {n c : Nat} (hc : LeftAfter ev n c) :
    (n % 2 ^ 32 < 2 ^ 31 ∧ c = n % 2 ^ 32) ↔ ReportsTouched ev n := by
  have hunique : ∀ j, LeftAfter ev n j ↔ c = j := by
    intro j
    rw [leftAfter_iff, hc.completed]
  rw [ReportsTouched, ← leftAfter_all_iff, hunique, hunique]
  have hle := hc.le
  omega

/-- In every reachable state, for every mapped segment with a page size, every range in it
and every pattern of faults and signals: `segment_touch` reports the number of pages it
touched exactly when the loop is not left before the last page, up to what `%d` makes of
2 ^ 31 pages and more. -/
theorem touch_report_iff {g : Glctx} (h : (segSpec anyOp).Reachable g) {segp : SegPtr}
    {name : CStr} (hlive : g.Live segp) (hname : (g.heap segp).segName = some name)
    (hmapped : (g.heap segp).InMemory) (hpage : 0 < (g.heap segp).segPagesize.toNat)
    (range : Range) (rw : Bool) (ev : Nat → PageEvent)
    (hoff : floorTo (g.heap segp).segPagesize.toNat range.offset.toNat <
      (g.heap segp).segLength.toNat) :
    let p := (g.heap segp).segPagesize.toNat
    let n := exactLength p (g.heap segp).segLength.toNat (floorTo p range.offset.toNat)
      range.length.toNat / p
    ∃ report g', (∀ fuel, n ≤ fuel →
        segmentTouch ev fuel g name range rw = (.segOk report, g')) ∧
      (toInt32 report.pages = (report.touched.length : Int) ↔ ReportsTouched ev n) := by
  intro p n
  obtain ⟨hstart, hfits⟩ := hmapped
  obtain ⟨hmaps, hps, hdvd⟩ := ((reachable_pageInv h).records segp hlive).whole_pages hstart hpage
  obtain ⟨avail, hget⟩ := segmentGet_live (reachable_repInv h) hlive hname
  obtain ⟨offset, length, hclamp, hoffset, hlength, hin, hldvd, -⟩ :=
    clampRange_pages hps hdvd range hoff
  have hmemp : ((g.heap segp).segStart + offset).toNat =
      (g.heap segp).segStart.toNat + offset.toNat := by
    rw [BitVec.toNat_add, Nat.mod_eq_of_lt (by omega)]
  have hn : length.toNat / (g.heap segp).segPagesize.toNat = n := by rw [hlength]
  refine ⟨⟨pageAddresses ((g.heap segp).segStart + offset) (g.heap segp).segPagesize
    (completed ev n 0), length / (g.heap segp).segPagesize⟩,
    Glctx.emit { g with segAvail := avail } (.touchMemory segp rw
      ((g.heap segp).segStart + offset) length (g.heap segp).segPagesize), ?_, ?_⟩
  · intro fuel hfuel
    have htouch := @touchMemory_eq ev fuel ((g.heap segp).segStart + offset) length _
      hpage hps.eight_dvd hldvd (by omega) (by omega)
    simp only [segmentTouch, hget, hmaps, hclamp, htouch, hn, if_neg hps.ne_zero]
    rw [if_neg (by simp)]
  · obtain ⟨c, hc⟩ := exists_leftAfter ev n
    have hlen : (pageAddresses ((g.heap segp).segStart + offset) (g.heap segp).segPagesize
        (completed ev n 0)).length = c := by
      rw [pageAddresses, List.length_map, List.length_range, hc.completed]
    simp only [hlen]
    rw [toInt32_eq_iff, BitVec.toNat_udiv, hn]
    exact reportsTouched_iff hc

theorem sampleMapped_inMemory : (sampleMapped.heap 1).InMemory := ⟨by decide, by decide⟩

/-- Two pages that are there. -/
theorem touch_report_iff_all : ∃ report g',
    (∀ fuel, 2 ≤ fuel → segmentTouch (fun _ => .completes) fuel sampleMapped ['a'] ⟨0, 0, 0⟩ false =
      (.segOk report, g')) ∧
    toInt32 report.pages = (report.touched.length : Int) := by
  have hlive : sampleMapped.Live 1 := ⟨by decide, by decide⟩
  have hname : (sampleMapped.heap 1).segName = some ['a'] := by decide
  obtain ⟨report, g', hruns, hiff⟩ := touch_report_iff sampleMapped_reachable hlive hname
    sampleMapped_inMemory (by decide) ⟨0, 0, 0⟩ false (fun _ => .completes) (by decide)
  exact ⟨report, g', fun fuel hfuel => hruns fuel hfuel,
    hiff.mpr (Or.inl ⟨by decide, fun k _ => by simp⟩)⟩

/-- A fault in the first of two pages: nothing is touched, and two pages are reported. -/
theorem touch_report_fault :
    (segSpec anyOp).Reachable sampleMapped ∧ sampleMapped.Live 1 ∧
      (sampleMapped.heap 1).segName = some ['a'] ∧ (sampleMapped.heap 1).InMemory ∧
      0 < (sampleMapped.heap 1).segPagesize.toNat ∧
      ∃ report, (segmentTouch (fun _ => .faults) 2 sampleMapped ['a'] ⟨0, 0, 0⟩ false).1 =
          .segOk report ∧
        report.touched.length = 0 ∧ toInt32 report.pages = 2 := by
  refine ⟨sampleMapped_reachable, ⟨by decide, by decide⟩, by decide, sampleMapped_inMemory,
    by decide, ⟨[], 2#64⟩, ?_, rfl, by decide⟩
  decide

end Memtoy
