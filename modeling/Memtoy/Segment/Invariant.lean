import Mathlib.Data.List.Nodup
import Memtoy.Segment.Range

/-!
# Segment.Invariant — the representation invariant of the segment table

`RepInv` says what every scan of `seglist` relies on: the non-NULL entries form
a prefix that leaves room for the terminating NULL, entry `i` is the segment
with slot number `i`, and `seg_avail` is an unused slot of the table. The two
scans are described once, on a table in that shape; the rest of the development
reasons with `Glctx.entries`, the list of the non-NULL entries.
-/

namespace Memtoy

open CString

namespace Glctx

/-- The non-NULL entries of `seglist`, in order. -/
def entries (g : Glctx) : List SegPtr := g.seglist.reduceOption

theorem entries_eq (g : Glctx) : g.entries = g.seglist.filterMap id := rfl

/-- A live segment: an entry of the table that is in use. -/
def Live (g : Glctx) (segp : SegPtr) : Prop :=
  segp ∈ g.entries ∧ (g.heap segp).segType ≠ .segtNone

/-- An unused slot of the table. -/
def Unused (g : Glctx) (segp : SegPtr) : Prop :=
  segp ∈ g.entries ∧ (g.heap segp).segType = .segtNone

/-- No live segment is named `name`. -/
def NameFree (g : Glctx) (name : CStr) : Prop :=
  ∀ segp, g.Live segp → (g.heap segp).segName ≠ some name

@[simp] theorem entries_setSeg (g : Glctx) (segp : SegPtr) (s : Segment) :
    (g.setSeg segp s).entries = g.entries := rfl

@[simp] theorem entries_emit (g : Glctx) (c : SysCall) : (g.emit c).entries = g.entries := rfl

end Glctx

/-- The representation invariant of the segment table. -/
structure RepInv (g : Glctx) : Prop where
  shape : g.seglist = g.entries.map some ++
    List.replicate (maxSegments + 1 - g.entries.length) none
  bound : g.entries.length ≤ maxSegments
  slot : ∀ (i : Nat) (segp : SegPtr), g.entries[i]? = some segp → (g.heap segp).segSlot = i
  fresh : ∀ segp ∈ g.entries, segp < g.brk
  avail : ∀ segp, g.segAvail = some segp → g.Unused segp
  named : ∀ segp, g.Live segp → ∃ name, (g.heap segp).segName = some name
  unique : ∀ p q, g.Live p → g.Live q → (g.heap p).segName = (g.heap q).segName → p = q
  cleared : ∀ segp, g.Unused segp →
    g.heap segp = { Segment.zero with segSlot := (g.heap segp).segSlot }

namespace RepInv

variable {g : Glctx}

/-- No two entries are the same segment: they have different slot numbers. -/
theorem nodup (h : RepInv g) : g.entries.Nodup := by
  rw [List.nodup_iff_getElem?_ne_getElem?]
  intro i j hij hj heq
  have hi : i < g.entries.length := by omega
  have h1 := h.slot i _ (List.getElem?_eq_getElem hi)
  have h2 : g.entries[j]? = some g.entries[i] := by
    rw [← heq, List.getElem?_eq_getElem hi]
  have h3 := h.slot j _ h2
  omega

/-- Below the last entry `seglist` is a NULL followed by more NULLs. -/
theorem shape_cons (h : RepInv g) : g.seglist = g.entries.map some ++
    none :: List.replicate (maxSegments - g.entries.length) none := by
  have hb := h.bound
  have hlen : maxSegments + 1 - g.entries.length = (maxSegments - g.entries.length) + 1 := by omega
  have hs := h.shape
  rw [hlen, List.replicate_succ] at hs
  exact hs

end RepInv

/-! ## The scans on a table in shape -/

/-- What a scan may have done to `seg_avail`: nothing, or remember one of the
unused entries it passed. -/
def AvailStep (heap : SegPtr → Segment) (ps : List SegPtr) (avail avail' : Option SegPtr) : Prop :=
  avail' = avail ∨
    (avail = none ∧ ∃ q ∈ ps, (heap q).segType = .segtNone ∧ avail' = some q)

theorem AvailStep.cons {heap : SegPtr → Segment} {p : SegPtr} {ps : List SegPtr}
    {avail avail' : Option SegPtr} (h : AvailStep heap ps avail avail') :
    AvailStep heap (p :: ps) avail avail' := by
  rcases h with h | ⟨hnone, q, hq, htype, h⟩
  · exact Or.inl h
  · exact Or.inr ⟨hnone, q, List.mem_cons_of_mem p hq, htype, h⟩

/-- The scan of `segment_get` either stops at a used entry with the name, or
passes all entries, none of which is used under that name; in the second case
`seg_avail` is left NULL only when there is no unused entry at all. -/
theorem scanName_spec (heap : SegPtr → Segment) (name : CStr) (tl : List (Option SegPtr)) :
    ∀ (ps : List SegPtr) (avail : Option SegPtr) (i : Nat),
      (∃ p avail', scanName heap name (ps.map some ++ none :: tl) avail i = .hit p avail' ∧
        p ∈ ps ∧ (heap p).segType ≠ .segtNone ∧ (heap p).segName = some name ∧
        AvailStep heap ps avail avail') ∨
      (∃ avail', scanName heap name (ps.map some ++ none :: tl) avail i =
          .miss avail' (i + ps.length) ∧
        (∀ p ∈ ps, (heap p).segType ≠ .segtNone → (heap p).segName ≠ some name) ∧
        AvailStep heap ps avail avail' ∧
        (avail' = none → ∀ p ∈ ps, (heap p).segType ≠ .segtNone)) := by
  intro ps
  induction ps with
  | nil =>
      intro avail i
      exact Or.inr ⟨avail, by simp [scanName], by simp, Or.inl rfl, by simp⟩
  | cons p ps ih =>
      intro avail i
      by_cases htype : (heap p).segType = .segtNone
      · -- an unused entry: remembered when nothing is cached yet
        have hscan : scanName heap name ((p :: ps).map some ++ none :: tl) avail i =
            scanName heap name (ps.map some ++ none :: tl)
              (if avail = none then some p else avail) (i + 1) := by
          simp [scanName, htype]
        have hlift : ∀ avail', AvailStep heap ps (if avail = none then some p else avail) avail' →
            AvailStep heap (p :: ps) avail avail' ∧ avail' ≠ none := by
          intro avail' h
          by_cases hav : avail = none
          · rw [if_pos hav] at h
            rcases h with h | ⟨hnone, -⟩
            · exact ⟨Or.inr ⟨hav, p, List.mem_cons_self, htype, h⟩, by simp [h]⟩
            · simp at hnone
          · rw [if_neg hav] at h
            rcases h with h | ⟨hnone, -⟩
            · exact ⟨Or.inl h, by rw [h]; exact hav⟩
            · exact absurd hnone hav
        rw [hscan]
        rcases ih (if avail = none then some p else avail) (i + 1) with
          ⟨q, avail', heq, hq, hlive, hname, hstep⟩ | ⟨avail', heq, hno, hstep, -⟩
        · exact Or.inl ⟨q, avail', heq, List.mem_cons_of_mem p hq, hlive, hname, (hlift _ hstep).1⟩
        · refine Or.inr ⟨avail', ?_, ?_, (hlift _ hstep).1, ?_⟩
          · rw [heq, List.length_cons, Nat.add_assoc, Nat.add_comm 1]
          · intro q hq hlive
            rcases List.mem_cons.mp hq with rfl | hq
            · exact absurd htype hlive
            · exact hno q hq hlive
          · intro hnone
            exact absurd hnone (hlift _ hstep).2
      · -- a used entry: the scan stops at it, or goes on with the cache as it was
        by_cases hname : (heap p).segName = some name
        · exact Or.inl ⟨p, avail, by simp [scanName, htype, hname], List.mem_cons_self, htype,
            hname, Or.inl rfl⟩
        · have hscan : scanName heap name ((p :: ps).map some ++ none :: tl) avail i =
              scanName heap name (ps.map some ++ none :: tl) avail (i + 1) := by
            simp [scanName, htype, hname]
          rw [hscan]
          rcases ih avail (i + 1) with
            ⟨q, avail', heq, hq, hlive, hqname, hstep⟩ | ⟨avail', heq, hno, hstep, hall⟩
          · exact Or.inl ⟨q, avail', heq, List.mem_cons_of_mem p hq, hlive, hqname, hstep.cons⟩
          · refine Or.inr ⟨avail', ?_, ?_, hstep.cons, ?_⟩
            · rw [heq, List.length_cons, Nat.add_assoc, Nat.add_comm 1]
            · intro q hq hlive
              rcases List.mem_cons.mp hq with rfl | hq
              · exact hname
              · exact hno q hq hlive
            · intro hnone q hq
              rcases List.mem_cons.mp hq with rfl | hq
              · exact htype
              · exact hall hnone q hq

/-- The scan of `get_seg_slot` finds an unused entry, or there is none and it
stops at the NULL behind the last entry. -/
theorem scanUnused_spec (heap : SegPtr → Segment) (tl : List (Option SegPtr)) :
    ∀ (ps : List SegPtr) (i : Nat),
      (∃ p ∈ ps, scanUnused heap (ps.map some ++ none :: tl) i = .found p ∧
        (heap p).segType = .segtNone) ∨
      (scanUnused heap (ps.map some ++ none :: tl) i = .stop (i + ps.length) ∧
        ∀ p ∈ ps, (heap p).segType ≠ .segtNone) := by
  intro ps
  induction ps with
  | nil =>
      intro i
      exact Or.inr ⟨by simp [scanUnused], by simp⟩
  | cons p ps ih =>
      intro i
      by_cases htype : (heap p).segType = .segtNone
      · exact Or.inl ⟨p, List.mem_cons_self, by simp [scanUnused, htype], htype⟩
      · have hscan : scanUnused heap ((p :: ps).map some ++ none :: tl) i =
            scanUnused heap (ps.map some ++ none :: tl) (i + 1) := by
          simp [scanUnused, htype]
        rw [hscan]
        rcases ih (i + 1) with ⟨q, hq, heq, hun⟩ | ⟨heq, hall⟩
        · exact Or.inl ⟨q, List.mem_cons_of_mem p hq, heq, hun⟩
        · refine Or.inr ⟨?_, ?_⟩
          · rw [heq, List.length_cons, Nat.add_assoc, Nat.add_comm 1]
          · intro q hq
            rcases List.mem_cons.mp hq with rfl | hq
            · exact htype
            · exact hall q hq

end Memtoy
