import Memtoy.Segment.Record

/-!
# Segment.FileMap — file mappings and the size of the file

`seg_length` of a file segment is both the user's request, zero for "to the end of
the file", and the length computed by the last `map`. `FileRun` follows one file
segment from its registration through any calls, together with two histories:
whether a non-zero length was ever given for it, and the end of the file when the
length was last taken from there. `FileRun.inv` ties the record to the histories;
the law of one `map` follows (`file_mapping_follows_iff`).
-/

namespace Memtoy

open CString MachineWord

/-! ## Rounding to the end of the file -/

section EndOfFile

variable {pagesize : Word} (h : IsPageSize pagesize)

include h

theorem upTo_zero : upTo pagesize 0 = 0 :=
  roundUp_of_divides (s := { Segment.zero with segPagesize := pagesize }) h (divides_zero _)

theorem toNat_downTo (size : Word) :
    (downTo pagesize size).toNat = floorTo pagesize.toNat size.toNat :=
  toNat_roundDown (s := { Segment.zero with segPagesize := pagesize }) h.powerOfTwo size

theorem divides_upTo (size : Word) : Divides pagesize (upTo pagesize size) :=
  divides_roundUp (s := { Segment.zero with segPagesize := pagesize }) h size

theorem divides_downTo (size : Word) : Divides pagesize (downTo pagesize size) :=
  divides_roundDown (s := { Segment.zero with segPagesize := pagesize }) h size

/-- A file size is an `off_t`: rounding it up does not wrap. -/
theorem toNat_upTo_size {size : Word} (hsize : size.toNat < 2 ^ 63) :
    (upTo pagesize size).toNat = ceilTo pagesize.toNat size.toNat := by
  have hp := h.powerOfTwo
  have hup := toNat_roundUp (s := { Segment.zero with segPagesize := pagesize }) hp size
  have hdvd : pagesize.toNat ∣ 2 ^ 63 := by
    obtain ⟨k, hk, rfl⟩ := hp
    rw [BitVec.toNat_twoPow_of_lt hk]
    exact Nat.pow_dvd_pow 2 (by omega)
  have hle := ceilTo_le hp.pos hdvd hsize.le
  rw [Nat.mod_eq_of_lt (Nat.lt_of_le_of_lt hle (by decide))] at hup
  exact hup

/-- From a page boundary within the file to its end. -/
theorem toNat_rest_of_file {size offset : Word} (hsize : size.toNat < 2 ^ 63)
    (hle : ¬ size < offset) :
    offset.toNat + (upTo pagesize size - offset).toNat = ceilTo pagesize.toNat size.toNat := by
  have hup := toNat_upTo_size h hsize
  have hge := le_ceilTo h.powerOfTwo.pos size.toNat
  rw [BitVec.lt_def] at hle
  rw [BitVec.toNat_sub_of_le (by rw [BitVec.le_def, hup]; omega), hup]
  omega

end EndOfFile

/-! ## One file segment through a run -/

/-- `fstat` succeeds; `st_size` is an `off_t`. -/
def Kernel.FstatOk (k : Kernel) : Prop := ∀ fd, ∃ size, k.fstat fd = some size ∧ size.toNat < 2 ^ 63

/-- The kernel of a `map`, if the call is one, can stat its files. -/
def Op.FstatOk : Op → Prop
  | .map k _ _ _ => k.FstatOk
  | _ => True

/-- A `map` command that gives a non-zero length for the segment with record `s`. -/
def Op.givesLength (s : Segment) : Op → Bool
  | .map _ name (some range) _ => s.segName = some name ∧ range.length ≠ 0
  | _ => false

/-- The `map` is asked to go to the end of the file, and the file reaches up to the
offset. -/
def TakesLength (k : Kernel) (pagesize : Word) (s : Segment) (range : Option Range) : Prop :=
  upTo pagesize (askedRange s range).length = 0 ∧ s.segFd ≠ segFdNone ∧
    ¬ fileSize k s.segFd < downTo pagesize (askedRange s range).offset

instance (k : Kernel) (pagesize : Word) (s : Segment) (range : Option Range) :
    Decidable (TakesLength k pagesize s range) := by
  unfold TakesLength
  infer_instance

/-- The end of the file, rounded up to a page, when a length was last taken from it. -/
def Op.seesEnd (pagesize : Word) (s : Segment) (eof : Nat) : Op → Nat
  | .map k name range _ =>
      if s.segName = some name ∧ s.segStart = mapFailed ∧ TakesLength k pagesize s range then
        ceilTo pagesize.toNat (fileSize k s.segFd).toNat
      else eof
  | _ => eof

/-- A run of a file segment: registered by the `file` command, then any calls on any
segments as long as it is live. Next to the state stand whether a non-zero length
was given for it, and the end of the file a length was last taken from. -/
inductive FileRun (segp : SegPtr) : Glctx → Bool → Nat → Prop where
  | registered {g : Glctx} {k : Kernel} {name : CStr} {range : Range} {flags : Flags} :
      (segSpec anyOp).Reachable g → flags &&& segfMaps = 0 →
      (segmentRegister k g .segtFile name range flags).1 = .segOk →
      (segmentGet (segmentRegister k g .segtFile name range flags).2 (basename name)).1 =
        some segp →
      FileRun segp (segmentRegister k g .segtFile name range flags).2 (range.length ≠ 0) 0
  | call {g : Glctx} {given : Bool} {eof : Nat} {op : Op} : FileRun segp g given eof →
      op.Ok → op.FstatOk → (op.exec g).Live segp →
      FileRun segp (op.exec g) (given || op.givesLength (g.heap segp))
        (op.seesEnd g.pagesize (g.heap segp) eof)

/-- The length is the user's, or zero, or it was taken from the end of the file. -/
def LengthOk (pagesize : Word) (s : Segment) (given : Bool) (eof : Nat) : Prop :=
  given = false → s.segLength = 0 ∨
    (downTo pagesize s.segOffset = s.segOffset ∧ upTo pagesize s.segLength = s.segLength ∧
      s.segOffset.toNat + s.segLength.toNat = eof)

theorem mapEffect_file (k : Kernel) (pagesize : Word) (segp : SegPtr) {s : Segment}
    (range : Option Range) (flags : Flags) (htype : s.segType = .segtFile) :
    (mapEffect k pagesize segp s range flags).1.segType = .segtFile ∧
      (mapEffect k pagesize segp s range flags).1.segOffset =
        downTo pagesize (askedRange s range).offset ∧
      (mapEffect k pagesize segp s range flags).1.segLength =
        lengthInEffect k pagesize s.segFd (askedRange s range) := by
  have htype' : (fileRecord k pagesize s range flags).segType = .segtFile :=
    (override_retunes s range flags).type.trans htype
  have hoff := fileRecord_segOffset k pagesize s range flags
  have hlen := fileRecord_segLength k pagesize s range flags
  simp only [mapEffect, htype]
  split <;> exact ⟨htype', hoff, hlen⟩

/-- A request that gives no length leaves a length taken from the file, or the one
that was recorded. -/
theorem LengthOk.map {k : Kernel} (hk : k.FstatOk) {pagesize : Word} (hps : IsPageSize pagesize)
    (segp : SegPtr) {s : Segment} (htype : s.segType = .segtFile) {given : Bool} {eof : Nat}
    (h : LengthOk pagesize s given eof) {name : CStr} (hname : s.segName = some name)
    (hstart : s.segStart = mapFailed) (range : Option Range) (flags : Flags) :
    LengthOk pagesize (mapEffect k pagesize segp s range flags).1
      (given || (Op.map k name range flags).givesLength s)
      ((Op.map k name range flags).seesEnd pagesize s eof) := by
  obtain ⟨-, hoff, hlen⟩ := mapEffect_file k pagesize segp range flags htype
  intro hgiven
  obtain ⟨hg, hno⟩ := Bool.or_eq_false_iff.mp hgiven
  simp only [Op.seesEnd]
  rw [hoff, hlen]
  by_cases htake : TakesLength k pagesize s range
  · -- the length is what is left of the file
    obtain ⟨size, hsize, hlt⟩ := hk s.segFd
    have hfs : (fileSize k s.segFd).toNat < 2 ^ 63 := by rw [fileSize, hsize]; exact hlt
    have hL : lengthInEffect k pagesize s.segFd (askedRange s range) =
        upTo pagesize (fileSize k s.segFd) - downTo pagesize (askedRange s range).offset :=
      if_pos htake
    right
    rw [if_pos ⟨hname, hstart, htake⟩, hL]
    refine ⟨downTo_downTo hps _, ?_, toNat_rest_of_file hps hfs htake.2.2⟩
    exact roundUp_of_divides (s := { Segment.zero with segPagesize := pagesize }) hps
      (hps.divides_sub (divides_upTo hps _) (divides_downTo hps _))
  · have hL : lengthInEffect k pagesize s.segFd (askedRange s range) =
        upTo pagesize (askedRange s range).length := if_neg htake
    rw [if_neg (fun hc => htake hc.2.2), hL]
    by_cases hzero : upTo pagesize (askedRange s range).length = 0
    · exact Or.inl hzero
    · -- a length that is not the user's was recorded before
      right
      cases range with
      | some r =>
          have hr : r.length = 0 := by simpa [Op.givesLength, hname] using hno
          rw [show (askedRange s (some r)).length = r.length from rfl, hr, upTo_zero hps] at hzero
          exact absurd rfl hzero
      | none =>
          rcases h hg with hlen0 | ⟨hdown, hup, hsum⟩
          · rw [show (askedRange s none).length = s.segLength from rfl, hlen0,
              upTo_zero hps] at hzero
            exact absurd rfl hzero
          · show downTo pagesize (downTo pagesize s.segOffset) = downTo pagesize s.segOffset ∧
              upTo pagesize (upTo pagesize s.segLength) = upTo pagesize s.segLength ∧
              (downTo pagesize s.segOffset).toNat + (upTo pagesize s.segLength).toNat = eof
            rw [hdown, hup]
            exact ⟨hdown, hup, hsum⟩

/-- A call that leaves the segment live maps it, or leaves its type, offset and length
as they were. -/
theorem Op.effectOn_cases (op : Op) (pagesize : Word) (segp : SegPtr) (s : Segment)
    (hlive : (op.effectOn pagesize segp s).segType ≠ .segtNone) :
    (∃ k name range flags, op = .map k name range flags ∧ s.segName = some name ∧
      s.segStart = mapFailed) ∨
    ((op.effectOn pagesize segp s).segType = s.segType ∧
      (op.effectOn pagesize segp s).segOffset = s.segOffset ∧
      (op.effectOn pagesize segp s).segLength = s.segLength ∧
      ∀ eof, op.seesEnd pagesize s eof = eof) := by
  cases op with
  | map k name range flags =>
      by_cases hmap : s.segName = some name ∧ s.segStart = mapFailed
      · exact Or.inl ⟨k, name, range, flags, rfl, hmap⟩
      · right
        simp only [Op.effectOn, Op.seesEnd]
        rw [if_neg hmap]
        refine ⟨rfl, rfl, rfl, fun eof => if_neg ?_⟩
        rintro ⟨hname, hstart, -⟩
        exact hmap ⟨hname, hstart⟩
  | remove name =>
      right
      revert hlive
      simp only [Op.effectOn]
      split
      · intro hlive
        exact absurd rfl hlive
      · intro _
        exact ⟨rfl, rfl, rfl, fun _ => rfl⟩
  | unmap name =>
      right
      simp only [Op.effectOn]
      split <;> exact ⟨rfl, rfl, rfl, fun _ => rfl⟩
  | mprotect k name prot =>
      right
      simp only [Op.effectOn]
      split <;> exact ⟨rfl, rfl, rfl, fun _ => rfl⟩
  | _ => exact Or.inr ⟨rfl, rfl, rfl, fun _ => rfl⟩

/-- What holds of a file segment throughout its run. -/
structure FileRunInv (segp : SegPtr) (g : Glctx) (given : Bool) (eof : Nat) : Prop where
  reachable : (segSpec anyOp).Reachable g
  live : g.Live segp
  isFile : (g.heap segp).segType = .segtFile
  length : LengthOk g.pagesize (g.heap segp) given eof

theorem FileRunInv.registered {segp : SegPtr} {g : Glctx} {k : Kernel} {name : CStr}
    {range : Range} {flags : Flags} (hreach : (segSpec anyOp).Reachable g)
    (hmaps : flags &&& segfMaps = 0)
    (hok : (segmentRegister k g .segtFile name range flags).1 = .segOk)
    (hget : (segmentGet (segmentRegister k g .segtFile name range flags).2 (basename name)).1 =
      some segp) :
    FileRunInv segp (segmentRegister k g .segtFile name range flags).2 (range.length ≠ 0) 0 := by
  have htype : SegType.segtFile ≠ .segtNone := by decide
  obtain ⟨p, s, -, ⟨hent, hheap⟩, hreg⟩ :=
    segmentRegister_new k (reachable_repInv hreach) name range htype hmaps hok
  set g' := (segmentRegister k g .segtFile name range flags).2 with hg'
  have hreach' : (segSpec anyOp).Reachable g' :=
    hreach.step ⟨.register k .segtFile name range flags, ⟨htype, hmaps⟩, trivial, rfl⟩
  have hrep' := reachable_repInv hreach'
  have hlive : g'.Live p := ⟨hent, by rw [hheap, hreg.type_eq]; exact htype⟩
  -- the lookup finds the new segment
  obtain ⟨avail, hfound⟩ := segmentGet_live hrep' hlive (by rw [hheap]; exact hreg.name_eq)
  obtain rfl : p = segp := by
    rw [hfound] at hget
    exact Option.some.inj hget
  refine ⟨hreach', hlive, by rw [hheap]; exact hreg.type_eq, ?_⟩
  intro hgiven
  left
  rw [hheap, (hreg.range_eq (by decide)).2]
  simpa using hgiven

theorem FileRunInv.call {segp : SegPtr} {g : Glctx} {given : Bool} {eof : Nat} {op : Op}
    (h : FileRunInv segp g given eof) (hok : op.Ok) (hfstat : op.FstatOk)
    (hlive : (op.exec g).Live segp) :
    FileRunInv segp (op.exec g) (given || op.givesLength (g.heap segp))
      (op.seesEnd g.pagesize (g.heap segp) eof) := by
  have hrep := reachable_repInv h.reachable
  have hps := (reachable_pageInv h.reachable).pagesize
  obtain ⟨-, hheap⟩ := op.exec_heap hok hrep hps h.live
  have hpage := op.exec_pagesize hok hrep
  have hnone : (op.effectOn g.pagesize segp (g.heap segp)).segType ≠ .segtNone := by
    rw [← hheap]
    exact hlive.2
  refine ⟨h.reachable.step ⟨op, hok, trivial, rfl⟩, hlive, ?_, ?_⟩
  · rw [hheap]
    rcases op.effectOn_cases g.pagesize segp _ hnone with
      ⟨k, name, range, flags, rfl, hmap⟩ | ⟨htype, -, -, -⟩
    · simp only [Op.effectOn]
      rw [if_pos hmap]
      exact (mapEffect_file k g.pagesize segp range flags h.isFile).1
    · exact htype.trans h.isFile
  · rw [hheap, hpage]
    rcases op.effectOn_cases g.pagesize segp _ hnone with
      ⟨k, name, range, flags, rfl, hmap⟩ | ⟨-, hoff, hlen, heof⟩
    · have hafter := h.length.map hfstat hps segp h.isFile hmap.1 hmap.2 range flags
      simp only [Op.effectOn]
      rwa [if_pos hmap]
    · intro hgiven
      rw [hoff, hlen, heof]
      exact h.length (Bool.or_eq_false_iff.mp hgiven).1

theorem FileRun.inv {segp : SegPtr} {g : Glctx} {given : Bool} {eof : Nat}
    (h : FileRun segp g given eof) : FileRunInv segp g given eof := by
  induction h with
  | registered hreach hmaps hok hget => exact FileRunInv.registered hreach hmaps hok hget
  | call _ hok hfstat hlive ih => exact ih.call hok hfstat hlive

/-! ## The range that is mapped -/

/-- A `map` that succeeds has issued one `mmap` of the file, with the range it
records. -/
theorem mapEffect_file_mapped (k : Kernel) (pagesize : Word) (segp : SegPtr) {s : Segment}
    (range : Option Range) (flags : Flags) (htype : s.segType = .segtFile)
    (hstart : s.segStart = mapFailed) {s' : Segment} {calls : List SysCall}
    (heffect : mapEffect k pagesize segp s range flags = (s', calls))
    (hok : s'.segStart ≠ mapFailed) :
    s.segFd ≠ segFdNone ∧
      ¬ fileSize k s.segFd < downTo pagesize (askedRange s range).offset ∧
      calls = [.mmap segp 0 s'.segLength s'.segProt (defaultPrivate s'.segFlags) s.segFd
        s'.segOffset s'.segStart] := by
  have hfd : (fileRecord k pagesize s range flags).segFd = s.segFd :=
    (override_retunes s range flags).fd
  have hst : (fileRecord k pagesize s range flags).segStart = s.segStart :=
    (override_retunes s range flags).start
  simp only [mapEffect, htype] at heffect
  by_cases hearly : (fileRecord k pagesize s range flags).segFd = segFdNone ∨
      fileSize k (fileRecord k pagesize s range flags).segFd <
        (fileRecord k pagesize s range flags).segOffset
  · rw [if_pos hearly] at heffect
    cases heffect
    exact absurd (hst.trans hstart) hok
  · rw [if_neg hearly] at heffect
    cases heffect
    rw [hfd, fileRecord_segOffset, not_or] at hearly
    refine ⟨hearly.1, hearly.2, ?_⟩
    show [SysCall.mmap segp 0 _ _ _ (fileRecord k pagesize s range flags).segFd _ _] = _
    rw [hfd]

/-- What a `map` of a file segment maps: `g'` is the table after it, `given` tells
whether it or an earlier command gave a length. -/
structure FollowsFile (k : Kernel) (g g' : Glctx) (segp : SegPtr) (given : Bool) : Prop where
  maps : ∃ prot flags memp, g'.log = g.log ++ [.mmap segp 0 (g'.heap segp).segLength prot flags
    (g.heap segp).segFd (g'.heap segp).segOffset memp]
  offset_page : Divides g.pagesize (g'.heap segp).segOffset
  length_page : Divides g.pagesize (g'.heap segp).segLength
  within : (g'.heap segp).segOffset.toNat + (g'.heap segp).segLength.toNat ≤
    ceilTo g.pagesize.toNat (fileSize k (g.heap segp).segFd).toNat
  to_end : given = false → (g'.heap segp).segOffset.toNat + (g'.heap segp).segLength.toNat =
    ceilTo g.pagesize.toNat (fileSize k (g.heap segp).segFd).toNat

/-- The request, or what is recorded when there is none, has no length, or one that
stays within the file; and a recorded length that was taken from the end of the file
was taken from where the file ends now. -/
def AsksWithinFile (k : Kernel) (pagesize : Word) (s : Segment) (range : Option Range)
    (given : Bool) (eof : Nat) : Prop :=
  upTo pagesize (askedRange s range).length = 0 ∨
    ((downTo pagesize (askedRange s range).offset).toNat +
        (upTo pagesize (askedRange s range).length).toNat ≤
      ceilTo pagesize.toNat (fileSize k s.segFd).toNat ∧
    (given = false → eof = ceilTo pagesize.toNat (fileSize k s.segFd).toNat))

/-- In every run, a `map` of a file segment that is not mapped, when it succeeds, follows
the file exactly when the range in effect lies within the file as it is now and, where
it goes back to an earlier end of the file, the file still ends there. -/
theorem file_mapping_follows_iff {segp : SegPtr} {g : Glctx} {given : Bool} {eof : Nat}
    (h : FileRun segp g given eof) {k : Kernel} (hk : k.FstatOk) {name : CStr}
    (hname : (g.heap segp).segName = some name) (hstart : (g.heap segp).segStart = mapFailed)
    {range : Option Range} {flags : Flags} (hok : (segmentMap k g name range flags).1 = .segOk) :
    FollowsFile k g (segmentMap k g name range flags).2 segp
        (given || (Op.map k name range flags).givesLength (g.heap segp)) ↔
      AsksWithinFile k g.pagesize (g.heap segp) range
        (given || (Op.map k name range flags).givesLength (g.heap segp)) eof := by
  have hinv := h.inv
  have hrep := reachable_repInv hinv.reachable
  have hps := (reachable_pageInv hinv.reachable).pagesize
  set s := g.heap segp with hs
  set given' := given || (Op.map k name range flags).givesLength s with hgiven'
  have hlength := hinv.length.map hk hps segp hinv.isFile hname hstart range flags
  obtain ⟨avail, -, hmap⟩ := segmentMap_effect k hrep hps hinv.live hname hstart range flags
  have hfields := mapEffect_file k g.pagesize segp range flags hinv.isFile
  obtain ⟨size, hsize, hlt⟩ := hk s.segFd
  have hfs : (fileSize k s.segFd).toNat < 2 ^ 63 := by
    rw [fileSize, hsize]
    exact hlt
  rcases heffect : mapEffect k g.pagesize segp s range flags with ⟨s', calls⟩
  rw [← hs, heffect] at hmap hfields hlength
  obtain ⟨-, hoff, hlen⟩ := hfields
  have hmapped : s'.segStart ≠ mapFailed := by
    intro hc
    rw [hmap, Glctx.mapped, if_pos hc] at hok
    cases hok
  obtain ⟨hfd, hreach, hcalls⟩ :=
    mapEffect_file_mapped k g.pagesize segp range flags hinv.isFile hstart heffect hmapped
  have hheap : (segmentMap k g name range flags).2.heap segp = s' := by
    rw [hmap]
    exact Function.update_self ..
  have hlog : (segmentMap k g name range flags).2.log = g.log ++ calls := by rw [hmap]; rfl
  have hmaps : ∃ prot flags' memp, (segmentMap k g name range flags).2.log = g.log ++
      [.mmap segp 0 s'.segLength prot flags' s.segFd s'.segOffset memp] :=
    ⟨_, _, _, hlog.trans (congrArg _ hcalls)⟩
  have hoffPage : Divides g.pagesize s'.segOffset := by
    rw [hoff]
    exact divides_downTo hps _
  unfold AsksWithinFile
  by_cases hzero : upTo g.pagesize (askedRange s range).length = 0
  · -- no length in the request: the rest of the file
    have hrest : s'.segLength = upTo g.pagesize (fileSize k s.segFd) -
        downTo g.pagesize (askedRange s range).offset := hlen.trans (if_pos ⟨hzero, hfd, hreach⟩)
    have hend : s'.segOffset.toNat + s'.segLength.toNat =
        ceilTo g.pagesize.toNat (fileSize k s.segFd).toNat := by
      rw [hoff, hrest]
      exact toNat_rest_of_file hps hfs hreach
    refine ⟨fun _ => Or.inl hzero, fun _ => ?_⟩
    rw [← hheap] at hmaps hoffPage hend
    refine ⟨hmaps, hoffPage, ?_, hend.le, fun _ => hend⟩
    rw [hheap, hrest]
    exact hps.divides_sub (divides_upTo hps _) (divides_downTo hps _)
  · -- the request, rounded, is what is mapped
    have hask : s'.segLength = upTo g.pagesize (askedRange s range).length :=
      hlen.trans (if_neg (fun hc => hzero hc.1))
    have hseen : (Op.map k name range flags).seesEnd g.pagesize s eof = eof :=
      if_neg (fun hc => hzero hc.2.2.1)
    have hnonzero : s'.segLength ≠ 0 := by rw [hask]; exact hzero
    have heof : given' = false → s'.segOffset.toNat + s'.segLength.toNat = eof := by
      intro hg
      rcases hlength hg with hc | ⟨-, -, hsum⟩
      · exact absurd hc hnonzero
      · rw [← hseen]
        exact hsum
    rw [or_iff_right hzero, ← hoff, ← hask]
    constructor
    · rintro ⟨-, -, -, hwithin, hend⟩
      rw [hheap] at hwithin hend
      exact ⟨hwithin, fun hg => (heof hg).symm.trans (hend hg)⟩
    · rintro ⟨hwithin, hend⟩
      refine ⟨by rw [hheap]; exact hmaps, by rw [hheap]; exact hoffPage, ?_, ?_, ?_⟩
      · rw [hheap, hask]
        exact divides_upTo hps _
      · rw [hheap]
        exact hwithin
      · intro hg
        rw [hheap]
        exact (heof hg).trans (hend hg)

/-- The concrete kernel, with files of the given size. -/
def sizedKernel (size : Word) : Kernel := { sampleKernel with fstat := fun _ => some size }

/-- `file f` on the concrete machine. -/
def sampleFile : Glctx :=
  (Op.register sampleKernel .segtFile ['f'] ⟨0, 0, 0⟩ 0).exec sampleTable

theorem sampleKernel_fstatOk : sampleKernel.FstatOk := fun _ => ⟨0x2000#64, rfl, by decide⟩

theorem sampleFile_run : FileRun 1 sampleFile false 0 :=
  FileRun.registered (sampleTable_reachable anyOp) (by decide) (by decide) (by decide)

/-- The first `map f` goes to the end of the file. -/
theorem file_mapping_follows_iff_first :
    FollowsFile sampleKernel sampleFile (segmentMap sampleKernel sampleFile ['f'] none 0).2 1
      false :=
  (file_mapping_follows_iff sampleFile_run sampleKernel_fstatOk (by decide) (by decide)
    (by decide)).mpr (Or.inl (by decide))

/-- `map f` and `unmap f` after it. -/
def sampleUnmapped : Glctx :=
  (Op.unmap ['f']).exec ((Op.map sampleKernel ['f'] none 0).exec sampleFile)

theorem sampleUnmapped_run : FileRun 1 sampleUnmapped false 0x2000 := by
  have hmap : FileRun 1 ((Op.map sampleKernel ['f'] none 0).exec sampleFile) false 0x2000 :=
    sampleFile_run.call (show (0 : Flags) &&& segfMaps = 0 by decide) sampleKernel_fstatOk ⟨by decide, by decide⟩
  exact hmap.call trivial trivial ⟨by decide, by decide⟩

/-- A file mapped to its end, unmapped and mapped again: when it has grown the mapping
stops short of the end, when it has shrunk the mapping goes beyond it. And a length
beyond the end of the file is mapped as it is. -/
theorem remap_misses_end_of_file :
    FileRun 1 sampleUnmapped false 0x2000 ∧ FileRun 1 sampleFile false 0 ∧
      (segmentMap (sizedKernel 0x3000#64) sampleUnmapped ['f'] none 0).1 = .segOk ∧
      ¬ FollowsFile (sizedKernel 0x3000#64) sampleUnmapped
        (segmentMap (sizedKernel 0x3000#64) sampleUnmapped ['f'] none 0).2 1 false ∧
      (segmentMap (sizedKernel 0x1000#64) sampleUnmapped ['f'] none 0).1 = .segOk ∧
      ¬ FollowsFile (sizedKernel 0x1000#64) sampleUnmapped
        (segmentMap (sizedKernel 0x1000#64) sampleUnmapped ['f'] none 0).2 1 false ∧
      (segmentMap sampleKernel sampleFile ['f'] (some ⟨0, 0x10000#64, 0⟩) 0).1 = .segOk ∧
      ¬ FollowsFile sampleKernel sampleFile
        (segmentMap sampleKernel sampleFile ['f'] (some ⟨0, 0x10000#64, 0⟩) 0).2 1 true := by
  refine ⟨sampleUnmapped_run, sampleFile_run, by decide, ?_, by decide, ?_, by decide, ?_⟩
  · intro h
    exact absurd (h.to_end rfl) (by decide)
  · intro h
    exact absurd h.within (by decide)
  · intro h
    exact absurd h.within (by decide)

end Memtoy
