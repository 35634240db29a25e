import Memtoy.Command.Batch
import Memtoy.Command.Goes
import Memtoy.Segment.Fixed

/-!
# Command.Adjacent — a segment placed behind another

`anon b ... offset=a` takes `b`'s address from what is recorded of `a` at that moment.
`Placement` is a session in which `a` is registered at an address and `b` behind it, with
any calls in between and after; `adjacent_iff` says when the two mappings at its end are
contiguous.
-/

namespace Memtoy

open CString MachineWord

open Cmd

/-! ## Where the options place a segment -/

/-- An option that says where the segment is to be. -/
inductive Placing where
  | addr (start : Word)
  | offset (name : CStr)
deriving DecidableEq, Repr

/-- What an option of `anon` says about the place, if anything. -/
def optionPlacing (tok : CStr) : Option Placing :=
  if abbreviates tok wordShared ∨ abbreviates tok wordPrivate then none
  else
    match strtokR ['='] tok with
    | (none, _) => none
    | (some name, value) =>
        let len := (tok.takeWhile (· = '=')).length + name.length
        if strncasecmpEq name "addr".toList len then some (.addr (strtol value 16).1)
        else if strncasecmpEq name "offset".toList len then some (.offset value)
        else none

/-- The option of an `anon` command that counts, the last one that places it. -/
def placing (args : CStr) : Option Placing :=
  let args := (nextToken (skipBlanks args)).2
  let args := (nextToken args).2
  ((tokens whitespace args).filterMap optionPlacing).getLast?

/-- The offset an option stands for in a table. -/
def Placing.offsetIn (g : Glctx) : Placing → Option Word
  | .addr start => some start
  | .offset name => (segmentRange g name).1.map fun r => r.offset + r.length

/-- Where a segment is placed in a table, with a default. -/
def placedAt (g : Glctx) (dflt offset : Word) : Option Placing → Prop
  | none => offset = dflt
  | some p => p.offsetIn g = some offset

/-- The live segments are the same, and the page size. -/
structure SameLive (t t' : Table) : Prop where
  live : t'.g.liveSegs = t.g.liveSegs
  pagesize : t'.g.pagesize = t.g.pagesize

theorem SameLive.refl (t : Table) : SameLive t t := ⟨rfl, rfl⟩

theorem SameLive.trans {t t' t'' : Table} (h : SameLive t t') (h' : SameLive t' t'') :
    SameLive t t'' := ⟨h'.live.trans h.live, h'.pagesize.trans h.pagesize⟩

theorem Table.repInv (t : Table) : RepInv t.g := reachable_repInv t.reachable

theorem sameLive_get (t : Table) (name : CStr) :
    SameLive t (t.exec (.get name) (Op.ok_get name)) :=
  ⟨segmentGet_liveSegs t.repInv name, Op.exec_pagesize (.get name) (Op.ok_get name) t.repInv⟩

theorem Glctx.Named.iff_liveSegs {g : Glctx} {name : CStr} {P : Segment → Prop} :
    g.Named name P ↔ ∃ q ∈ g.liveSegs, q.2.segName = some name ∧ P q.2 := by
  constructor
  · rintro ⟨segp, hlive, hname, hP⟩
    exact ⟨(segp, g.heap segp), Glctx.mem_liveSegs.mpr ⟨hlive, rfl⟩, hname, hP⟩
  · rintro ⟨⟨segp, s⟩, hmem, hname, hP⟩
    obtain ⟨hlive, rfl⟩ := Glctx.mem_liveSegs.mp hmem
    exact ⟨segp, hlive, hname, hP⟩

/-- `segment_range` reads the record of the segment with the name. -/
theorem segmentRange_some {g : Glctx} (h : RepInv g) {name : CStr} {r : Range} :
    (segmentRange g name).1 = some r ↔
      g.Named name fun s => r = ⟨s.segOffset, s.segLength, 0⟩ := by
  simp only [segmentRange]
  rcases lookup_cases h name with ⟨hfree, hnone⟩ | ⟨segp, avail, hlive, hname, hget⟩
  · generalize segmentGet g name = found at hnone ⊢
    obtain ⟨o, g₁⟩ := found
    subst hnone
    exact ⟨fun hc => (by cases hc), fun hn => absurd hn (not_named_of_free hfree)⟩
  · rw [hget, named_iff h hlive hname]
    simp only [Option.some.injEq]
    exact eq_comm

/-- The offset of a placing depends on the live segments only. -/
theorem Placing.offsetIn_congr {t t' : Table} (h : SameLive t t') (p : Placing) (o : Word) :
    p.offsetIn t'.g = some o ↔ p.offsetIn t.g = some o := by
  cases p with
  | addr start => exact Iff.rfl
  | offset name =>
      simp only [Placing.offsetIn, Option.map_eq_some_iff, segmentRange_some t.repInv,
        segmentRange_some t'.repInv, Glctx.Named.iff_liveSegs, h.live]

theorem placedAt_cons {t t' : Table} (h : SameLive t t') {dflt mid o : Word}
    {p : Option Placing} {ps : List Placing} (hp : placedAt t.g dflt mid p)
    (hps : placedAt t'.g mid o ps.getLast?) :
    placedAt t.g dflt o (p.toList ++ ps).getLast? := by
  rw [List.getLast?_append]
  cases hlast : ps.getLast? with
  | none =>
      rw [hlast] at hps
      cases hps
      cases p <;> exact hp
  | some q =>
      rw [hlast] at hps
      exact (q.offsetIn_congr h o).mp hps

variable {w : World} {s s' : Shell}

theorem goes_anonOption {tok : CStr} {range range' : Range} {segflag segflag' : SegFlags}
    (h : Goes (anonOption tok range segflag) w s (range', segflag') s') :
    SameLive s.table s'.table ∧ range'.length = range.length ∧
      placedAt s.table.g range.offset range'.offset (optionPlacing tok) := by
  unfold anonOption at h
  unfold optionPlacing
  by_cases hshared : abbreviates tok wordShared
  · rw [if_pos hshared, goes_pure] at h
    obtain ⟨heq, rfl⟩ := h
    cases heq
    rw [if_pos (Or.inl hshared)]
    exact ⟨.refl _, rfl, rfl⟩
  · rw [if_neg hshared] at h
    by_cases hprivate : abbreviates tok wordPrivate
    · rw [if_pos hprivate, goes_pure] at h
      obtain ⟨heq, rfl⟩ := h
      cases heq
      rw [if_pos (Or.inr hprivate)]
      exact ⟨.refl _, rfl, rfl⟩
    · rw [if_neg hprivate] at h
      rw [if_neg (not_or.mpr ⟨hshared, hprivate⟩)]
      generalize strtokR ['='] tok = split at h ⊢
      rcases split with ⟨_ | name, value⟩
      · exact absurd h not_goes_stop
      · simp only at h ⊢
        generalize (tok.takeWhile (· = '=')).length + name.length = len at h ⊢
        by_cases haddr : strncasecmpEq name "addr".toList len
        · rw [if_pos haddr, goes_pure] at h
          obtain ⟨heq, rfl⟩ := h
          cases heq
          rw [if_pos haddr]
          exact ⟨.refl _, rfl, rfl⟩
        · rw [if_neg haddr] at h ⊢
          by_cases hoffset : strncasecmpEq name "offset".toList len
          · rw [if_pos hoffset, goes_bind] at h
            rw [if_pos hoffset]
            obtain ⟨found, s₁, hrange, hrest⟩ := h
            obtain ⟨hfound, rfl⟩ := goes_callSegmentRange.mp hrange
            cases found with
            | none =>
                obtain ⟨-, s₂, -, hstop⟩ := goes_bind.mp hrest
                exact absurd hstop not_goes_stop
            | some r =>
                obtain ⟨heq, rfl⟩ := goes_pure.mp hrest
                cases heq
                refine ⟨sameLive_get s.table value, rfl, ?_⟩
                simp only [placedAt, Placing.offsetIn, ← hfound, Option.map_some]
          · rw [if_neg hoffset, goes_pure] at h
            obtain ⟨heq, rfl⟩ := h
            cases heq
            rw [if_neg hoffset]
            exact ⟨.refl _, rfl, rfl⟩

theorem goes_anonOptions (toks : List CStr) {range range' : Range} {segflag segflag' : SegFlags}
    (h : Goes (anonOptions toks range segflag) w s (range', segflag') s') :
    SameLive s.table s'.table ∧ range'.length = range.length ∧
      placedAt s.table.g range.offset range'.offset (toks.filterMap optionPlacing).getLast? := by
  induction toks generalizing s range segflag with
  | nil =>
      obtain ⟨heq, rfl⟩ := goes_pure.mp h
      cases heq
      exact ⟨.refl _, rfl, rfl⟩
  | cons tok toks ih =>
      obtain ⟨⟨range₁, segflag₁⟩, s₁, hopt, hrest⟩ := goes_bind.mp h
      obtain ⟨hsame, hlen, hplace⟩ := goes_anonOption hopt
      obtain ⟨hsame', hlen', hplace'⟩ := ih hrest
      refine ⟨hsame.trans hsame', hlen'.trans hlen, ?_⟩
      have hcons : (tok :: toks).filterMap optionPlacing
          = (optionPlacing tok).toList ++ toks.filterMap optionPlacing := by
        cases hopt : optionPlacing tok <;> simp [hopt]
      rw [hcons]
      exact placedAt_cons hsame hplace hplace'

/-- `anon_seg` that succeeds has registered a segment at its place. -/
theorem goes_anonSeg {args : CStr} (h : Goes (anonSeg args) w s () s') :
    ∃ (t : Table) (name : CStr) (range : Range) (segflag : SegFlags),
      SameLive s.table t ∧ placedAt s.table.g 0 range.offset (placing args) ∧
      (segmentRegister w.kernel t.g .segtAnon name range segflag.1).1 = .segOk ∧
      s'.table = t.exec (.register w.kernel .segtAnon name range segflag.1)
        (Op.ok_register _ _ _ _ (by decide) segflag.2) := by
  unfold anonSeg at h
  obtain ⟨⟨segname, rest⟩, s₁, hname, h₁⟩ := goes_bind.mp h
  obtain ⟨hargs, rfl⟩ := goes_takeSegName hname
  dsimp only at h₁
  obtain ⟨⟨length, rest'⟩, s₂, hsize, h₂⟩ := goes_bind.mp h₁
  obtain ⟨hargs', -, rfl⟩ := goes_takeSize hsize
  dsimp only at h₂
  obtain ⟨⟨range, segflag⟩, s₃, hopts, h₃⟩ := goes_bind.mp h₂
  obtain ⟨hsame, -, hplace⟩ := goes_anonOptions _ hopts
  dsimp only at h₃
  obtain ⟨w', s₄, hw, hreg⟩ := goes_bind.mp h₃
  obtain ⟨rfl, rfl⟩ := goes_world.mp hw
  obtain ⟨hans, rfl⟩ := goes_segment.mp hreg
  refine ⟨_, segname, range, segflag, hsame, ?_, ?_, rfl⟩
  · have hrest : placing args = ((tokens whitespace rest').filterMap optionPlacing).getLast? := by
      unfold placing
      rw [← hargs]
      dsimp only
      rw [← hargs']
    rw [hrest]
    exact hplace
  · change (segmentRegister _ _ _ _ _ _).1.answer = .ok at hans
    generalize (segmentRegister _ _ _ _ _ _).1 = ret at hans ⊢
    cases ret <;> first | rfl | cases hans

/-! ## Sessions -/

/-- The arguments make `anon_seg` create the segment `segp`. -/
structure Creates (w : World) (args : CStr) (s s' : Shell) (segp : SegPtr) : Prop where
  goes : Goes (anonSeg args) w s () s'
  fresh : ¬ s.table.g.Live segp
  live : s'.table.g.Live segp

/-- Calls that leave the segments live; the ones that map have a kernel that honours
`MAP_FIXED`. -/
inductive LeavesLive (segps : List SegPtr) (t : Table) : Table → Prop where
  | refl : LeavesLive segps t t
  | call {t' : Table} (before : LeavesLive segps t t') (op : Op) (hok : op.Ok)
      (maps : op.MapsFixed) (live : ∀ segp ∈ segps, (t'.exec op hok).g.Live segp) :
      LeavesLive segps t (t'.exec op hok)

theorem Table.isPageSize (t : Table) : IsPageSize t.g.pagesize :=
  (reachable_pageInv t.reachable).pagesize

theorem Table.exec_pagesize (t : Table) (op : Op) (hok : op.Ok) :
    (t.exec op hok).g.pagesize = t.g.pagesize := Op.exec_pagesize op hok t.repInv

theorem LeavesLive.pagesize {segps : List SegPtr} {t t' : Table} (h : LeavesLive segps t t') :
    t'.g.pagesize = t.g.pagesize := by
  induction h with
  | refl => rfl
  | call _ op hok _ _ ih => exact (Table.exec_pagesize _ op hok).trans ih

/-- A live segment with an offset and a length it was registered with. -/
structure FixedAt (t : Table) (segp : SegPtr) (offset length : Word) : Prop where
  live : t.g.Live segp
  record : Fixed t.g.pagesize offset length (t.g.heap segp)

theorem FixedAt.call {t : Table} {segp : SegPtr} {offset length : Word}
    (h : FixedAt t segp offset length) {op : Op} (hok : op.Ok) (maps : op.MapsFixed)
    (live : (t.exec op hok).g.Live segp) : FixedAt (t.exec op hok) segp offset length := by
  obtain ⟨-, hheap⟩ := op.exec_heap hok t.repInv t.isPageSize h.live
  refine ⟨live, ?_⟩
  rw [t.exec_pagesize op hok]
  show Fixed _ _ _ ((op.exec t.g).heap segp)
  rw [hheap]
  apply h.record.call t.isPageSize maps
  rw [← hheap]
  exact live.2

theorem FixedAt.keeps {segps : List SegPtr} {segp : SegPtr} (hmem : segp ∈ segps) {t t' : Table}
    {offset length : Word} (h : FixedAt t segp offset length) (hkeeps : LeavesLive segps t t') :
    FixedAt t' segp offset length := by
  induction hkeeps with
  | refl => exact h
  | call _ op hok maps live ih => exact ih.call hok maps (live segp hmem)

theorem SameLive.iff_live {t t' : Table} (h : SameLive t t') (segp : SegPtr) :
    t'.g.Live segp ↔ t.g.Live segp := by
  have hmem : ∀ {g : Glctx}, g.Live segp ↔ ∃ s, (segp, s) ∈ g.liveSegs := by
    intro g
    constructor
    · exact fun hl => ⟨_, Glctx.mem_liveSegs.mpr ⟨hl, rfl⟩⟩
    · rintro ⟨s, hs⟩
      exact (Glctx.mem_liveSegs.mp hs).1
  rw [hmem, hmem, h.live]

theorem SameLive.fixedAt {t t' : Table} (h : SameLive t t') {segp : SegPtr}
    {offset length : Word} (hfix : FixedAt t segp offset length) :
    FixedAt t' segp offset length := by
  have hrec : (segp, t.g.heap segp) ∈ t'.g.liveSegs := by
    rw [h.live]
    exact Glctx.mem_liveSegs.mpr ⟨hfix.live, rfl⟩
  obtain ⟨hlive, heq⟩ := Glctx.mem_liveSegs.mp hrec
  refine ⟨hlive, ?_⟩
  rw [h.pagesize, heq]
  exact hfix.record

namespace Creates

variable {args : CStr} {segp : SegPtr}

/-- A segment created has the offset its place stands for. -/
theorem fixedAt (h : Creates w args s s' segp) :
    ∃ offset length, placedAt s.table.g 0 offset (placing args) ∧
      s'.table.g.pagesize = s.table.g.pagesize ∧ FixedAt s'.table segp offset length := by
  obtain ⟨t, name, range, segflag, hsame, hplace, hreg, htable⟩ := goes_anonSeg h.goes
  have hok : (Op.register w.kernel .segtAnon name range segflag.1).Ok :=
    Op.ok_register _ _ _ _ (by decide) segflag.2
  have hlive := h.live
  have hpage := t.exec_pagesize _ hok
  rw [htable] at hlive ⊢
  have hnew := segmentRegister_fresh w.kernel t.repInv name range hok.1 hok.2 hreg
    (fun hl => h.fresh ((hsame.iff_live segp).mp hl)) hlive
  obtain ⟨hoff, hlen⟩ := hnew.range_eq (by decide)
  refine ⟨range.offset, range.length, hplace, hpage.trans hsame.pagesize, hlive, ?_⟩
  exact ⟨hnew.type_eq, Or.inl hoff, Or.inl hlen, fun hst => absurd hnew.start_eq hst⟩

/-- The other segments keep what they were registered with. -/
theorem keeps (h : Creates w args s s' segp) {other : SegPtr} {offset length : Word}
    (hfix : FixedAt s.table other offset length) : FixedAt s'.table other offset length := by
  obtain ⟨t, name, range, segflag, hsame, -, -, htable⟩ := goes_anonSeg h.goes
  rw [htable]
  have hfix' := hsame.fixedAt hfix
  have hok : (Op.register w.kernel .segtAnon name range segflag.1).Ok :=
    Op.ok_register _ _ _ _ (by decide) segflag.2
  obtain ⟨hmem, hheap⟩ :=
    segmentRegister_hasRecord w.kernel t.repInv hfix'.live name range hok.1 hok.2
  apply hfix'.call hok trivial
  refine ⟨hmem, ?_⟩
  show ((segmentRegister _ _ _ _ _ _).2.heap other).segType ≠ _
  rw [hheap]
  exact hfix'.live.2

end Creates

/-- A session in which `a` is registered at the address `addr`, `b` at the end of `a`, and
both are mapped in the table `t` at its end. -/
structure Placement (wA wB : World) (argsA argsB : CStr) (addr : Word) (a b : SegPtr)
    (s₀ s₁ s₂ s₃ : Shell) (t : Table) : Prop where
  registerA : Creates wA argsA s₀ s₁ a
  addrA : placing argsA = some (.addr addr)
  addr_ne : addr ≠ 0
  aligned : Divides s₀.table.g.pagesize addr
  between : LeavesLive [a] s₁.table s₂.table
  registerB : Creates wB argsB s₂ s₃ b
  offsetB : ∃ name, (s₂.table.g.heap a).segName = some name ∧
    placing argsB = some (.offset name)
  after : LeavesLive [a, b] s₃.table t
  mappedA : (t.g.heap a).segStart ≠ mapFailed
  mappedB : (t.g.heap b).segStart ≠ mapFailed

/-- The end of a mapping. -/
def Segment.segEnd (s : Segment) : Nat := s.segStart.toNat + s.segLength.toNat

/-- The second mapping starts where the first ends, and they share no address. -/
def Adjacent (s t : Segment) : Prop :=
  t.segStart.toNat = s.segEnd ∧ (s.segEnd ≤ t.segStart.toNat ∨ t.segEnd ≤ s.segStart.toNat)

/-- Only the position matters: what starts at the end is disjoint. -/
theorem adjacent_iff_start {s t : Segment} : Adjacent s t ↔ t.segStart.toNat = s.segEnd := by
  unfold Adjacent
  omega

/-- An address or the end of a segment, as the offset of the new one. -/
theorem placedAt_offset {t : Table} {segp : SegPtr} (hlive : t.g.Live segp) {name : CStr}
    (hname : (t.g.heap segp).segName = some name) {offset : Word}
    (hplace : placedAt t.g 0 offset (some (.offset name))) :
    offset = (t.g.heap segp).segOffset + (t.g.heap segp).segLength := by
  obtain ⟨r, hr, hoff⟩ := Option.map_eq_some_iff.mp hplace
  rw [segmentRange_some t.repInv, named_iff t.repInv hlive hname] at hr
  rw [← hoff, hr]

variable {wA wB : World} {argsA argsB : CStr} {addr : Word} {a b : SegPtr} {s₀ s₁ s₂ s₃ : Shell}
  {t : Table}

/-- The two mappings are contiguous exactly if the length recorded of `a` when `b` is
registered is a number of pages. -/
theorem adjacent_iff (h : Placement wA wB argsA argsB addr a b s₀ s₁ s₂ s₃ t) :
    Adjacent (t.g.heap a) (t.g.heap b) ↔
      Divides s₂.table.g.pagesize (s₂.table.g.heap a).segLength := by
  obtain ⟨offset, size, hplaceA, hpage₁, hA₁⟩ := h.registerA.fixedAt
  rw [h.addrA] at hplaceA
  cases hplaceA
  have hA₂ := hA₁.keeps (List.mem_singleton_self a) h.between
  have hA := (h.registerB.keeps hA₂).keeps (List.mem_cons_self) h.after
  obtain ⟨offsetB, sizeB, hplaceB, hpage₃, hB₃⟩ := h.registerB.fixedAt
  have hB := hB₃.keeps (List.mem_cons_of_mem a (List.mem_singleton_self b)) h.after
  have hpage₂ := h.between.pagesize
  have hpage := h.after.pagesize
  have hps := s₂.table.isPageSize
  have haddr : Divides s₂.table.g.pagesize addr := by
    rw [hpage₂, hpage₁]
    exact h.aligned
  have hdown : downTo s₂.table.g.pagesize addr = addr :=
    roundDown_of_divides (s := { Segment.zero with segPagesize := s₂.table.g.pagesize }) hps haddr
  -- `a` is at its address
  have hmapA := hA.record.mapped h.mappedA
  rw [hpage, hpage₃, hdown] at hmapA
  obtain ⟨hstartA, hlenA, hne, hroom⟩ := hmapA h.addr_ne
  -- `b` is registered behind what is recorded of `a`
  have hoffB : offsetB = addr + (s₂.table.g.heap a).segLength := by
    obtain ⟨name, hname, hplacing⟩ := h.offsetB
    rw [hplacing] at hplaceB
    rw [placedAt_offset hA₂.live hname hplaceB]
    congr 1
    rcases hA₂.record.offset_eq with heq | heq
    · exact heq
    · exact heq.trans hdown
  have hlen := hA₂.record.length_eq
  have hmapB := hB.record.mapped h.mappedB
  rw [hpage, hpage₃, hoffB] at hmapB
  obtain ⟨hstartB, -⟩ := hmapB (downTo_behind_ne_zero hps haddr hlen hne hroom h.addr_ne)
  rw [adjacent_iff_start, Segment.segEnd, hstartA, hlenA, hstartB]
  exact downTo_behind_iff hps haddr hlen hne hroom

/-! ## Concrete sessions -/

/-- `mmap` with room for what ends below the end of the address space. -/
def roomKernel : Kernel :=
  { sampleKernel with
    mmap := fun addr length _ flags _ _ =>
      if length = 0 ∨ 0x10000000000000000 ≤ addr.toNat + length.toNat then mapFailed
      else if flags &&& mapFixed = 0 then 0x7f0000000000#64
      else addr }

theorem roomKernel_mapsFixed : roomKernel.MapsFixed := by
  intro addr length prot flags fd offset hfixed hne
  simp only [roomKernel] at hne ⊢
  by_cases hbad : length = 0 ∨ 0x10000000000000000 ≤ addr.toNat + length.toNat
  · rw [if_pos hbad] at hne
    exact absurd rfl hne
  · rw [if_neg hbad, if_neg hfixed]
    obtain ⟨hzero, hroom⟩ := not_or.mp hbad
    exact ⟨rfl, hzero, Nat.lt_of_not_le hroom⟩

def roomWorld : World := { sampleWorld with kernel := roomKernel }

def Table.mapped (t : Table) (name : CStr) : Table :=
  t.exec (.map roomKernel name none 0) (Op.ok_map _ _ _ _ rfl)

def anonA : CStr := "a 6k addr=100000".toList

def anonB : CStr := "b 4k offset=a".toList

/-- `anon a 6k addr=100000` -/
def shellA : Shell := (anonSeg anonA roomWorld sampleShell).shell

/-- `anon a 6k addr=100000`, `map a` -/
def shellMapped : Shell := { shellA with table := shellA.table.mapped "a".toList }

/-- `anon b 4k offset=a` -/
def shellB (s : Shell) : Shell := (anonSeg anonB roomWorld s).shell

/-- `map b`, after `a` was mapped and `b` registered -/
def tableMapped : Table := (shellB shellMapped).table.mapped "b".toList

/-- `map a`, `map b`, after both were registered -/
def tableUnmapped : Table := ((shellB shellA).table.mapped "a".toList).mapped "b".toList

/-- Whether the command goes on. -/
def Flow.isNext {α : Type} : Flow α → Bool
  | .next _ => true
  | .stop _ => false

theorem goes_of_isNext {m : Cmd Unit} (h : (m w s).flow.isNext = true) :
    Goes m w s () (m w s).shell := by
  unfold Goes
  generalize m w s = r at h ⊢
  rcases r with ⟨⟨⟩ | e, s', cs⟩
  · exact ⟨cs, rfl⟩
  · cases h

theorem creates_shellA : Creates roomWorld anonA sampleShell shellA 1 where
  goes := goes_of_isNext (by decide +kernel)
  fresh := fun hlive => absurd hlive.1 (by decide +kernel)
  live := ⟨by decide +kernel, by decide +kernel⟩

theorem LeavesLive.mapped {segps : List SegPtr} {t t' : Table} (h : LeavesLive segps t t')
    (name : CStr) (hlive : ∀ segp ∈ segps, segp ∈ (t'.mapped name).g.entries ∧
      ((t'.mapped name).g.heap segp).segType ≠ .segtNone) : LeavesLive segps t (t'.mapped name) :=
  h.call (.map roomKernel name none 0) (Op.ok_map _ _ _ _ rfl) roomKernel_mapsFixed hlive

theorem placement_mapped :
    Placement roomWorld roomWorld anonA anonB 0x100000#64 1 2 sampleShell shellA shellMapped
      (shellB shellMapped) tableMapped where
  registerA := creates_shellA
  addrA := by decide
  addr_ne := by decide
  aligned := by unfold Divides; decide
  between := LeavesLive.refl.mapped _ (by decide +kernel)
  registerB :=
    { goes := goes_of_isNext (by decide +kernel)
      fresh := fun hlive => absurd hlive.1 (by decide +kernel)
      live := ⟨by decide +kernel, by decide +kernel⟩ }
  offsetB := ⟨"a".toList, by decide +kernel, by decide⟩
  after := LeavesLive.refl.mapped _ (by decide +kernel)
  mappedA := by decide +kernel
  mappedB := by decide +kernel

/-- A segment of a page and a half, mapped before the next is registered. -/
theorem adjacent_iff_mapped : Adjacent (tableMapped.g.heap 1) (tableMapped.g.heap 2) :=
  (adjacent_iff placement_mapped).mpr (by unfold Divides; decide +kernel)

/-- The same segment, mapped after the next was registered: the second page of `a` is where
`b` is mapped. -/
theorem unmapped_overlaps :
    Placement roomWorld roomWorld anonA anonB 0x100000#64 1 2 sampleShell shellA shellA
      (shellB shellA) tableUnmapped ∧
    ¬ Adjacent (tableUnmapped.g.heap 1) (tableUnmapped.g.heap 2) := by
  constructor
  · exact
      { registerA := creates_shellA
        addrA := by decide
        addr_ne := by decide
        aligned := by unfold Divides; decide
        between := .refl
        registerB :=
          { goes := goes_of_isNext (by decide +kernel)
            fresh := fun hlive => absurd hlive.1 (by decide +kernel)
            live := ⟨by decide +kernel, by decide +kernel⟩ }
        offsetB := ⟨"a".toList, by decide +kernel, by decide⟩
        after := (LeavesLive.refl.mapped "a".toList (by decide +kernel)).mapped "b".toList
          (by decide +kernel)
        mappedA := by decide +kernel
        mappedB := by decide +kernel }
  · rw [adjacent_iff_start, Segment.segEnd]
    decide +kernel

end Memtoy
