import Memtoy.Lib.Reader
import Memtoy.Lib.Scanf
import Memtoy.Segment.Refinement

/-!
# Segment.TaskMaps — reading `/proc/<mypid>/maps`

`get_task_segments()` on the bytes of the file. The buffer is the string in it, with
the indices written in the order of the writes; a `char *` into it is the rest of the
string. The file is readable: a read error, which the loop would wait out for ever, is
not modelled.

An iteration reads one piece of the file, what one `fgets` takes. `PieceFits` says which
pieces the buffer is large enough for, and in which the byte that is cut off is the
newline it is taken for (`maps_buffer_ok_iff`).
-/

namespace Memtoy

open CString Reader

/-- `MAPBUFSZ`: sufficient ? -/
def mapBufSz : Nat := 128

/-! ## One line -/

/-- The arguments of the `sscanf` that are looked at. -/
structure MapsFields where
  start : Word
  endp : Word
  perm : CStr
  vmPgoff : Word
  ino : Word
deriving DecidableEq, Repr

/-- `"%lx-%lx %4s %lx %x:%x %ld\n"` -/
def mapsFormat : List Directive :=
  [.num 16, .lit '-', .num 16, .space, .word 4, .space, .num 16, .space, .num 16, .lit ':',
    .num 16, .space, .num 10, .space]

/-- The `sscanf`: `none` when fewer than `nexpected` fields are assigned. -/
def scanFields (input : CStr) : Option MapsFields :=
  match scanf mapsFormat input with
  | [start, endp, perm, vmPgoff, _, _, ino] =>
      some ⟨start.ulong, endp.ulong, perm.str, vmPgoff.ulong, ino.long⟩
  | _ => none

/-- Find path, if any -- the "hard way". -/
def findPath (input : CStr) : Option CStr :=
  (strchr input ':').bind fun path =>    -- past major
    (strchr path ' ').bind fun path =>   -- past minor
      (strchr path.tail ' ').map (skipSpan [' '])

/-- `n` indices from `i` on. -/
def indicesFrom (i n : Nat) : List Int := (List.range n).map fun j => ((i + j : Nat) : Int)

/-- What `classify_segment` leaves: the type, the string `*path` points to, the string in
the buffer, and the indices written. -/
structure Classified where
  type : SegType
  path : CStr
  buf : CStr
  writes : List Int
deriving DecidableEq, Repr

/-- What is appended to the path of an executable image or a library. -/
def pathSuffix (type : SegType) : CStr :=
  if type = .segtFile then [':', 't', 'e', 'x', 't'] else [':', 'd', 'a', 't', 'a']

/-- `classify_segment()`, with `path` in the buffer that holds `input`. -/
def classifySegment (perm input path : CStr) (ino : Word) : Classified :=
  -- no inode, or writeable
  let type := if ino = 0 ∨ byteAt perm 1 = 'w' then SegType.segtAnon else .segtFile
  if path.head? = some '[' then
    -- [heap] or [stack]
    let name := path.tail.takeWhile (· ≠ ']')
    let pend := input.length - path.length + 1 + name.length
    if ']' ∈ path.tail then ⟨type, name, input.take pend, [(pend : Int)]⟩
    else ⟨type, path.tail, input, []⟩
  else
    ⟨type, path ++ pathSuffix type, input ++ pathSuffix type,
      indicesFrom input.length ((pathSuffix type).length + 1)⟩

/-- The range of a line. -/
def MapsFields.range (f : MapsFields) : Range where
  offset := if f.vmPgoff ≠ f.start then f.vmPgoff else 0
  length := f.endp - f.start
  start := f.start

/-- How an iteration ends: with `continue`, at a NULL `path`, or with a registration. -/
inductive MapsAction where
  | skip
  | crash
  | register (type : SegType) (path : CStr) (range : Range)
deriving DecidableEq, Repr

/-- An iteration of the loop: the string `fgets` leaves in `buf`, what the trimming leaves
of it, the string there in the end, and the indices written. -/
structure MapsPass where
  raw : CStr
  input : CStr
  buf : CStr
  writes : List Int
  action : MapsAction
deriving DecidableEq, Repr

/-- The body of the loop for the bytes `fgets` has read. -/
def mapsPass (piece : List Char) : MapsPass :=
  let raw := cstr piece
  let len : Int := raw.length
  -- `if (input[len-1] = '\n') input[--len] = '\0';` is an assignment
  let input := raw.dropLast
  let writes := indicesFrom 0 (piece.length + 1) ++ [len - 1, len - 1]
  match scanFields input with
  | none => ⟨raw, input, input, writes, .skip⟩
  | some f =>
      -- skip no-access segments
      if strncmpEq f.perm ['-', '-', '-'] 3 then ⟨raw, input, input, writes, .skip⟩
      else
        match findPath input with
        | none => ⟨raw, input, input, writes, .crash⟩
        | some path =>
            if path = [] then ⟨raw, input, input, writes, .skip⟩
            else
              let c := classifySegment f.perm input path f.ino
              ⟨raw, input, c.buf, writes ++ c.writes, .register c.type c.path f.range⟩

/-- The table after an iteration, `none` when the program is gone. All are copy-on-write. -/
def MapsAction.exec (k : Kernel) (g : Glctx) : MapsAction → Option Glctx
  | .skip => some g
  | .crash => none
  | .register type path range =>
      some (segmentRegister k g type path range (mapPrivate ||| segfMaps)).2

/-! ## The loop -/

/-- The table, and the iterations so far. -/
structure MapsRun where
  table : Glctx
  passes : List MapsPass

inductive MapsEnd where
  | eof
  | crash
deriving DecidableEq, Repr

/-- `feof(maps)` behind an `fgets` that has read something. -/
def hitEof (piece : List Char) : Prop :=
  piece.getLast? ≠ some '\n' ∧ piece.length < mapBufSz - 1

instance (piece : List Char) : Decidable (hitEof piece) := inferInstanceAs (Decidable (_ ∧ _))

/-- `do { ... } while (!feof(maps));` on what is left of the file. -/
def getTaskSegmentsLoop (k : Kernel) : (fuel : Nat) → List Char → MapsRun →
    Option (MapsEnd × MapsRun)
  | 0, _, _ => none
  | fuel + 1, maps, r =>
      match fgets mapBufSz maps with
      | none => some (.eof, r)
      | some (piece, rest) =>
          let passes := r.passes ++ [mapsPass piece]
          match (mapsPass piece).action.exec k r.table with
          | none => some (.crash, ⟨r.table, passes⟩)
          | some g =>
              if hitEof piece then some (.eof, ⟨g, passes⟩)
              else getTaskSegmentsLoop k fuel rest ⟨g, passes⟩

/-! ## The pieces of a file -/

/-- What the calls of `fgets` take from a file, in order. -/
def mapsPieces (maps : List Char) : List (List Char) := reads (fgets mapBufSz) maps

/-- The iterations for some pieces. -/
def runPieces (k : Kernel) : List (List Char) → MapsRun → MapsEnd × MapsRun
  | [], r => (.eof, r)
  | piece :: pieces, r =>
      let passes := r.passes ++ [mapsPass piece]
      match (mapsPass piece).action.exec k r.table with
      | none => (.crash, ⟨r.table, passes⟩)
      | some g => runPieces k pieces ⟨g, passes⟩

/-- One `fgets` takes at least one byte, and no more than fit. -/
theorem fgets_bounds {maps piece rest : List Char} (h : fgets mapBufSz maps = some (piece, rest)) :
    rest.length < maps.length ∧ piece.length ≤ mapBufSz - 1 := by
  unfold fgets at h
  split at h
  · cases h
  · next hne =>
    have hpair : takeLine (mapBufSz - 1) maps = (piece, rest) := Option.some.inj h
    have happ := congrArg List.length (takeLine_append (mapBufSz - 1) maps)
    have hle := length_takeLine_le (mapBufSz - 1) maps
    have hpos : 0 < (takeLine (mapBufSz - 1) maps).1.length := by
      obtain ⟨c, s, rfl⟩ := List.exists_cons_of_ne_nil hne
      show 0 < (takeLine (126 + 1) (c :: s)).1.length
      simp only [takeLine]
      split <;> simp
    rw [hpair] at happ hle hpos
    simp only [List.length_append] at happ hle hpos
    exact ⟨by omega, hle⟩

/-- At end of file nothing is left. -/
theorem fgets_hitEof {maps piece rest : List Char} (h : fgets mapBufSz maps = some (piece, rest))
    (heof : hitEof piece) : rest = [] := by
  unfold fgets at h
  split at h
  · cases h
  · have hpair : takeLine (mapBufSz - 1) maps = (piece, rest) := Option.some.inj h
    have hstop := takeLine_stop (mapBufSz - 1) maps
    rw [hpair] at hstop
    rcases hstop with hlast | hlen | hrest
    · exact absurd hlast heof.1
    · exact absurd hlen heof.2.ne
    · exact hrest

theorem fgets_consumes : Consumes (fgets mapBufSz) := fun _ _ _ h => (fgets_bounds h).1

@[simp] theorem mapsPieces_nil : mapsPieces [] = [] := rfl

/-- The pieces of a file, from the first on. -/
theorem mapsPieces_cons {maps piece rest : List Char}
    (h : fgets mapBufSz maps = some (piece, rest)) :
    mapsPieces maps = piece :: mapsPieces rest := reads_cons fgets_consumes h

/-- No piece is longer than the buffer, with its NUL. -/
theorem length_mapsPieces (maps : List Char) : ∀ piece ∈ mapsPieces maps,
    piece.length ≤ mapBufSz - 1 := by
  induction maps using reads_induction fgets_consumes with
  | hend maps hr =>
      rw [fgets_none hr]
      simp
  | hcall maps piece rest hr ih =>
      rw [mapsPieces_cons hr]
      exact List.forall_mem_cons.mpr ⟨(fgets_bounds hr).2, ih⟩

/-- With fuel for every byte and the end of the file, the loop ends, and its iterations are
those of the pieces. -/
theorem getTaskSegmentsLoop_eq (k : Kernel) : ∀ {fuel : Nat} {maps : List Char} (r : MapsRun),
    maps.length < fuel → getTaskSegmentsLoop k fuel maps r = some (runPieces k (mapsPieces maps) r) := by
  intro fuel
  induction fuel with
  | zero => intro maps r hlt; omega
  | succ fuel ih =>
      intro maps r hlt
      rcases hr : fgets mapBufSz maps with _ | ⟨piece, rest⟩
      · simp only [getTaskSegmentsLoop, hr]
        rw [fgets_none hr]
        rfl
      · have hshort := (fgets_bounds hr).1
        rw [mapsPieces_cons hr]
        rcases hexec : (mapsPass piece).action.exec k r.table with _ | g
        · simp only [getTaskSegmentsLoop, runPieces, hr, hexec]
        · simp only [getTaskSegmentsLoop, runPieces, hr, hexec]
          split
          · -- the last line has no newline: the next `fgets` would read nothing
            next heof =>
            rw [fgets_hitEof hr heof]
            rfl
          · exact ih _ (by omega)

/-! ## The buffer -/

/-- What an iteration leaves of the buffer: its string fits with the NUL, the writes are
inside, and the byte cut off the line is its newline. -/
structure BufferOk (pass : MapsPass) : Prop where
  fits : pass.buf.length + 1 ≤ mapBufSz
  inBounds : ∀ i ∈ pass.writes, 0 ≤ i ∧ i < mapBufSz
  kept : pass.input = pass.raw ∨ pass.raw = pass.input ++ ['\n']

/-- A line with all fields, access and a path that is not in brackets. -/
def GetsSuffix (input : CStr) : Prop :=
  ∃ f path, scanFields input = some f ∧ strncmpEq f.perm ['-', '-', '-'] 3 = false ∧
    findPath input = some path ∧ path ≠ [] ∧ path.head? ≠ some '['

/-- The longest text that has room for a suffix. -/
def maxMapsText : Nat := 122

/-- A piece that ends in a newline, with no NUL before it, and that has room for the suffix
if it gets one. -/
structure PieceFits (piece : List Char) : Prop where
  newline : (cstr piece).getLast? = some '\n'
  room : GetsSuffix (cstr piece).dropLast → (cstr piece).dropLast.length ≤ maxMapsText

theorem mem_indicesFrom {i n : Nat} {j : Int} : j ∈ indicesFrom i n ↔ (i : Int) ≤ j ∧ j < i + n := by
  unfold indicesFrom
  rw [List.mem_map]
  constructor
  · rintro ⟨m, hm, rfl⟩
    have hlt := List.mem_range.mp hm
    omega
  · intro hj
    exact ⟨(j - i).toNat, List.mem_range.mpr (by omega), by omega⟩

theorem pathSuffix_length (type : SegType) : (pathSuffix type).length = 5 := by
  unfold pathSuffix
  split <;> rfl

theorem findPath_suffix {input path : CStr} (h : findPath input = some path) : path <:+ input := by
  unfold findPath at h
  obtain ⟨p, hp, h⟩ := Option.bind_eq_some_iff.mp h
  obtain ⟨q, hq, h⟩ := Option.bind_eq_some_iff.mp h
  obtain ⟨t, ht, rfl⟩ := Option.map_eq_some_iff.mp h
  calc skipSpan [' '] t <:+ t := List.dropWhile_suffix _
    _ <:+ q.tail := strchr_suffix ht
    _ <:+ q := List.tail_suffix q
    _ <:+ p := strchr_suffix hq
    _ <:+ input := strchr_suffix hp

/-- What comes before `classify_segment` in every iteration. -/
theorem mapsPass_trim (piece : List Char) :
    (mapsPass piece).raw = cstr piece ∧ (mapsPass piece).input = (cstr piece).dropLast := by
  simp only [mapsPass]
  split
  · exact ⟨rfl, rfl⟩
  · split
    · exact ⟨rfl, rfl⟩
    · split
      · exact ⟨rfl, rfl⟩
      · split <;> exact ⟨rfl, rfl⟩

/-- The indices `fgets` and the trimming write. -/
def readWrites (piece : List Char) : List Int :=
  indicesFrom 0 (piece.length + 1) ++ [((cstr piece).length : Int) - 1, ((cstr piece).length : Int) - 1]

/-- A path in brackets is cut inside the string. -/
theorem classifySegment_bracket {perm input path : CStr} {ino : Word} (hpath : path <:+ input)
    (hb : path.head? = some '[') :
    (classifySegment perm input path ino).buf.length ≤ input.length ∧
      ∀ i ∈ (classifySegment perm input path ino).writes, 0 ≤ i ∧ i < input.length := by
  unfold classifySegment
  rw [if_pos hb]
  simp only
  split
  · next hclose =>
    refine ⟨List.length_take_le' _ _, fun i hi => ?_⟩
    rw [List.mem_singleton.mp hi]
    obtain ⟨tail, rfl⟩ : ∃ tail, path = '[' :: tail := List.head?_eq_some_iff.mp hb
    have hlen := hpath.length_le
    have hname : (tail.takeWhile (· ≠ ']')).length < tail.length := by
      refine lt_of_le_of_ne (List.takeWhile_prefix _).length_le fun heq => ?_
      have hall := (List.takeWhile_prefix _).eq_of_length heq
      have hno : ∀ c ∈ tail, c ≠ ']' := by
        intro c hc
        rw [← hall] at hc
        simpa using List.mem_takeWhile_imp hc
      exact hno ']' hclose rfl
    rw [List.length_cons] at hlen
    simp only [List.length_cons, List.tail_cons]
    omega
  · exact ⟨le_rfl, fun i hi => by cases hi⟩

/-- The two ways an iteration goes: without a suffix the string gets no longer. -/
theorem mapsPass_cases (piece : List Char) :
    (¬ GetsSuffix (cstr piece).dropLast ∧
      (mapsPass piece).buf.length ≤ (cstr piece).dropLast.length ∧
      ∃ writes, (mapsPass piece).writes = readWrites piece ++ writes ∧
        ∀ i ∈ writes, 0 ≤ i ∧ i < (cstr piece).dropLast.length) ∨
    (GetsSuffix (cstr piece).dropLast ∧
      (mapsPass piece).buf.length = (cstr piece).dropLast.length + 5 ∧
      (mapsPass piece).writes =
        readWrites piece ++ indicesFrom (cstr piece).dropLast.length 6) := by
  have hnone : ∀ {l : List Int}, l = readWrites piece → ∃ writes, l = readWrites piece ++ writes ∧
      ∀ i ∈ writes, 0 ≤ i ∧ i < ((cstr piece).dropLast.length : Int) :=
    fun heq => ⟨[], by rw [heq, List.append_nil], fun i hi => by cases hi⟩
  simp only [mapsPass]
  generalize hin : (cstr piece).dropLast = input at hnone ⊢
  split
  · next hscan =>
    refine Or.inl ⟨?_, le_rfl, hnone rfl⟩
    rintro ⟨f, path, hf, -⟩
    rw [hscan] at hf
    cases hf
  · next f hscan =>
    split
    · next hskip =>
      refine Or.inl ⟨?_, le_rfl, hnone rfl⟩
      rintro ⟨f', path, hf, haccess, -⟩
      rw [hscan] at hf
      cases hf
      rw [hskip] at haccess
      cases haccess
    · next haccess =>
      split
      · next hpath =>
        refine Or.inl ⟨?_, le_rfl, hnone rfl⟩
        rintro ⟨f', path, -, -, hp, -⟩
        rw [hpath] at hp
        cases hp
      · next path hpath =>
        have hsame : ∀ {f' path'}, scanFields input = some f' → findPath input = some path' →
            f' = f ∧ path' = path := by
          intro f' path' hf hp
          rw [hscan] at hf
          rw [hpath] at hp
          exact ⟨(Option.some.inj hf).symm, (Option.some.inj hp).symm⟩
        split
        · next hempty =>
          refine Or.inl ⟨?_, le_rfl, hnone rfl⟩
          rintro ⟨f', path', hf, -, hp, hne, -⟩
          exact hne ((hsame hf hp).2.trans hempty)
        · next hempty =>
          by_cases hb : path.head? = some '['
          · obtain ⟨hlen, hin'⟩ := @classifySegment_bracket f.perm input path f.ino
              (findPath_suffix hpath) hb
            refine Or.inl ⟨?_, hlen, _, rfl, hin'⟩
            rintro ⟨f', path', hf, -, hp, -, hno⟩
            rw [(hsame hf hp).2] at hno
            exact hno hb
          · refine Or.inr ⟨⟨f, path, hscan, by simpa using haccess, hpath, hempty, hb⟩, ?_, ?_⟩
            · simp [classifySegment, hb, pathSuffix_length]
            · simp [classifySegment, hb, pathSuffix_length, readWrites]

theorem readWrites_subset (piece : List Char) :
    ∀ i ∈ readWrites piece, i ∈ (mapsPass piece).writes := by
  intro i hi
  rcases mapsPass_cases piece with ⟨-, -, writes, hw, -⟩ | ⟨-, -, hw⟩
  · rw [hw]
    exact List.mem_append_left _ hi
  · rw [hw]
    exact List.mem_append_left _ hi

theorem fits_of_bufferOk {piece : List Char} (hok : BufferOk (mapsPass piece)) :
    PieceFits piece := by
  have hsz : mapBufSz = 128 := rfl
  have hmax : maxMapsText = 122 := rfl
  obtain ⟨hraw, hinput⟩ := mapsPass_trim piece
  -- the byte before the end of the string is in the buffer, so the string is not empty
  have hpos : 0 < (cstr piece).length := by
    have hbound := hok.inBounds _
      (readWrites_subset piece ((cstr piece).length - 1) (by simp [readWrites]))
    omega
  have hsplit : cstr piece = (cstr piece).dropLast ++ ['\n'] := by
    rcases hok.kept with hkept | hkept
    · rw [hraw, hinput] at hkept
      have hshort := congrArg List.length hkept
      rw [List.length_dropLast] at hshort
      omega
    · rwa [hraw, hinput] at hkept
  refine ⟨?_, fun hsuffix => ?_⟩
  · rw [hsplit]
    simp
  · have hfits := hok.fits
    rcases mapsPass_cases piece with ⟨hno, -⟩ | ⟨-, hbuf, -⟩
    · exact absurd hsuffix hno
    · omega

theorem bufferOk_of_fits {piece : List Char} (hlen : piece.length ≤ mapBufSz - 1)
    (hfits : PieceFits piece) : BufferOk (mapsPass piece) := by
  have hsz : mapBufSz = 128 := rfl
  have hmax : maxMapsText = 122 := rfl
  obtain ⟨hraw, hinput⟩ := mapsPass_trim piece
  obtain ⟨line, hline⟩ : ∃ line, cstr piece = line ++ ['\n'] :=
    List.getLast?_eq_some_iff.mp hfits.newline
  have hdrop : (cstr piece).dropLast = line := by rw [hline, List.dropLast_concat]
  have hcount : (cstr piece).length = line.length + 1 := by rw [hline]; simp
  have hstr : (cstr piece).length ≤ piece.length := (List.takeWhile_prefix _).length_le
  have hread : ∀ i ∈ readWrites piece, 0 ≤ i ∧ i < mapBufSz := by
    intro i hi
    rcases List.mem_append.mp hi with hi | hi
    · have hbound := mem_indicesFrom.mp hi
      omega
    · have heq : i = (cstr piece).length - 1 := by simpa using hi
      omega
  have hroom := hfits.room
  have hcases := mapsPass_cases piece
  rw [hdrop] at hroom hcases
  have hkept : (mapsPass piece).raw = (mapsPass piece).input ++ ['\n'] := by
    rw [hraw, hinput, hdrop, hline]
  rcases hcases with ⟨-, hbuf, writes, hw, hin⟩ | ⟨hsuffix, hbuf, hw⟩
  · refine ⟨by omega, fun i hi => ?_, Or.inr hkept⟩
    rw [hw] at hi
    rcases List.mem_append.mp hi with hi | hi
    · exact hread i hi
    · have hbound := hin i hi
      omega
  · have hle := hroom hsuffix
    refine ⟨by omega, fun i hi => ?_, Or.inr hkept⟩
    rw [hw] at hi
    rcases List.mem_append.mp hi with hi | hi
    · exact hread i hi
    · have hbound := mem_indicesFrom.mp hi
      omega

/-- The buffer is in order after an iteration exactly when the piece fits. -/
theorem mapsPass_ok_iff {piece : List Char} (hlen : piece.length ≤ mapBufSz - 1) :
    BufferOk (mapsPass piece) ↔ PieceFits piece :=
  ⟨fits_of_bufferOk, bufferOk_of_fits hlen⟩

/-- The pieces the loop comes to: the program is gone at a line without a blank behind its
inode number. -/
def reached : List (List Char) → List (List Char)
  | [] => []
  | piece :: pieces =>
      piece :: if (mapsPass piece).action = .crash then [] else reached pieces

theorem exec_eq_none (k : Kernel) (g : Glctx) {action : MapsAction} :
    action.exec k g = none ↔ action = .crash := by
  cases action <;> simp [MapsAction.exec]

/-- The iterations of a run are those of the pieces reached. -/
theorem runPieces_passes (k : Kernel) (pieces : List (List Char)) : ∀ r : MapsRun,
    (runPieces k pieces r).2.passes = r.passes ++ (reached pieces).map mapsPass := by
  induction pieces with
  | nil => intro r; simp [runPieces, reached]
  | cons piece pieces ih =>
      intro r
      rw [runPieces, reached]
      rcases hexec : (mapsPass piece).action.exec k r.table with _ | g
      · rw [if_pos ((exec_eq_none k r.table).mp hexec)]
        rfl
      · have hgo : (mapsPass piece).action ≠ .crash := by
          intro hcrash
          rw [(exec_eq_none k r.table).mpr hcrash] at hexec
          cases hexec
        rw [if_neg hgo]
        simp [ih]

theorem reached_subset : ∀ {pieces : List (List Char)}, ∀ piece ∈ reached pieces, piece ∈ pieces
  | first :: pieces, piece, hmem => by
      rw [reached] at hmem
      rcases List.mem_cons.mp hmem with rfl | hmem
      · exact List.mem_cons_self
      · split at hmem
        · cases hmem
        · exact List.mem_cons_of_mem _ (reached_subset piece hmem)

/-- On every file the loop ends, with an iteration for every piece reached. -/
theorem getTaskSegmentsLoop_passes (k : Kernel) {fuel : Nat} {maps : List Char} (r : MapsRun)
    (hfuel : maps.length < fuel) :
    ∃ how r', getTaskSegmentsLoop k fuel maps r = some (how, r') ∧
      r'.passes = r.passes ++ (reached (mapsPieces maps)).map mapsPass :=
  ⟨_, _, getTaskSegmentsLoop_eq k r hfuel, runPieces_passes k _ r⟩

/-- On every file the loop ends, and the buffer is in order after all its iterations exactly
when every piece it reads ends in a newline and has room for its suffix. -/
theorem maps_buffer_ok_iff (k : Kernel) (g : Glctx) (maps : List Char) :
    ∃ how r, getTaskSegmentsLoop k (maps.length + 1) maps ⟨g, []⟩ = some (how, r) ∧
      ((∀ pass ∈ r.passes, BufferOk pass) ↔ ∀ piece ∈ reached (mapsPieces maps), PieceFits piece) := by
  obtain ⟨how, r, hrun, hpasses⟩ := getTaskSegmentsLoop_passes k ⟨g, []⟩ (Nat.lt_succ_self _)
  refine ⟨how, r, hrun, ?_⟩
  rw [hpasses, List.nil_append, List.forall_mem_map]
  refine forall_congr' fun piece => forall_congr' fun hmem => ?_
  exact mapsPass_ok_iff (length_mapsPieces maps piece (reached_subset piece hmem))

/-- A line with a path of 110 bytes. -/
def longLine : CStr :=
  ['1', '-', '2', ' ', 'r', '-', 'x', 'p', ' ', '0', ' ', '0', ':', '0', ' ', '1', ' ', '/'] ++
    List.replicate 109 'a'

set_option maxRecDepth 4000 in
/-- `fgets` cuts it before its newline. The last byte of the path is taken for one, and the
suffix ends four bytes behind the buffer. -/
theorem maps_buffer_long_path :
    ∃ how r, getTaskSegmentsLoop sampleKernel 129 (longLine ++ ['\n']) ⟨sampleTable, []⟩ =
        some (how, r) ∧
      ∃ pass ∈ r.passes, ¬ pass.buf.length + 1 ≤ mapBufSz ∧ (131 : Int) ∈ pass.writes ∧
        ¬ (pass.input = pass.raw ∨ pass.raw = pass.input ++ ['\n']) := by
  obtain ⟨how, r, hrun, hpasses⟩ := @getTaskSegmentsLoop_passes sampleKernel 129
    (longLine ++ ['\n']) ⟨sampleTable, []⟩ (by decide)
  have hpieces : mapsPieces (longLine ++ ['\n']) = [longLine, ['\n']] := by decide
  refine ⟨how, r, hrun, mapsPass longLine, ?_, by decide, by decide, by decide⟩
  rw [hpasses, hpieces]
  exact List.mem_append_right _ (List.mem_map_of_mem List.mem_cons_self)

end Memtoy
