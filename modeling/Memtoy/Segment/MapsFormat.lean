import Memtoy.Segment.TaskMaps

/-!
# Segment.MapsFormat — the kernel's lines of the maps file

A `MapsLine` is a line as the kernel writes it. `LineDecoded` is what reading it does to
the table: at most one segment, whose record is the line's. `getTaskSegments_decodes`
says so of files of such lines, from any table, and `getTaskSegmentsLoop_entries` that
reading them is the `getTaskSegments` on entries that `segment_init` is modelled with.
-/

namespace Memtoy

open CString Relation

/-! ## Registering an entry -/

/-- What the registration of an entry of the maps does to the live segments. -/
theorem mapsEntry_registers (k : Kernel) {g : Glctx} (h : RepInv g) (m : MapsEntry) :
    let g' := (segmentRegister k g m.type m.path m.range (mapPrivate ||| segfMaps)).2
    RepInv g' ∧ (¬ g.NameFree (basename m.path) → g'.liveSegs = g.liveSegs) ∧
      (g.NameFree (basename m.path) → g.live.length < maxSegments → ∃ segp s, segp ∉ g.live ∧
        g'.liveSegs.Perm ((segp, s) :: g.liveSegs) ∧ s.segName = some (basename m.path) ∧
        s.segType = m.type ∧ s.segStart = m.start ∧ s.segLength = m.endp - m.start ∧
        s.isMaps = true) := by
  intro g'
  have hg' : RepInv g' :=
    Trans.preserved_of_star RepInv (fun _ _ hstep => hstep.repInv) (mapsEntry_star k h m) h
  have hsame := segmentGet_liveSegs h (basename m.path)
  have hresult := segmentGet_result h (basename m.path)
  refine ⟨hg', ?_⟩
  rcases hget : segmentGet g (basename m.path) with ⟨_ | p, g₁⟩
  · rw [hget] at hsame hresult
    have hfree : g.NameFree (basename m.path) := by
      rcases hresult with ⟨p, hp, -⟩ | ⟨-, hfree⟩
      · cases hp
      · exact hfree
    refine ⟨fun hno => absurd hfree hno, fun _ hroom => ?_⟩
    have hlive := live_of_liveSegs hsame
    obtain ⟨-, ⟨segp, hav, hun⟩ | ⟨rfl, -, hfull, hall⟩⟩ := segmentGet_none h hget
    · -- the lookup has left an unused slot in the cache
      have h₁ : RepInv g₁ := by
        have hrep := segmentGet_repInv h (basename m.path)
        rwa [hget] at hrep
      have heq := segmentRegister_mapsRecord k hav m.type m.range hget
        (show (mapPrivate ||| segfMaps) &&& segfMaps ≠ 0 by decide)
      rw [mapsRecord_eq] at heq
      have hheap := congrArg (fun r => r.2.heap) heq
      have hent := congrArg (fun r => r.2.entries) heq
      have htype : m.type ≠ .segtNone := by
        rcases m.type_ok with ht | ht <;> rw [ht] <;> simp
      obtain ⟨hnew, hperm⟩ := liveSegs_insert h₁ hg' hun hent hheap htype
      rw [hlive] at hnew
      rw [hsame] at hperm
      exact ⟨segp, _, hnew, hperm, by simp [newRecord, basename_basenameEdit], rfl, rfl, rfl, by
        simp [Segment.isMaps, newRecord, mapPrivate, segfMaps]⟩
    · -- every slot is in use
      exact absurd (live_length_of_full hfull hall) hroom.ne
  · -- the name is taken
    rw [hget] at hsame
    have hres : g' = g₁ := by
      show (segmentRegister k g m.type m.path m.range (mapPrivate ||| segfMaps)).2 = g₁
      simp only [segmentRegister, hget]
    obtain ⟨hp, hname, -⟩ := segmentGet_some h hget
    exact ⟨fun _ => hres ▸ hsame, fun hfree => absurd hname (hfree p hp)⟩

/-! ## The format -/

/-- A line of the kernel's format, `start-end perm pgoff major:minor ino`, one blank and
`blanks` more, and the path. -/
structure MapsLine where
  start : CStr
  endp : CStr
  perm : CStr
  pgoff : CStr
  major : CStr
  minor : CStr
  ino : CStr
  blanks : Nat
  path : CStr
  start_hex : IsDigits 16 start
  endp_hex : IsDigits 16 endp
  pgoff_hex : IsDigits 16 pgoff
  major_hex : IsDigits 16 major
  minor_hex : IsDigits 16 minor
  ino_dec : IsDigits 10 ino
  start_lt : valueIn 16 start < valueIn 16 endp
  endp_lt : valueIn 16 endp < 2 ^ 64
  perm_length : perm.length = 4
  perm_plain : ∀ c ∈ perm, isSpace c = false ∧ c ≠ ':' ∧ c ≠ nul
  path_plain : nul ∉ path ∧ '\n' ∉ path ∧ path.head? ≠ some ' '

namespace MapsLine

variable (l : MapsLine)

/-- What stands behind the inode number. -/
def pathField : CStr := ' ' :: (List.replicate l.blanks ' ' ++ l.path)

/-- The line, without its newline. -/
def text : CStr :=
  l.start ++ '-' :: (l.endp ++ ' ' :: (l.perm ++ ' ' :: (l.pgoff ++ ' ' :: (l.major ++
    ':' :: (l.minor ++ ' ' :: (l.ino ++ l.pathField))))))

/-- The line is about a segment: it has a path, and its memory can be accessed. -/
def Registers : Prop := l.path ≠ [] ∧ ¬ ['-', '-', '-'] <+: l.perm

instance : Decidable l.Registers := inferInstanceAs (Decidable (_ ∧ _))

/-- A file with an inode, mapped without write permission. -/
def type : SegType :=
  if valueIn 10 l.ino ≠ 0 ∧ l.perm[1]? ≠ some 'w' then .segtFile else .segtAnon

/-- What the name is the `basename` of. -/
def namePath : CStr :=
  if l.path.head? = some '[' then l.path.tail.takeWhile (· ≠ ']') else l.path ++ pathSuffix l.type

def name : CStr := basename l.namePath

/-- The line as it is handed to `segment_register`. -/
def entry : MapsEntry where
  type := l.type
  path := l.namePath
  start := BitVec.ofNat 64 (valueIn 16 l.start)
  endp := BitVec.ofNat 64 (valueIn 16 l.endp)
  offset :=
    if BitVec.ofNat 64 (capped (valueIn 16 l.pgoff)) ≠ BitVec.ofNat 64 (valueIn 16 l.start) then
      BitVec.ofNat 64 (capped (valueIn 16 l.pgoff))
    else 0
  type_ok := by
    unfold type
    split <;> simp
  start_lt := by
    have hlt := l.start_lt
    have hend := l.endp_lt
    rw [BitVec.lt_def, BitVec.toNat_ofNat, BitVec.toNat_ofNat, Nat.mod_eq_of_lt hend,
      Nat.mod_eq_of_lt (hlt.trans hend)]
    exact hlt

/-! ## Reading the fields -/

theorem pathField_stops : Stops 10 l.pathField := by
  exact stops_cons 10 (by decide) (by decide) _

/-- The fields of the line are what `sscanf` assigns. -/
theorem scanFields_text : scanFields l.text = some
    { start := BitVec.ofNat 64 (valueIn 16 l.start)
      endp := BitVec.ofNat 64 (valueIn 16 l.endp)
      perm := l.perm
      vmPgoff := BitVec.ofNat 64 (capped (valueIn 16 l.pgoff))
      ino := (Item.num false (valueIn 10 l.ino)).long } := by
  have hne : l.perm ≠ [] := by
    intro hnil
    have hlen := l.perm_length
    rw [hnil] at hlen
    cases hlen
  have hspace : ∀ c ∈ l.perm, isSpace c = false := fun c hc => (l.perm_plain c hc).1
  have hperm : ∀ format rest, scanf (.word 4 :: format) (l.perm ++ rest) =
      .word l.perm :: scanf format rest := by
    intro format rest
    rw [← l.perm_length]
    exact scanf_word hspace hne
  have hscan : scanf mapsFormat l.text =
      [.num false (valueIn 16 l.start), .num false (valueIn 16 l.endp), .word l.perm,
        .num false (valueIn 16 l.pgoff), .num false (valueIn 16 l.major),
        .num false (valueIn 16 l.minor), .num false (valueIn 10 l.ino)] := by
    unfold mapsFormat text
    rw [scanf_digits (Or.inr rfl) l.start_hex (stops_cons 16 (by decide) (by decide) _), scanf_lit,
      scanf_digits (Or.inr rfl) l.endp_hex (stops_cons 16 (by decide) (by decide) _),
      scanf_blank (head_of_field hne hspace), hperm, scanf_blank l.pgoff_hex.head,
      scanf_digits (Or.inr rfl) l.pgoff_hex (stops_cons 16 (by decide) (by decide) _),
      scanf_blank l.major_hex.head,
      scanf_digits (Or.inr rfl) l.major_hex (stops_cons 16 (by decide) (by decide) _), scanf_lit,
      scanf_digits (Or.inr rfl) l.minor_hex (stops_cons 16 (by decide) (by decide) _),
      scanf_blank l.ino_dec.head, scanf_digits (Or.inl rfl) l.ino_dec l.pathField_stops]
    rfl
  have hend := l.endp_lt
  unfold scanFields
  rw [hscan]
  simp only [Item.ulong_num, capped_of_lt hend, capped_of_lt (l.start_lt.trans hend)]
  rfl

/-- A byte of no field is not in the line. -/
theorem not_mem_text {c : Char} (hc : digitVal c = none) (hsep : c ∉ ['-', ' ', ':'])
    (hperm : c ∉ l.perm) (hpath : c ∉ l.path) : c ∉ l.text := by
  simp only [List.mem_cons, List.not_mem_nil, or_false, not_or] at hsep
  obtain ⟨hdash, hblank, hcolon⟩ := hsep
  simp [text, pathField, l.start_hex.not_mem hc, l.endp_hex.not_mem hc, l.pgoff_hex.not_mem hc,
    l.major_hex.not_mem hc, l.minor_hex.not_mem hc, l.ino_dec.not_mem hc, hperm, hpath, hdash,
    hblank, hcolon]

theorem nul_not_mem : nul ∉ l.text :=
  l.not_mem_text (by decide) (by decide) (fun h => (l.perm_plain _ h).2.2 rfl) l.path_plain.1

theorem newline_not_mem : '\n' ∉ l.text := by
  refine l.not_mem_text (by decide) (by decide) (fun h => ?_) l.path_plain.2.1
  have hspace := (l.perm_plain _ h).1
  cases hspace

/-- The three `strchr` and the `strspn` come to the path. -/
theorem findPath_text : findPath l.text = some l.path := by
  have hsplit : l.text = (l.start ++ '-' :: (l.endp ++ ' ' :: (l.perm ++ ' ' :: (l.pgoff ++
      ' ' :: l.major)))) ++ ':' :: (l.minor ++ ' ' :: (l.ino ++ l.pathField)) := by
    simp [text]
  have hmajor : strchr l.text ':' = some (':' :: (l.minor ++ ' ' :: (l.ino ++ l.pathField))) := by
    rw [hsplit]
    apply strchr_append
    have hcolon : digitVal ':' = none := by decide
    have hperm : ':' ∉ l.perm := fun h => (l.perm_plain _ h).2.1 rfl
    simp [l.start_hex.not_mem hcolon, l.endp_hex.not_mem hcolon, l.pgoff_hex.not_mem hcolon,
      l.major_hex.not_mem hcolon, hperm]
  have hblank : digitVal ' ' = none := by decide
  have hminor : strchr (':' :: (l.minor ++ ' ' :: (l.ino ++ l.pathField))) ' ' =
      some (' ' :: (l.ino ++ l.pathField)) := by
    have hno : ' ' ∉ ':' :: l.minor := by simp [l.minor_hex.not_mem hblank]
    exact strchr_append hno _
  have hino : strchr (l.ino ++ l.pathField) ' ' = some l.pathField :=
    strchr_append (l.ino_dec.not_mem hblank) _
  have hskip : skipSpan [' '] l.pathField = l.path := by
    refine dropWhile_append_stop (s := ' ' :: List.replicate l.blanks ' ') ?_ ?_
    · simp
    · intro c hc
      have hne := l.path_plain.2.2
      rw [hc] at hne
      simpa using fun heq : c = ' ' => hne (congrArg some heq)
  unfold findPath
  rw [hmajor, Option.bind_some, hminor, Option.bind_some, List.tail_cons, hino, Option.map_some,
    hskip]

/-! ## One iteration -/

theorem noAccess_iff : strncmpEq l.perm ['-', '-', '-'] 3 = true ↔ ['-', '-', '-'] <+: l.perm := by
  have hword : nul ∉ ['-', '-', '-'] := by decide
  rw [strncmpEq_comm]
  exact strncmpEq_iff hword (List.prefix_refl _)

/-- The test of the permissions and of the inode number. -/
theorem anon_iff : ((Item.num false (valueIn 10 l.ino)).long = 0 ∨ byteAt l.perm 1 = 'w') ↔
    ¬ (valueIn 10 l.ino ≠ 0 ∧ l.perm[1]? ≠ some 'w') := by
  have hlen : 1 < l.perm.length := by
    have hfour := l.perm_length
    omega
  have hbyte : byteAt l.perm 1 = 'w' ↔ l.perm[1]? = some 'w' := by
    rw [byteAt, List.getD_eq_getElem?_getD, List.getElem?_eq_getElem hlen]
    simp
  rw [Item.long_eq_zero, hbyte]
  tauto

/-- `classify_segment` finds the type and makes the name. -/
theorem classifySegment_text (input : CStr) :
    (classifySegment l.perm input l.path (Item.num false (valueIn 10 l.ino)).long).type = l.type ∧
    (classifySegment l.perm input l.path (Item.num false (valueIn 10 l.ino)).long).path =
      l.namePath := by
  have htype : (if (Item.num false (valueIn 10 l.ino)).long = 0 ∨ byteAt l.perm 1 = 'w' then
      SegType.segtAnon else .segtFile) = l.type := by
    unfold type
    by_cases hfile : valueIn 10 l.ino ≠ 0 ∧ l.perm[1]? ≠ some 'w'
    · rw [if_pos hfile, if_neg (fun hanon => l.anon_iff.mp hanon hfile)]
    · rw [if_neg hfile, if_pos (l.anon_iff.mpr hfile)]
  simp only [classifySegment, htype, namePath]
  split
  · split
    · exact ⟨rfl, rfl⟩
    · next hopen =>
      -- without a `]` the name is the rest of the line
      refine ⟨rfl, (List.takeWhile_eq_self_iff.mpr fun c hc => ?_).symm⟩
      simpa using fun heq : c = ']' => hopen (heq ▸ hc)
  · exact ⟨rfl, rfl⟩

/-- What the iteration for a line comes to. -/
def action : MapsAction :=
  if l.Registers then .register l.entry.type l.entry.path l.entry.range else .skip

theorem mapsPass_text : (mapsPass (l.text ++ ['\n'])).action = l.action := by
  have hstr : cstr (l.text ++ ['\n']) = l.text ++ ['\n'] := by
    apply cstr_eq
    rw [List.mem_append, List.mem_singleton]
    rintro (hmem | heq)
    · exact l.nul_not_mem hmem
    · exact absurd heq (by decide)
  obtain ⟨htype, hpath⟩ := l.classifySegment_text l.text
  simp only [mapsPass, hstr, List.dropLast_concat, l.scanFields_text, l.findPath_text, htype, hpath]
  by_cases haccess : ['-', '-', '-'] <+: l.perm
  · rw [if_pos (l.noAccess_iff.mpr haccess), action, if_neg (fun hreg => hreg.2 haccess)]
  · rw [if_neg (fun hno => haccess (l.noAccess_iff.mp hno))]
    by_cases hempty : l.path = []
    · rw [if_pos hempty, action, if_neg (fun hreg => hreg.1 hempty)]
    · rw [if_neg hempty, action, if_pos ⟨hempty, haccess⟩]
      rfl

/-! ## The table -/

/-- The table after the iteration. -/
def exec (k : Kernel) (g : Glctx) : Glctx :=
  if l.Registers then
    (segmentRegister k g l.entry.type l.entry.path l.entry.range (mapPrivate ||| segfMaps)).2
  else g

theorem exec_action (k : Kernel) (g : Glctx) : l.action.exec k g = some (l.exec k g) := by
  unfold action exec
  split <;> rfl

/-- The record is the line's. -/
structure Describes (s : Segment) : Prop where
  name : s.segName = some l.name
  type : s.segType = .segtFile ∨ s.segType = .segtAnon
  file_iff : s.segType = .segtFile ↔ valueIn 10 l.ino ≠ 0 ∧ l.perm[1]? ≠ some 'w'
  start : s.segStart.toNat = valueIn 16 l.start
  length : s.segLength.toNat = valueIn 16 l.endp - valueIn 16 l.start
  maps : s.isMaps = true

/-- What reading a line does to the table. -/
structure Decoded (g g' : Glctx) : Prop where
  rep : RepInv g'
  skipped : ¬ l.Registers → g' = g
  taken : l.Registers → ¬ g.NameFree l.name → g'.liveSegs = g.liveSegs
  added : l.Registers → g.NameFree l.name → g.live.length < maxSegments →
    ∃ segp s, segp ∉ g.live ∧ g'.liveSegs.Perm ((segp, s) :: g.liveSegs) ∧ l.Describes s

theorem describes_entry {s : Segment} (hname : s.segName = some (basename l.entry.path))
    (htype : s.segType = l.entry.type) (hstart : s.segStart = l.entry.start)
    (hlength : s.segLength = l.entry.endp - l.entry.start) (hmaps : s.isMaps = true) :
    l.Describes s := by
  have hlt := l.start_lt
  have hend := l.endp_lt
  have hs : l.entry.start.toNat = valueIn 16 l.start :=
    (BitVec.toNat_ofNat ..).trans (Nat.mod_eq_of_lt (hlt.trans hend))
  have he : l.entry.endp.toNat = valueIn 16 l.endp :=
    (BitVec.toNat_ofNat ..).trans (Nat.mod_eq_of_lt hend)
  have htype' : s.segType = l.type := htype
  refine ⟨hname, ?_, ?_, ?_, ?_, hmaps⟩
  · rw [htype', type]
    split <;> simp
  · rw [htype', type]
    split
    · next hfile => simp [hfile]
    · next hfile => simp [hfile]
  · rw [hstart, hs]
  · rw [hlength, BitVec.toNat_sub_of_le (BitVec.le_def.mpr (by omega)), hs, he]

/-- One line registers at most one segment, and that one is the line's. -/
theorem exec_decoded (k : Kernel) {g : Glctx} (h : RepInv g) : l.Decoded g (l.exec k g) := by
  by_cases hreg : l.Registers
  · obtain ⟨hrep, htaken, hadded⟩ := mapsEntry_registers k h l.entry
    have hexec : l.exec k g = (segmentRegister k g l.entry.type l.entry.path l.entry.range
        (mapPrivate ||| segfMaps)).2 := if_pos hreg
    rw [hexec]
    refine ⟨hrep, fun hno => absurd hreg hno, fun _ => htaken, fun _ hfree hroom => ?_⟩
    obtain ⟨segp, s, hnew, hperm, hname, htype, hstart, hlength, hmaps⟩ := hadded hfree hroom
    exact ⟨segp, s, hnew, hperm, l.describes_entry hname htype hstart hlength hmaps⟩
  · have hexec : l.exec k g = g := if_neg hreg
    rw [hexec]
    exact ⟨h, fun _ => rfl, fun hyes => absurd hyes hreg, fun hyes => absurd hyes hreg⟩

end MapsLine

/-! ## The file -/

/-- A file of such lines. -/
def mapsFile (lines : List MapsLine) : List Char := lines.flatMap fun l => l.text ++ ['\n']

/-- The lines have been read, one after the other. -/
inductive LinesDecoded : List MapsLine → Glctx → Glctx → Prop where
  | nil (g : Glctx) : LinesDecoded [] g g
  | cons {l : MapsLine} {lines : List MapsLine} {g g' g'' : Glctx} :
      l.Decoded g g' → LinesDecoded lines g' g'' → LinesDecoded (l :: lines) g g''

/-- The run after a line. -/
def MapsRun.after (k : Kernel) (r : MapsRun) (l : MapsLine) : MapsRun :=
  ⟨l.exec k r.table, r.passes ++ [mapsPass (l.text ++ ['\n'])]⟩

/-- A line that is short enough takes one iteration. -/
theorem getTaskSegmentsLoop_line (k : Kernel) {l : MapsLine} (hfit : l.text.length ≤ maxMapsText)
    (fuel : Nat) (rest : List Char) (r : MapsRun) :
    getTaskSegmentsLoop k (fuel + 1) (l.text ++ '\n' :: rest) r =
      getTaskSegmentsLoop k fuel rest (r.after k l) := by
  have hlen : l.text.length < mapBufSz - 1 := Nat.lt_of_le_of_lt hfit (by decide)
  have hgets : fgets mapBufSz (l.text ++ '\n' :: rest) = some (l.text ++ ['\n'], rest) := by
    unfold fgets
    rw [if_neg (by simp), takeLine_fits l.newline_not_mem rest hlen]
  have heof : ¬ hitEof (l.text ++ ['\n']) := fun h => h.1 (by simp)
  have hexec : (mapsPass (l.text ++ ['\n'])).action.exec k r.table = some (l.exec k r.table) := by
    rw [l.mapsPass_text, l.exec_action]
  simp only [getTaskSegmentsLoop, hgets, hexec]
  rw [if_neg heof]
  rfl

theorem getTaskSegmentsLoop_lines (k : Kernel) {lines : List MapsLine}
    (hfit : ∀ l ∈ lines, l.text.length ≤ maxMapsText) (fuel : Nat) (rest : List Char) (r : MapsRun) :
    getTaskSegmentsLoop k (lines.length + fuel) (mapsFile lines ++ rest) r =
      getTaskSegmentsLoop k fuel rest (lines.foldl (MapsRun.after k) r) := by
  induction lines generalizing r with
  | nil =>
      rw [List.length_nil, Nat.zero_add]
      rfl
  | cons l lines ih =>
      have hcount : (l :: lines).length + fuel = lines.length + fuel + 1 := by
        rw [List.length_cons]
        omega
      have htext : mapsFile (l :: lines) ++ rest = l.text ++ '\n' :: (mapsFile lines ++ rest) := by
        simp [mapsFile]
      rw [hcount, htext, getTaskSegmentsLoop_line k (hfit l List.mem_cons_self),
        ih (fun l' hl' => hfit l' (List.mem_cons_of_mem l hl'))]
      rfl

theorem lines_decoded (k : Kernel) (lines : List MapsLine) (r : MapsRun) (h : RepInv r.table) :
    LinesDecoded lines r.table (lines.foldl (MapsRun.after k) r).table := by
  induction lines generalizing r with
  | nil => exact .nil _
  | cons l lines ih =>
      have hdec := l.exec_decoded k h
      exact .cons hdec (ih (r.after k l) hdec.rep)

/-- The loop reads lines of the kernel's format one by one, from any table in shape, and
ends at the end of the file. -/
theorem getTaskSegments_decodes (k : Kernel) {lines : List MapsLine}
    (hfit : ∀ l ∈ lines, l.text.length ≤ maxMapsText) (rest : List Char) {r : MapsRun}
    (hrep : RepInv r.table) :
    ∃ r', LinesDecoded lines r.table r'.table ∧
      (∀ fuel, getTaskSegmentsLoop k (lines.length + fuel) (mapsFile lines ++ rest) r =
        getTaskSegmentsLoop k fuel rest r') ∧
      ∀ fuel, getTaskSegmentsLoop k (lines.length + (fuel + 1)) (mapsFile lines) r =
        some (.eof, r') := by
  refine ⟨lines.foldl (MapsRun.after k) r, lines_decoded k lines r hrep,
    fun fuel => getTaskSegmentsLoop_lines k hfit fuel rest r, fun fuel => ?_⟩
  have hrun := getTaskSegmentsLoop_lines k hfit (fuel + 1) [] r
  rw [List.append_nil] at hrun
  rw [hrun]
  rfl

theorem digits_of_all {base : Nat} {ds : CStr} (hne : ds ≠ []) (h : ds.all (isDigitIn base) = true) :
    IsDigits base ds :=
  ⟨hne, by simpa using h⟩

/-- `1000-3000 r-xp 0 8:1 7 /b/c` -/
def sampleLine : MapsLine where
  start := ['1', '0', '0', '0']
  endp := ['3', '0', '0', '0']
  perm := ['r', '-', 'x', 'p']
  pgoff := ['0']
  major := ['8']
  minor := ['1']
  ino := ['7']
  blanks := 0
  path := ['/', 'b', '/', 'c']
  start_hex := digits_of_all (by decide) rfl
  endp_hex := digits_of_all (by decide) rfl
  pgoff_hex := digits_of_all (by decide) rfl
  major_hex := digits_of_all (by decide) rfl
  minor_hex := digits_of_all (by decide) rfl
  ino_dec := digits_of_all (by decide) rfl
  start_lt := by decide
  endp_lt := by decide
  perm_length := rfl
  perm_plain := forall_mem_of_all rfl
  path_plain := ⟨by decide, by decide, by decide⟩

/-- The concrete machine reads a line of a library into the empty table. -/
theorem getTaskSegments_decodes_library :
    ∃ r', LinesDecoded [sampleLine] (emptyTable sampleConfig) r'.table ∧
      getTaskSegmentsLoop sampleKernel 2 (mapsFile [sampleLine]) ⟨emptyTable sampleConfig, []⟩ =
        some (.eof, r') := by
  have hfit : ∀ l ∈ [sampleLine], l.text.length ≤ maxMapsText := by
    intro l hl
    rw [List.mem_singleton.mp hl]
    decide
  obtain ⟨r', hdec, -, hend⟩ := getTaskSegments_decodes sampleKernel hfit []
    (r := ⟨emptyTable sampleConfig, []⟩) (emptyTable_repInv sampleConfig)
  exact ⟨r', hdec, hend 0⟩

/-- The entries of a file, as `segment_init` takes them. -/
def mapsEntries (lines : List MapsLine) : List MapsEntry :=
  (lines.filter fun l => l.Registers).map MapsLine.entry

/-- Reading a file of such lines is registering its entries. -/
theorem getTaskSegmentsLoop_entries (k : Kernel) {lines : List MapsLine}
    (hfit : ∀ l ∈ lines, l.text.length ≤ maxMapsText) (r : MapsRun) :
    ∃ passes, getTaskSegmentsLoop k (lines.length + 1) (mapsFile lines) r =
      some (.eof, ⟨getTaskSegments k (mapsEntries lines) r.table, passes⟩) := by
  have hrun := getTaskSegmentsLoop_lines k hfit 1 [] r
  rw [List.append_nil] at hrun
  have htable : (lines.foldl (MapsRun.after k) r).table =
      getTaskSegments k (mapsEntries lines) r.table := by
    clear hrun hfit
    induction lines generalizing r with
    | nil => rfl
    | cons l lines ih =>
        rw [List.foldl_cons, ih]
        by_cases hreg : l.Registers
        · simp [mapsEntries, getTaskSegments, MapsRun.after, MapsLine.exec, hreg]
        · simp [mapsEntries, MapsRun.after, MapsLine.exec, hreg]
  refine ⟨(lines.foldl (MapsRun.after k) r).passes, ?_⟩
  rw [hrun, ← htable]
  rfl

end Memtoy
