import Memtoy.Lib.Numeral
import Memtoy.Segment.Accesses

/-!
# Segment.Layout — the rows `segment_location` prints

`segment_location` prints the nodes of the pages in rows of eight, each row behind the
index of its first page; a range that starts inside a row starts with blank cells. The
rows (`WhereRow`) are built up page by page, as the loop prints them; what every row
keeps (`WhereRow.Ok`) puts page `i` in column `i % 8` of the row of `i - i % 8`.
-/

namespace Memtoy

open CString MachineWord

/-! ## The text -/

/-- `"%12lx: "` of an index below 2 ^ 31. -/
def labelText (pgid : Nat) : CStr := List.leftpad 12 ' ' (Nat.toDigits 16 pgid) ++ ": ".toList

/-- `" %3d"` of a node that is not negative. -/
def nodeCell (node : Int) : CStr := ' ' :: List.leftpad 3 ' ' (Nat.toDigits 10 node.toNat)

def padCell : CStr := "    ".toList

/-- What is printed for a piece. -/
def WhereTok.text : WhereTok → CStr
  | .label pgid => labelText pgid.toNat
  | .pad => padCell
  | .node n => nodeCell n
  | .newline => ['\n']

def whereText (out : List WhereTok) : CStr := out.flatMap WhereTok.text

/-! Reading a line of the display: the label, and a cell of it. -/

def labelOf (line : CStr) : CStr := line.take 14

def cellOf (line : CStr) (col : Nat) : CStr := (line.drop (14 + 4 * col)).take 4

/-- The node of a page, when it is printed with three digits at most. -/
def IsNode (node : Int) : Prop := 0 ≤ node ∧ node < 1000

theorem length_labelText {pgid : Nat} (h : pgid < 2 ^ 31) : (labelText pgid).length = 14 := by
  have hlen : (Nat.toDigits 16 pgid).length ≤ 12 :=
    (Nat.length_toDigits_le_iff (by decide) (by decide)).mpr (h.trans (by decide))
  rw [labelText, List.length_append, List.length_leftpad, Nat.max_eq_left hlen]
  rfl

theorem length_nodeCell {node : Int} (h : IsNode node) : (nodeCell node).length = 4 := by
  obtain ⟨hnonneg, hlt⟩ := h
  have hlen : (Nat.toDigits 10 node.toNat).length ≤ 3 :=
    (Nat.length_toDigits_le_iff (by decide) (by decide)).mpr (by omega)
  rw [nodeCell, List.length_cons, List.length_leftpad, Nat.max_eq_left hlen]

theorem not_newline_of_digit {base : Nat} {c : Char} (h : isDigitIn base c = true) : c ≠ '\n' := by
  rintro rfl
  exact absurd h (by simp [isDigitIn, digitVal])

theorem newline_not_mem_leftpad {n : Nat} {s : CStr} (h : ∀ c ∈ s, c ≠ '\n') :
    '\n' ∉ List.leftpad n ' ' s := by
  intro hmem
  rcases List.mem_append.mp hmem with hmem | hmem
  · exact absurd (List.eq_of_mem_replicate hmem) (by decide)
  · exact h _ hmem rfl

theorem newline_not_mem_labelText (pgid : Nat) : '\n' ∉ labelText pgid := by
  intro hmem
  rcases List.mem_append.mp hmem with hmem | hmem
  · exact newline_not_mem_leftpad (fun c hc => not_newline_of_digit
      (@isDigitIn_toDigits 16 (by decide) (by decide) _ c hc)) hmem
  · exact absurd hmem (by decide)

theorem newline_not_mem_nodeCell (node : Int) : '\n' ∉ nodeCell node := by
  intro hmem
  rcases List.mem_cons.mp hmem with hmem | hmem
  · exact absurd hmem (by decide)
  · exact newline_not_mem_leftpad (fun c hc => not_newline_of_digit
      (@isDigitIn_toDigits 10 (by decide) (by decide) _ c hc)) hmem

/-- A label tells its index. -/
theorem labelText_injective {a b : Nat} (h : labelText a = labelText b) : a = b := by
  have hdigits : List.leftpad 12 ' ' (Nat.toDigits 16 a) = List.leftpad 12 ' ' (Nat.toDigits 16 b) :=
    List.append_cancel_right h
  -- without the blanks in front the digits are left
  have hstrip : ∀ n, (List.leftpad 12 ' ' (Nat.toDigits 16 n)).dropWhile (· = ' ') =
      Nat.toDigits 16 n := by
    intro n
    apply dropWhile_append_stop
    · intro c hc
      simpa using List.eq_of_mem_replicate hc
    · intro c hc
      have hdigit := @isDigitIn_toDigits 16 (by decide) (by decide) n c
        (List.mem_of_mem_head? hc)
      by_contra hblank
      have heq : c = ' ' := by simpa using hblank
      rw [heq] at hdigit
      exact absurd hdigit (by decide)
  have hsame : Nat.toDigits 16 a = Nat.toDigits 16 b := by rw [← hstrip a, ← hstrip b, hdigits]
  rw [← @valueIn_toDigits 16 (by decide) (by decide) a, hsame,
    valueIn_toDigits (by decide) (by decide)]

/-! ## Rows -/

/-- A row, with `none` for the blank cells before the range. -/
structure WhereRow where
  label : Nat
  cells : List (Option Int)

/-- A cell of a row. -/
def cellText : Option Int → CStr
  | none => padCell
  | some node => nodeCell node

def WhereRow.text (r : WhereRow) : CStr := labelText r.label ++ r.cells.flatMap cellText

def WhereRow.push (r : WhereRow) (node : Int) : WhereRow :=
  { r with cells := r.cells ++ [some node] }

/-- The rows from the one that is being printed on, with `m` pages to go from page `i` on. -/
def rowsFrom (node : Nat → Int) : (m i : Nat) → WhereRow → List WhereRow
  | 0, _, cur => [cur]
  | m + 1, i, cur =>
      if i % 8 = 0 then cur :: rowsFrom node m (i + 1) ⟨i, [some (node i)]⟩
      else rowsFrom node m (i + 1) (cur.push (node i))

/-- The pieces the loop prints for `m` pages from page `i` on. -/
def whereTokens (node : Nat → Int) : (m i : Nat) → (needNl : Bool) → List WhereTok
  | 0, _, _ => [.newline]
  | m + 1, i, needNl =>
      let row := if i % 8 = 0 then
        (if needNl then [.newline] else []) ++ [.label (BitVec.ofNat 32 i)] else []
      row ++ .node (node i) :: whereTokens node m (i + 1) (if i % 8 = 0 then true else needNl)

theorem push_text (r : WhereRow) (node : Int) : (r.push node).text = r.text ++ nodeCell node := by
  simp [WhereRow.push, WhereRow.text, cellText]

/-- With a row begun, the loop prints the rest of it and the rows after it. -/
theorem text_rowsFrom (node : Nat → Int) : ∀ (m i : Nat) (cur : WhereRow), i + m ≤ 2 ^ 31 →
    cur.text ++ whereText (whereTokens node m i true) =
      (rowsFrom node m i cur).flatMap fun r => r.text ++ ['\n'] := by
  intro m
  induction m with
  | zero =>
      intro i cur _
      simp [whereTokens, whereText, rowsFrom, WhereTok.text]
  | succ m ih =>
      intro i cur hi
      have hsplit : ∀ (row : List WhereTok) (rest : List WhereTok),
          whereText (row ++ .node (node i) :: rest) =
            whereText row ++ nodeCell (node i) ++ whereText rest := by
        intro row rest
        simp [whereText, WhereTok.text]
      simp only [whereTokens]
      rw [hsplit, rowsFrom]
      by_cases hrow : i % 8 = 0
      · -- a new row: the one begun is ended first
        have hlabel : (BitVec.ofNat 32 i).toNat = i := by
          rw [BitVec.toNat_ofNat, Nat.mod_eq_of_lt (by omega)]
        have hnew : (⟨i, [some (node i)]⟩ : WhereRow).text = labelText i ++ nodeCell (node i) := by
          simp [WhereRow.text, cellText]
        rw [if_pos hrow, if_pos hrow, if_pos hrow, List.flatMap_cons, ← ih _ _ (by omega), hnew]
        simp [whereText, WhereTok.text, hlabel]
      · rw [if_neg hrow, if_neg hrow, if_neg hrow, ← ih _ _ (by omega), push_text]
        simp [whereText]

/-- What is printed for a page: its node, or a blank cell before the range. -/
def cellAt (p0 : Nat) (node : Nat → Int) (i : Nat) : Option Int :=
  if i < p0 then none else some (node i)

/-- A row: its label is the index of its first page, and it has the cells of up to eight
pages from there on. -/
structure WhereRow.Ok (p0 : Nat) (node : Nat → Int) (r : WhereRow) : Prop where
  label : r.label % 8 = 0
  some_cell : 0 < r.cells.length
  width : r.cells.length ≤ 8
  cells : ∀ c < r.cells.length, r.cells[c]? = some (cellAt p0 node (r.label + c))

/-- The next page goes to the end of a row that is not full. -/
theorem WhereRow.Ok.push {p0 : Nat} {node : Nat → Int} {r : WhereRow} (h : r.Ok p0 node) {i : Nat}
    (hi : r.label + r.cells.length = i) (hp0 : p0 ≤ i) (hrow : i % 8 ≠ 0) :
    (r.push (node i)).Ok p0 node := by
  have hlabel := h.label
  have hwidth := h.width
  refine ⟨hlabel, by simp [WhereRow.push], ?_, ?_⟩
  · -- with eight cells the next page would begin a row
    simp only [WhereRow.push, List.length_append, List.length_singleton]
    omega
  · intro c hc
    simp only [WhereRow.push, List.length_append, List.length_singleton] at hc ⊢
    rcases Nat.lt_succ_iff_lt_or_eq.mp hc with hlt | rfl
    · rw [List.getElem?_append_left hlt]
      exact h.cells c hlt
    · rw [List.getElem?_append_right le_rfl, Nat.sub_self, hi, cellAt, if_neg (by omega)]
      rfl

/-- What the rows from the one begun on are. -/
structure RowsOk (p0 : Nat) (node : Nat → Int) (first stop : Nat) (rows : List WhereRow) : Prop where
  ok : ∀ r ∈ rows, r.Ok p0 node
  inside : ∀ r ∈ rows, first ≤ r.label ∧ r.label + r.cells.length ≤ stop
  sorted : rows.Pairwise fun r r' => r.label < r'.label
  /-- Every page has a row. -/
  covers : ∀ i, first ≤ i → i < stop → ∃ r ∈ rows, r.label ≤ i ∧ i < r.label + r.cells.length

theorem rowsFrom_ok {p0 : Nat} (node : Nat → Int) : ∀ (m i : Nat) (cur : WhereRow),
    cur.Ok p0 node → cur.label + cur.cells.length = i → p0 ≤ i →
      RowsOk p0 node cur.label (i + m) (rowsFrom node m i cur) := by
  intro m
  induction m with
  | zero =>
      intro i cur hcur hi _
      rw [rowsFrom]
      refine ⟨by simpa using hcur, by simp [hi], by simp, ?_⟩
      intro j hj hlt
      exact ⟨cur, by simp, hj, by omega⟩
  | succ m ih =>
      intro i cur hcur hi hp0
      rw [rowsFrom]
      by_cases hrow : i % 8 = 0
      · rw [if_pos hrow]
        have hnew : (⟨i, [some (node i)]⟩ : WhereRow).Ok p0 node := by
          refine ⟨hrow, by simp, by simp, ?_⟩
          intro c hc
          have hc0 : c = 0 := by simpa using hc
          subst hc0
          simp [cellAt, Nat.not_lt.mpr hp0]
        have hrest := ih (i + 1) _ hnew rfl (by omega)
        have hpos := hcur.some_cell
        refine ⟨?_, ?_, ?_, ?_⟩
        · exact List.forall_mem_cons.mpr ⟨hcur, hrest.ok⟩
        · refine List.forall_mem_cons.mpr ⟨⟨le_rfl, by omega⟩, fun r hr => ?_⟩
          obtain ⟨hfirst, hstop⟩ := hrest.inside r hr
          have hfirst' : i ≤ r.label := hfirst
          omega
        · refine List.pairwise_cons.mpr ⟨fun r hr => ?_, hrest.sorted⟩
          have hfirst : i ≤ r.label := (hrest.inside r hr).1
          omega
        · intro j hj hlt
          -- in the row that is ended, or in one after it
          rcases Nat.lt_or_ge j i with hbefore | hafter
          · exact ⟨cur, by simp, hj, by omega⟩
          · rcases hrest.covers j hafter (by omega) with ⟨r, hr, hin⟩
            exact ⟨r, List.mem_cons_of_mem _ hr, hin⟩
      · rw [if_neg hrow]
        have hlen : (cur.push (node i)).label + (cur.push (node i)).cells.length = i + 1 := by
          simp only [WhereRow.push, List.length_append, List.length_singleton]
          omega
        have hrest := ih (i + 1) _ (hcur.push hi hp0 hrow) hlen (by omega)
        rw [show i + 1 + m = i + (m + 1) by omega] at hrest
        exact hrest

/-! ## Lines -/

/-- Column `c` of cells of four bytes each. -/
theorem cell_flatMap {α : Type} (f : α → CStr) : ∀ (cs : List α) (c : Nat) {x : α},
    (∀ y ∈ cs, (f y).length = 4) → cs[c]? = some x →
      ((cs.flatMap f).drop (4 * c)).take 4 = f x
  | [], c, x, _, hget => by simp at hget
  | y :: cs, 0, x, h4, hget => by
      have hx : y = x := by simpa using hget
      subst hx
      rw [List.flatMap_cons, Nat.mul_zero, List.drop_zero, ← h4 y List.mem_cons_self,
        List.take_left]
  | y :: cs, c + 1, x, h4, hget => by
      have hrest := cell_flatMap f cs c (fun z hz => h4 z (List.mem_cons_of_mem _ hz))
        (by simpa using hget)
      rw [List.flatMap_cons, show 4 * (c + 1) = (f y).length + 4 * c by
        rw [h4 y List.mem_cons_self]; omega, ← List.drop_drop, List.drop_left]
      exact hrest

theorem length_flatMap_cells {α : Type} (f : α → CStr) (cs : List α)
    (h4 : ∀ y ∈ cs, (f y).length = 4) : (cs.flatMap f).length = 4 * cs.length := by
  induction cs with
  | nil => rfl
  | cons y cs ih =>
      rw [List.flatMap_cons, List.length_append, ih fun z hz => h4 z (List.mem_cons_of_mem _ hz),
        h4 y List.mem_cons_self, List.length_cons]
      omega

/-- The display of the pages `p0` to `p0 + n - 1`, cut into lines. -/
structure WhereLayout (p0 n : Nat) (node : Nat → Int) (lines : List CStr) : Prop where
  no_newline : ∀ l ∈ lines, '\n' ∉ l
  /-- A line is a label and up to eight cells, and has no page outside the range behind
  the blank cells. -/
  whole : ∀ l ∈ lines, ∃ j c, 8 ∣ j ∧ p0 - p0 % 8 ≤ j ∧ j + c ≤ p0 + n ∧ 0 < c ∧ c ≤ 8 ∧
    labelOf l = labelText j ∧ l.length = 14 + 4 * c
  /-- No two lines have the same label. -/
  once : (lines.map labelOf).Nodup
  /-- The cell of page `i` is in column `i % 8` of the line of `i - i % 8`. -/
  cell : ∀ i, p0 ≤ i → i < p0 + n →
    ∃ l ∈ lines, labelOf l = labelText (i - i % 8) ∧ cellOf l (i % 8) = nodeCell (node i)
  /-- The first line has blank cells before the range. -/
  padding : ∀ i, p0 - p0 % 8 ≤ i → i < p0 →
    ∃ l ∈ lines, labelOf l = labelText (i - i % 8) ∧ cellOf l (i % 8) = padCell

/-- A row as a line. -/
structure WhereRow.LineOk (r : WhereRow) : Prop where
  label : labelOf r.text = labelText r.label
  length : r.text.length = 14 + 4 * r.cells.length
  cell : ∀ (c : Nat) {x : Option Int}, r.cells[c]? = some x → cellOf r.text c = cellText x
  no_newline : '\n' ∉ r.text

theorem WhereRow.Ok.line {p0 stop : Nat} {node : Nat → Int} {r : WhereRow} (h : r.Ok p0 node)
    (hstop : r.label + r.cells.length ≤ stop) (htop : stop ≤ 2 ^ 31)
    (hnode : ∀ i, p0 ≤ i → i < stop → IsNode (node i)) : r.LineOk := by
  have hpos := h.some_cell
  have hlabel := @length_labelText r.label (by omega)
  have h4 : ∀ y ∈ r.cells, (cellText y).length = 4 := by
    intro y hy
    rcases List.mem_iff_getElem?.mp hy with ⟨c, hc⟩
    have hlt : c < r.cells.length := by
      by_contra hge
      rw [List.getElem?_eq_none (by omega)] at hc
      cases hc
    rw [h.cells c hlt] at hc
    cases hc
    unfold cellAt
    split
    · rfl
    · exact length_nodeCell (hnode _ (by omega) (by omega))
  refine ⟨?_, ?_, ?_, ?_⟩
  · rw [labelOf, WhereRow.text, ← hlabel, List.take_left]
  · rw [WhereRow.text, List.length_append, hlabel, length_flatMap_cells _ _ h4]
  · intro c x hget
    rw [cellOf, WhereRow.text, ← List.drop_drop, ← hlabel, List.drop_left]
    exact cell_flatMap cellText r.cells c h4 hget
  · intro hmem
    rcases List.mem_append.mp hmem with hmem | hmem
    · exact newline_not_mem_labelText _ hmem
    · rcases List.mem_flatMap.mp hmem with ⟨y, -, hy⟩
      cases y with
      | none => exact absurd hy (by decide)
      | some node => exact newline_not_mem_nodeCell node hy

/-- The rows, as lines, are the display. -/
theorem RowsOk.layout {p0 n : Nat} {node : Nat → Int} {rows : List WhereRow}
    (h : RowsOk p0 node (p0 - p0 % 8) (p0 + n) rows) (htop : p0 + n ≤ 2 ^ 31)
    (hnode : ∀ i, p0 ≤ i → i < p0 + n → IsNode (node i)) :
    WhereLayout p0 n node (rows.map WhereRow.text) := by
  have hline : ∀ r ∈ rows, r.LineOk :=
    fun r hr => (h.ok r hr).line (h.inside r hr).2 htop hnode
  -- the line and the column of an index
  have hcell : ∀ i, p0 - p0 % 8 ≤ i → i < p0 + n → ∃ l ∈ rows.map WhereRow.text,
      labelOf l = labelText (i - i % 8) ∧ cellOf l (i % 8) = cellText (cellAt p0 node i) := by
    intro i hfirst hlt
    rcases h.covers i hfirst hlt with ⟨r, hr, hle, hin⟩
    have hmod := (h.ok r hr).label
    have hwidth := (h.ok r hr).width
    have hbase : i - i % 8 = r.label := by omega
    refine ⟨r.text, List.mem_map_of_mem hr, ?_, ?_⟩
    · rw [hbase]
      exact (hline r hr).label
    · have hget := (h.ok r hr).cells (i % 8) (by omega)
      rw [show r.label + i % 8 = i by omega] at hget
      exact (hline r hr).cell _ hget
  refine ⟨?_, ?_, ?_, ?_, ?_⟩
  · intro l hl
    rcases List.mem_map.mp hl with ⟨r, hr, rfl⟩
    exact (hline r hr).no_newline
  · intro l hl
    rcases List.mem_map.mp hl with ⟨r, hr, rfl⟩
    have hok := h.ok r hr
    exact ⟨r.label, r.cells.length, Nat.dvd_of_mod_eq_zero hok.label, (h.inside r hr).1,
      (h.inside r hr).2, hok.some_cell, hok.width, (hline r hr).label, (hline r hr).length⟩
  · rw [List.map_map, List.Nodup, List.pairwise_map]
    refine h.sorted.imp_of_mem ?_
    intro r r' hr hr' hlt heq
    change labelOf r.text = labelOf r'.text at heq
    rw [(hline r hr).label, (hline r' hr').label] at heq
    exact hlt.ne (labelText_injective heq)
  · intro i hp0 hlt
    have hfound := hcell i (by omega) hlt
    rwa [cellAt, if_neg (by omega)] at hfound
  · intro i hfirst hlt
    have hfound := hcell i hfirst (by omega)
    rwa [cellAt, if_pos hlt] at hfound

/-! ## What `segment_location` prints -/

/-- The address of page `i` of a segment. -/
def pageAddress (base pagesize : Word) (i : Nat) : Word :=
  base + BitVec.ofNat 64 (i * pagesize.toNat)

theorem pageAddress_succ (base pagesize : Word) (i : Nat) :
    pageAddress base pagesize i + pagesize = pageAddress base pagesize (i + 1) := by
  have hword : BitVec.ofNat 64 ((i + 1) * pagesize.toNat) =
      BitVec.ofNat 64 (i * pagesize.toNat) + pagesize := by
    apply BitVec.eq_of_toNat_eq
    rw [BitVec.toNat_add, BitVec.toNat_ofNat, BitVec.toNat_ofNat, Nat.succ_mul, Nat.mod_add_mod]
  rw [pageAddress, pageAddress, hword, BitVec.add_assoc]

theorem toNat_pplMask (pgid : Flags) : (pgid &&& pplMask).toNat = pgid.toNat % 8 := by
  rw [BitVec.toNat_and]
  exact Nat.and_two_pow_sub_one_eq_mod pgid.toNat 3

theorem pplMask_eq_zero_iff (pgid : Flags) : pgid &&& pplMask = 0 ↔ pgid.toNat % 8 = 0 := by
  rw [← toNat_pplMask]
  constructor
  · intro h
    rw [h]
    rfl
  · exact fun h => BitVec.eq_of_toNat_eq h

theorem toNat_rowStart (pgid : Flags) :
    (pgid &&& ~~~pplMask).toNat = pgid.toNat - pgid.toNat % 8 := by
  have hmask := toNat_mask (w := 32) (k := 3) (by decide) pgid
  have hsplit := floorTo_add_mod (2 ^ 3) pgid.toNat
  rw [show pplMask = BitVec.twoPow 32 3 - 1#32 from rfl, hmask]
  omega

/-- The node loop over `m` pages, when every node is found and no signal arrives. -/
theorem nodeLoop_eq {getNode : Word → Int} {sig : Nat → Bool} {pagesize endp base : Word}
    (hsig : ∀ k, sig k = false) (hpos : 0 < pagesize.toNat) :
    ∀ {m fuel : Nat} (k i : Nat) {pgid : Flags} (needNl : Bool),
      endp.toNat = (pageAddress base pagesize i).toNat + m * pagesize.toNat →
      pgid.toNat = i → i + m ≤ 2 ^ 31 → m ≤ fuel →
      (∀ j, i ≤ j → j < i + m → 0 ≤ getNode (pageAddress base pagesize j)) →
      nodeLoop getNode sig pagesize endp fuel k (pageAddress base pagesize i) pgid needNl =
        some ⟨true, whereTokens (fun j => getNode (pageAddress base pagesize j)) m i needNl,
          (List.range m).map fun j => pageAddress base pagesize (i + j)⟩ := by
  intro m
  induction m with
  | zero =>
      intro fuel k i pgid needNl hend _ _ _ _
      have hle : endp ≤ pageAddress base pagesize i := by
        rw [BitVec.le_def]
        omega
      cases fuel <;> rw [nodeLoop, if_pos hle] <;> rfl
  | succ m ih =>
      intro fuel k i pgid needNl hend hpgid htop hfuel hnode
      obtain ⟨fuel, rfl⟩ := Nat.exists_eq_succ_of_ne_zero (by omega : fuel ≠ 0)
      rw [Nat.succ_mul] at hend
      have hlt : ¬ endp ≤ pageAddress base pagesize i := by
        rw [BitVec.le_def]
        omega
      have hnext : (pageAddress base pagesize (i + 1)).toNat =
          (pageAddress base pagesize i).toNat + pagesize.toNat := by
        have hendlt := endp.isLt
        rw [← pageAddress_succ, BitVec.toNat_add, Nat.mod_eq_of_lt (by omega)]
      have hsucc : (pgid + 1).toNat = i + 1 := by
        rw [BitVec.toNat_add, hpgid]
        show (i + 1) % 2 ^ 32 = i + 1
        exact Nat.mod_eq_of_lt (by omega)
      have hrest := @ih fuel (k + 1) (i + 1) (pgid + 1)
        (if pgid &&& pplMask = 0 then true else needNl) (by omega) hsucc (by omega) (by omega)
        (fun j hj hjlt => hnode j (by omega) (by omega))
      have hnonneg := hnode i le_rfl (by omega)
      have hlabel : BitVec.ofNat 32 i = pgid := by
        rw [← hpgid]
        exact BitVec.ofNat_toNat 32 pgid
      have hvisited : (List.range (m + 1)).map (fun j => pageAddress base pagesize (i + j)) =
          pageAddress base pagesize i ::
            (List.range m).map fun j => pageAddress base pagesize (i + 1 + j) := by
        rw [List.range_succ_eq_map, List.map_cons, List.map_map]
        refine congrArg _ (List.map_congr_left fun j _ => ?_)
        show pageAddress base pagesize (i + (j + 1)) = _
        rw [Nat.add_right_comm, Nat.add_assoc]
      rw [nodeLoop, if_neg hlt]
      simp only
      rw [if_neg (not_lt.mpr hnonneg), hsig, pageAddress_succ, hrest]
      simp only [Bool.false_eq_true, if_false, Option.map_some, whereTokens, hlabel,
        pplMask_eq_zero_iff, hpgid, List.append_assoc, List.singleton_append, hvisited]

/-- The node printed by a piece. -/
def WhereTok.nodeOf : WhereTok → Option Int
  | .node n => some n
  | _ => none

theorem nodes_partialRow (pgid : Flags) : (partialRow pgid).filterMap WhereTok.nodeOf = [] := by
  unfold partialRow
  split
  · simp [WhereTok.nodeOf]
  · rfl

theorem nodes_whereTokens (node : Nat → Int) : ∀ (m i : Nat) (needNl : Bool),
    (whereTokens node m i needNl).filterMap WhereTok.nodeOf =
      (List.range m).map fun j => node (i + j) := by
  intro m
  induction m with
  | zero =>
      intro i needNl
      rfl
  | succ m ih =>
      intro i needNl
      have hrow : ∀ b : Bool, ((if i % 8 = 0 then (if b then [WhereTok.newline] else []) ++
          [.label (BitVec.ofNat 32 i)] else []) : List WhereTok).filterMap WhereTok.nodeOf = [] := by
        intro b
        split
        · cases b <;> rfl
        · rfl
      rw [whereTokens, List.filterMap_append, hrow, List.range_succ_eq_map, List.map_cons,
        List.map_map]
      simp only [List.nil_append, List.filterMap_cons, WhereTok.nodeOf, ih, Nat.add_zero]
      refine congrArg _ (List.map_congr_left fun j _ => ?_)
      show node (i + 1 + j) = node (i + (j + 1))
      rw [Nat.add_right_comm, Nat.add_assoc]

/-- A row that is begun, and what is left for the loop: page `i` and the `m - 1` after it. -/
structure Begun (node : Nat → Int) (text : CStr) (p0 n : Nat) (cur : WhereRow) (i m : Nat) :
    Prop where
  ok : cur.Ok p0 node
  label : cur.label = p0 - p0 % 8
  next : cur.label + cur.cells.length = i
  first : p0 ≤ i
  last : i + m = p0 + n
  text_eq : text = cur.text ++ whereText (whereTokens node m i true)

/-- At the start of a row the first node begins it. -/
theorem begun_at_row {node : Nat → Int} {pgid : Flags} {p0 m : Nat} (hpgid : pgid.toNat = p0)
    (hrow : p0 % 8 = 0) (htop : p0 < 2 ^ 32) :
    Begun node (whereText (partialRow pgid ++ whereTokens node (m + 1) p0 (pgid &&& pplMask != 0)))
      p0 (m + 1) ⟨p0, [some (node p0)]⟩ (p0 + 1) m := by
  have hzero := (pplMask_eq_zero_iff pgid).mpr (hpgid ▸ hrow)
  have hlabel : (BitVec.ofNat 32 p0).toNat = p0 := by
    rw [BitVec.toNat_ofNat, Nat.mod_eq_of_lt htop]
  refine ⟨⟨hrow, by simp, by simp, ?_⟩, by simp [hrow], rfl, by omega, by omega, ?_⟩
  · intro c hc
    have hc0 : c = 0 := by simpa using hc
    subst hc0
    simp [cellAt]
  · simp [partialRow, hzero, whereTokens, hrow, whereText, WhereTok.text, WhereRow.text, cellText,
      hlabel]

/-- Within a row blank cells begin it. -/
theorem begun_within_row {node : Nat → Int} {pgid : Flags} {p0 n : Nat} (hpgid : pgid.toNat = p0)
    (hrow : p0 % 8 ≠ 0) :
    Begun node (whereText (partialRow pgid ++ whereTokens node n p0 (pgid &&& pplMask != 0)))
      p0 n ⟨p0 - p0 % 8, List.replicate (p0 % 8) none⟩ p0 n := by
  have hzero : pgid &&& pplMask ≠ 0 := fun hc => hrow (hpgid ▸ (pplMask_eq_zero_iff pgid).mp hc)
  have hmod := Nat.mod_lt p0 (by decide : 0 < 8)
  have hle := Nat.mod_le p0 8
  refine ⟨⟨?_, ?_, ?_, ?_⟩, rfl, ?_, le_rfl, rfl, ?_⟩
  · show (p0 - p0 % 8) % 8 = 0
    omega
  · simpa using Nat.pos_of_ne_zero hrow
  · simpa using hmod.le
  · intro c hc
    have hlt : c < p0 % 8 := by simpa using hc
    have hbefore : p0 - p0 % 8 + c < p0 := by omega
    simp [cellAt, hlt, hbefore]
  · simp only [List.length_replicate]
    omega
  · have hbegun : (pgid &&& pplMask != 0) = true := by simpa using hzero
    have hblank : whereText (partialRow pgid) =
        labelText (p0 - p0 % 8) ++ (List.replicate (p0 % 8) none).flatMap cellText := by
      rw [partialRow, if_pos hzero, toNat_pplMask, hpgid, whereText, List.flatMap_cons]
      show labelText (pgid &&& ~~~pplMask).toNat ++ _ = _
      rw [toNat_rowStart, hpgid]
      simp [WhereTok.text, cellText, List.flatMap_replicate]
    rw [hbegun, whereText, List.flatMap_append]
    exact congrArg (· ++ _) hblank

/-- What is printed for `n` pages from page `p0` on is the display of these pages. -/
theorem display_layout {node : Nat → Int} {pgid : Flags} {p0 n : Nat} (hpgid : pgid.toNat = p0)
    (hn : 0 < n) (htop : p0 + n ≤ 2 ^ 31) (hnode : ∀ i, p0 ≤ i → i < p0 + n → IsNode (node i)) :
    ∃ lines, whereText (partialRow pgid ++ whereTokens node n p0 (pgid &&& pplMask != 0)) =
        lines.flatMap (· ++ ['\n']) ∧ WhereLayout p0 n node lines := by
  obtain ⟨cur, i, m, hbegun⟩ : ∃ cur i m, Begun node
      (whereText (partialRow pgid ++ whereTokens node n p0 (pgid &&& pplMask != 0))) p0 n cur i m := by
    by_cases hrow : p0 % 8 = 0
    · obtain ⟨m, rfl⟩ := Nat.exists_eq_succ_of_ne_zero hn.ne'
      exact ⟨_, _, _, begun_at_row hpgid hrow (by omega)⟩
    · exact ⟨_, _, _, begun_within_row hpgid hrow⟩
  have hrows := rowsFrom_ok node m i cur hbegun.ok hbegun.next hbegun.first
  rw [hbegun.label, hbegun.last] at hrows
  have hlast := hbegun.last
  refine ⟨_, ?_, hrows.layout htop hnode⟩
  rw [hbegun.text_eq, text_rowsFrom node m i cur (by omega), List.flatMap_map]

/-- The index of the first page of a range. -/
theorem toNat_firstPage {offset pagesize : Word} {p0 : Nat} (hpos : 0 < pagesize.toNat)
    (ho : offset.toNat = p0 * pagesize.toNat) (htop : p0 < 2 ^ 32) :
    ((offset / pagesize).truncate 32).toNat = p0 := by
  rw [BitVec.truncate_eq_setWidth, BitVec.toNat_setWidth, BitVec.toNat_udiv, ho,
    Nat.mul_div_cancel _ hpos, Nat.mod_eq_of_lt htop]

/-- The loop over `n` pages of a segment from page `p0` on. -/
theorem nodeLoop_range {getNode : Word → Int} {sig : Nat → Bool}
    {base offset length pagesize : Word} {p0 n fuel : Nat} (hsig : ∀ k, sig k = false)
    (hpos : 0 < pagesize.toNat) (ho : offset.toNat = p0 * pagesize.toNat)
    (hn : length.toNat = n * pagesize.toNat)
    (hwrap : base.toNat + offset.toNat + length.toNat < 2 ^ 64) (htop : p0 + n ≤ 2 ^ 31)
    (hnode : ∀ i, p0 ≤ i → i < p0 + n → 0 ≤ getNode (pageAddress base pagesize i))
    (hfuel : n ≤ fuel) (needNl : Bool) :
    nodeLoop getNode sig pagesize (base + offset + length) fuel 0 (base + offset)
        ((offset / pagesize).truncate 32) needNl =
      some ⟨true, whereTokens (fun i => getNode (pageAddress base pagesize i)) n p0 needNl,
        (List.range n).map fun j => pageAddress base pagesize (p0 + j)⟩ := by
  have hpage : base + offset = pageAddress base pagesize p0 := by
    rw [pageAddress]
    refine congrArg _ (BitVec.eq_of_toNat_eq ?_)
    rw [BitVec.toNat_ofNat, ← ho, Nat.mod_eq_of_lt offset.isLt]
  have haddr : (base + offset).toNat = base.toNat + offset.toNat := by
    rw [BitVec.toNat_add, Nat.mod_eq_of_lt (by omega)]
  have hend : (base + offset + length).toNat =
      (pageAddress base pagesize p0).toNat + n * pagesize.toNat := by
    rw [BitVec.toNat_add, Nat.mod_eq_of_lt (by omega), hn, hpage]
  rw [hpage] at hend ⊢
  exact nodeLoop_eq hsig hpos 0 p0 needNl hend (toNat_firstPage hpos ho (by omega)) htop hfuel hnode

/-- In every reachable state, for every mapped segment with a page size and every range in it
with page indices below 2 ^ 31: when `get_node` finds nodes below 1000 and no signal arrives,
`segment_location` prints the node of every page of the range once, in order, and cut into
lines of four-byte cells the display has the cell of page `i` in column `i % 8` of the one line
labelled `i - i % 8`. -/
theorem location_layout {g : Glctx} (h : (segSpec anyOp).Reachable g) {segp : SegPtr}
    {name : CStr} (hlive : g.Live segp) (hname : (g.heap segp).segName = some name)
    (hmapped : (g.heap segp).InMemory) (hpage : 0 < (g.heap segp).segPagesize.toNat)
    (range : Range) (k : Kernel) (sig : Nat → Bool)
    (hoff : floorTo (g.heap segp).segPagesize.toNat range.offset.toNat <
      (g.heap segp).segLength.toNat) (hsig : ∀ i, sig i = false) :
    let s := g.heap segp
    let p := s.segPagesize.toNat
    let p0 := floorTo p range.offset.toNat / p
    let n := exactLength p s.segLength.toNat (floorTo p range.offset.toNat)
      ((RangeOp.location k sig).asked s range).length.toNat / p
    let node := fun i => k.getNode (pageAddress s.segStart s.segPagesize i)
    p0 + n ≤ 2 ^ 31 → (∀ i, p0 ≤ i → i < p0 + n → IsNode (node i)) →
    ∃ out g', (∀ fuel, n ≤ fuel → segmentLocation k sig fuel g name range = (.segOk out, g')) ∧
      out.filterMap WhereTok.nodeOf = (List.range n).map (fun j => node (p0 + j)) ∧
      ∃ lines, whereText out = lines.flatMap (· ++ ['\n']) ∧ WhereLayout p0 n node lines := by
  intro s p p0 n node htop hnode
  obtain ⟨hstart, hfits⟩ := hmapped
  obtain ⟨-, hps, hdvd⟩ := ((reachable_pageInv h).records segp hlive).whole_pages hstart hpage
  obtain ⟨avail, hget⟩ := segmentGet_live (reachable_repInv h) hlive hname
  have hasked : ((RangeOp.location k sig).asked s range).offset = range.offset :=
    whereRange_offset s range
  obtain ⟨offset, length, hclamp, hoffset, hlength, hin, hldvd, hlpos⟩ :=
    clampRange_pages hps hdvd ((RangeOp.location k sig).asked s range) (by rw [hasked]; exact hoff)
  rw [hasked] at hoffset hlength
  change s.segStart.toNat + s.segLength.toNat < 2 ^ 64 at hfits
  change offset.toNat + length.toNat ≤ s.segLength.toNat at hin
  have hn : length.toNat = n * p := by
    rw [← Nat.div_mul_cancel hldvd, hlength]
  have ho : offset.toNat = p0 * p := by
    rw [hoffset, Nat.div_mul_cancel (dvd_floorTo p range.offset.toNat)]
  have hnpos : 0 < n := by
    by_contra hc
    rw [Nat.eq_zero_of_not_pos hc, Nat.zero_mul] at hn
    omega
  have hpgid := toNat_firstPage hpage ho (by omega)
  have hloop : ∀ fuel, n ≤ fuel → nodeLoop k.getNode sig s.segPagesize
      (s.segStart + offset + length) fuel 0 (s.segStart + offset)
      ((offset / s.segPagesize).truncate 32)
      ((offset / s.segPagesize).truncate 32 &&& pplMask != 0) = some
        ⟨true, whereTokens node n p0 ((offset / s.segPagesize).truncate 32 &&& pplMask != 0),
          (List.range n).map fun j => pageAddress s.segStart s.segPagesize (p0 + j)⟩ :=
    fun fuel hfuel => nodeLoop_range hsig hpage ho hn (by omega) htop
      (fun i hi hlt => (hnode i hi hlt).1) hfuel _
  rcases display_layout hpgid hnpos htop hnode with ⟨lines, htext, hlayout⟩
  refine ⟨_, { g with
    segAvail := avail
    log := g.log ++ ((List.range n).map fun j =>
      pageAddress s.segStart s.segPagesize (p0 + j)).map (.getNode segp) }, ?_, ?_, lines, htext,
    hlayout⟩
  · intro fuel hfuel
    have hrun := hloop fuel hfuel
    simp only [s] at hrun
    simp only [RangeOp.asked, s] at hclamp
    simp only [segmentLocation, hget, if_neg hstart, if_neg hps.ne_zero, hclamp, hrun]
    rfl
  · rw [List.filterMap_append, nodes_partialRow, List.nil_append, nodes_whereTokens]

/-- The second of two pages: a blank cell and its node. -/
theorem location_layout_second_page : ∃ out g',
    (∀ fuel, 1 ≤ fuel → segmentLocation sampleKernel (fun _ => false) fuel sampleMapped ['a']
      ⟨0x1001#64, 0, 0⟩ = (.segOk out, g')) ∧
    out.filterMap WhereTok.nodeOf = (List.range 1).map (fun _ => (0 : Int)) ∧
    ∃ lines, whereText out = lines.flatMap (· ++ ['\n']) ∧ WhereLayout 1 1 (fun _ => 0) lines := by
  have hlive : sampleMapped.Live 1 := ⟨by decide, by decide⟩
  have hname : (sampleMapped.heap 1).segName = some ['a'] := by decide
  have hzero : IsNode 0 := ⟨le_rfl, by decide⟩
  exact location_layout sampleMapped_reachable hlive hname sampleMapped_inMemory (by decide)
    ⟨0x1001#64, 0, 0⟩ sampleKernel (fun _ => false) (by decide) (fun _ => rfl) (by decide)
    (fun _ _ _ => hzero)

end Memtoy
