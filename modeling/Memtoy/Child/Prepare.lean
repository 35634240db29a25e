import Memtoy.Child.Bounds

/-!
# Child.Prepare — what the command loop does to a line first

The loop that trims a line in `process_commands` has no bound of its own: it stops at the
first byte that `strchr(whitespace, ...)` does not find, and that finds NULs as well. In
front of a line that is only blanks it would go on below the line's start. `trimLoop` is
the loop as it stands, reads below the start included; the checks before it are what keeps
it inside (`prepareLine_spec`).
-/

namespace Memtoy

open CString

/-! ## The loop -/

/-- A byte of a buffer, or one in front of it. -/
def byteFrom (before : Int → Char) (buf : List Char) (i : Int) : Char :=
  if i < 0 then before i else byteAt buf i.toNat

/-- `while (strchr(whitespace, ...))` goes on. -/
def IsTrimmed (c : Char) : Prop := c ∈ whitespace ∨ c = nul

instance (c : Char) : Decidable (IsTrimmed c) := inferInstanceAs (Decidable (_ ∨ _))

/-- How the loop ends, and the indices of the line it read. -/
structure TrimRun where
  buf : List Char
  cmdlen : Int
  reads : List Int

/-- `while(strchr(whitespace, cmdline[cmdlen-1])) cmdline[--cmdlen] = '\0';` for the line at
index `cmdline` of the buffer; `none` when it is still going after `fuel` iterations. -/
def trimLoop (before : Int → Char) (cmdline : Nat) :
    (fuel : Nat) → (buf : List Char) → (cmdlen : Int) → Option TrimRun
  | 0, _, _ => none
  | fuel + 1, buf, cmdlen =>
      if IsTrimmed (byteFrom before buf (cmdline + (cmdlen - 1))) then
        -- a write in front of the buffer does not change it
        let buf := if cmdline + (cmdlen - 1) < 0 then buf
          else buf.set (cmdline + (cmdlen - 1)).toNat nul
        (trimLoop before cmdline fuel buf (cmdlen - 1)).map fun r =>
          { r with reads := (cmdlen - 1) :: r.reads }
      else some ⟨buf, cmdlen, [cmdlen - 1]⟩

/-- What a line comes to, and the indices the trimming loop read, from the line's first
byte that is no blank. -/
structure Prepared where
  action : LineAction
  reads : List Int

/-- The loop body of `process_commands` up to the dispatch, no signal pending. -/
def prepareLine (children : List Child) (before : Int → Char) (fuel : Nat) (buf : List Char) :
    Option Prepared :=
  if byteAt buf 0 = nul then some ⟨.blank, []⟩
  else
    let cmdline := strspn buf 0 whitespace
    let cmdlen := (strAt buf cmdline).length
    if cmdlen = 0 then some ⟨.blank, []⟩
    else if byteAt buf cmdline = '#' then some ⟨.comment, []⟩
    else
      (trimLoop before cmdline fuel buf cmdlen).map fun r =>
        if r.cmdlen = 0 then ⟨.blank, r.reads⟩
        else if byteAt r.buf cmdline = '/' then
          ⟨.forward (childSend children r.buf (cmdline + 1)), r.reads⟩
        else ⟨.command (strAt r.buf cmdline), r.reads⟩

/-- The indices from `i + n` down to `i`. -/
def indicesDown (i : Nat) : Nat → List Int
  | 0 => [(i : Int)]
  | n + 1 => ((i : Int) + (n + 1 : Nat)) :: indicesDown i n

theorem mem_indicesDown {i : Nat} {r : Int} : ∀ {n : Nat}, r ∈ indicesDown i n → i ≤ r ∧ r ≤ i + n
  | 0, h => by
      rw [indicesDown, List.mem_singleton] at h
      omega
  | n + 1, h => by
      rcases List.mem_cons.mp h with rfl | h
      · omega
      · have hbound := mem_indicesDown h
        omega

/-- The loop stops at a byte that is left, and reads no further. -/
theorem trimLoop_stop (before : Int → Char) (fuel : Nat) {pre l : List Char} {c : Char}
    (hc : ¬ IsTrimmed c) (beyond : List Char) :
    trimLoop before pre.length (fuel + 1) (pre ++ (l ++ c :: beyond)) (l.length + 1) =
      some ⟨pre ++ (l ++ c :: beyond), l.length + 1, indicesDown l.length 0⟩ := by
  have hindex : (pre.length : Int) + ((l.length : Int) + 1 - 1) = ((pre ++ l).length : Int) := by
    rw [List.length_append]
    omega
  have hbyte : byteFrom before (pre ++ (l ++ c :: beyond))
      ((pre.length : Int) + ((l.length : Int) + 1 - 1)) = c := by
    rw [byteFrom, hindex, if_neg (by omega), Int.toNat_natCast, ← List.append_assoc]
    exact byteAt_of_drop List.drop_left
  rw [trimLoop, hbyte, if_neg hc, Int.add_sub_cancel]
  rfl

/-- The blanks behind a byte that is left become NULs; the loop reads down to that byte. -/
theorem trimLoop_eq (before : Int → Char) {pre l : List Char} {c : Char} (hc : ¬ IsTrimmed c)
    (post : List Char) : (∀ d ∈ post, IsTrimmed d) → ∀ (beyond : List Char) (fuel : Nat),
      post.length < fuel →
        trimLoop before pre.length fuel (pre ++ (l ++ c :: (post ++ beyond)))
            (l.length + 1 + post.length) =
          some ⟨pre ++ (l ++ c :: (List.replicate post.length nul ++ beyond)), l.length + 1,
            indicesDown l.length post.length⟩ := by
  induction post using List.reverseRecOn with
  | nil =>
      intro _ beyond fuel hfuel
      obtain ⟨fuel, rfl⟩ := Nat.exists_eq_succ_of_ne_zero (by simpa using hfuel.ne' : fuel ≠ 0)
      simpa using trimLoop_stop before fuel hc beyond
  | append_singleton post d ih =>
      intro hpost beyond fuel hfuel
      have hd : IsTrimmed d := hpost d (by simp)
      have hlen : (post ++ [d]).length = post.length + 1 := by simp
      obtain ⟨fuel, rfl⟩ := Nat.exists_eq_succ_of_ne_zero (by omega : fuel ≠ 0)
      have hrest := ih (fun e he => hpost e (List.mem_append_left _ he)) (nul :: beyond) fuel
        (by omega)
      -- the last blank, and what is in front of it
      have hsplit : pre ++ (l ++ c :: (post ++ [d] ++ beyond)) =
          (pre ++ (l ++ c :: post)) ++ d :: beyond := by simp
      have hindex : (pre.length : Int) + ((l.length : Int) + 1 + (post ++ [d]).length - 1) =
          ((pre ++ (l ++ c :: post)).length : Int) := by
        simp only [List.length_append, List.length_cons, List.length_nil]
        omega
      have hbyte : byteFrom before (pre ++ (l ++ c :: (post ++ [d] ++ beyond)))
          ((pre.length : Int) + ((l.length : Int) + 1 + (post ++ [d]).length - 1)) = d := by
        rw [byteFrom, hindex, if_neg (by omega), Int.toNat_natCast, hsplit]
        exact byteAt_of_drop List.drop_left
      have hset : (pre ++ (l ++ c :: (post ++ [d] ++ beyond))).set
          ((pre.length : Int) + ((l.length : Int) + 1 + (post ++ [d]).length - 1)).toNat nul =
          pre ++ (l ++ c :: (post ++ nul :: beyond)) := by
        rw [hindex, Int.toNat_natCast, hsplit, List.set_append_right _ _ le_rfl, Nat.sub_self]
        simp
      have hread : (l.length : Int) + 1 + (post ++ [d]).length - 1 =
          l.length + (post.length + 1 : Nat) := by omega
      rw [trimLoop, hbyte, if_pos hd]
      simp only [hset]
      rw [if_neg (by omega), show (l.length : Int) + 1 + (post ++ [d]).length - 1 =
        l.length + 1 + post.length by omega, hrest, hlen, List.replicate_succ', indicesDown]
      simp only [Option.map_some, List.append_assoc, List.singleton_append, Option.some.injEq,
        TrimRun.mk.injEq, true_and, List.cons.injEq, and_true]
      omega

/-! ## The line -/

/-- The line from its first byte on that is no blank. -/
def fromText (line : CStr) : CStr := line.dropWhile (· ∈ whitespace)

/-- The line without the blanks at both ends. -/
def lineText (line : CStr) : CStr := trimmed (fromText line)

/-- A byte that is left: no blank, and no NUL either. -/
theorem not_isTrimmed {c : Char} (hblank : c ∉ whitespace) (hnul : c ≠ nul) : ¬ IsTrimmed c := by
  rintro (h | h)
  · exact hblank h
  · exact hnul h

theorem trimmed_last {u : CStr} : ∀ c, (trimmed u).getLast? = some c → c ∉ whitespace := by
  intro c hc
  have hne : trimmed u ≠ [] := by
    rintro hnil
    rw [hnil] at hc
    cases hc
  rw [List.getLast?_eq_some_getLast hne] at hc
  have hlast := List.rdropWhile_last_not (fun c => decide (c ∈ whitespace)) u hne
  cases hc
  exact fun hmem => hlast (decide_eq_true hmem)

/-- A line with a first byte that is no blank is the blanks in front, the text, whose first
and last bytes are no blanks, and the blanks behind. -/
theorem line_split {line : CStr} (hline : fromText line ≠ []) :
    ∃ pre post, line = pre ++ (lineText line ++ post) ∧ pre = line.takeWhile (· ∈ whitespace) ∧
      fromText line = lineText line ++ post ∧ (∀ c ∈ post, c ∈ whitespace) ∧
      (lineText line).head? = (fromText line).head? ∧ lineText line ≠ [] ∧
      Trimmed (lineText line) := by
  obtain ⟨c, u, hcons⟩ := List.exists_cons_of_ne_nil hline
  have hc : c ∉ whitespace := by
    have hhead := List.head?_dropWhile_not (fun c => decide (c ∈ whitespace)) line
    rw [show line.dropWhile (fun c => decide (c ∈ whitespace)) = c :: u from hcons] at hhead
    simpa using hhead
  have htext : lineText line = c :: trimmed u := by
    rw [lineText, hcons]
    exact trimmed_append_cons hc [] u
  obtain ⟨post, hpost, hblank⟩ := trimmed_append (fromText line)
  refine ⟨line.takeWhile (· ∈ whitespace), post, ?_, rfl, hpost, hblank, ?_, ?_, ?_, trimmed_last⟩
  · rw [lineText, ← hpost]
    exact List.takeWhile_append_dropWhile.symm
  · rw [htext, hcons]
    rfl
  · rw [htext]
    simp
  · intro d hd
    rw [htext] at hd
    cases hd
    exact hc

section Line

variable {line : CStr}

/-- The first byte, and where the text starts. -/
theorem line_start (hnul : nul ∉ line) (beyond : List Char) :
    byteAt (line ++ nul :: beyond) 0 = line.headD nul ∧
      strspn (line ++ nul :: beyond) 0 whitespace = (line.takeWhile (· ∈ whitespace)).length ∧
      Stands (line ++ nul :: beyond) (line.takeWhile (· ∈ whitespace)).length (fromText line) := by
  have hstands := Stands.of_append hnul beyond
  refine ⟨hstands.byte, hstands.spn whitespace, ?_⟩
  rw [← List.takeWhile_append_dropWhile (l := line) (p := fun c => decide (c ∈ whitespace))]
    at hstands
  have hrest := hstands.advance
  rw [Nat.zero_add, List.takeWhile_append_dropWhile] at hrest
  exact hrest

/-- What the loop finds and what it leaves: the text, with NULs behind it. -/
theorem trimLoop_line (hnul : nul ∉ line) (beyond : List Char) (hline : fromText line ≠ [])
    (before : Int → Char) :
    ∃ (buf : List Char) (reads : List Int), (∀ r ∈ reads, 0 ≤ r ∧ r < (fromText line).length) ∧
      Stands buf (line.takeWhile (· ∈ whitespace)).length (lineText line) ∧
      ∀ fuel, line.length < fuel →
        trimLoop before (line.takeWhile (· ∈ whitespace)).length fuel (line ++ nul :: beyond)
          (fromText line).length = some ⟨buf, (lineText line).length, reads⟩ := by
  obtain ⟨pre, post, hsplit, hpre, hfrom, hpost, -, hne, htrim⟩ := line_split hline
  -- the last byte of the text stops the loop
  obtain ⟨l, c, htext⟩ : ∃ l c, lineText line = l ++ [c] :=
    ⟨_, _, (List.dropLast_append_getLast hne).symm⟩
  have hlast : c ∉ whitespace := htrim.last c (by rw [htext, List.getLast?_concat])
  have hmem : ∀ d, d ∈ lineText line → d ≠ nul := by
    rintro d hd rfl
    apply hnul
    rw [hsplit]
    simp [hd]
  have hstop : ¬ IsTrimmed c := not_isTrimmed hlast (hmem c (by simp [htext]))
  have hlen : line.length = pre.length + ((l.length + 1) + post.length) := by
    conv_lhs => rw [hsplit, htext]
    simp only [List.length_append, List.length_singleton]
  have hfromlen : (fromText line).length = l.length + 1 + post.length := by
    rw [hfrom, htext]
    simp only [List.length_append, List.length_singleton]
  refine ⟨pre ++ (l ++ c :: (List.replicate post.length nul ++ nul :: beyond)),
    indicesDown l.length post.length, ?_, ?_, ?_⟩
  · intro r hr
    have hbound := mem_indicesDown hr
    omega
  · obtain ⟨slack, hslack⟩ := replicate_nul_append post.length beyond
    refine ⟨fun hc => hmem nul hc rfl, slack, ?_⟩
    rw [← hpre, List.drop_left, hslack, htext]
    simp
  · intro fuel hfuel
    have hloop := @trimLoop_eq before pre l c hstop post (fun d hd => Or.inl (hpost d hd))
      (nul :: beyond) fuel (by omega)
    have hbuf : line ++ nul :: beyond = pre ++ (l ++ c :: (post ++ nul :: beyond)) := by
      conv_lhs => rw [hsplit, htext]
      simp
    rw [hbuf, ← hpre, hfromlen, htext, List.length_append, List.length_singleton]
    exact_mod_cast hloop

end Line

/-- What `process_commands` makes of a line, whatever stands behind it and in front of the
buffer. -/
structure LinePrepared (children : List Child) (before : Int → Char) (beyond : List Char)
    (line : CStr) : Prop where
  /-- A line of blanks, or none, is ignored, -/
  blank : fromText line = [] → ∀ fuel, prepareLine children before fuel (line ++ nul :: beyond) =
    some ⟨.blank, []⟩
  /-- and so is a comment. -/
  comment : (fromText line).head? = some '#' → ∀ fuel,
    prepareLine children before fuel (line ++ nul :: beyond) = some ⟨.comment, []⟩
  /-- Of any other line the text is passed on, to `child_send` without the slash; the
  trimming loop ends and has read nothing in front of the text. -/
  text : fromText line ≠ [] → (fromText line).head? ≠ some '#' →
    1 ≤ (lineText line).length ∧ Trimmed (lineText line) ∧
    ∃ (buf : List Char) (reads : List Int), (∀ r ∈ reads, 0 ≤ r ∧ r < (fromText line).length) ∧
      Stands buf (line.takeWhile (· ∈ whitespace)).length (lineText line) ∧
      ((lineText line).head? ≠ some '/' → ∀ fuel, line.length < fuel →
        prepareLine children before fuel (line ++ nul :: beyond) =
          some ⟨.command (lineText line), reads⟩) ∧
      ∀ t, lineText line = '/' :: t →
        Stands buf ((line.takeWhile (· ∈ whitespace)).length + 1) t ∧
        ∀ fuel, line.length < fuel →
          prepareLine children before fuel (line ++ nul :: beyond) =
            some ⟨.forward (childSend children buf
              ((line.takeWhile (· ∈ whitespace)).length + 1)), reads⟩

/-- Every line is ignored, or exactly its text is passed on. -/
theorem prepareLine_spec (children : List Child) (before : Int → Char) (beyond : List Char)
    {line : CStr} (hnul : nul ∉ line) : LinePrepared children before beyond line := by
  obtain ⟨hfirst, hspn, hfrom⟩ := line_start hnul beyond
  have hheadnul : ∀ c u, fromText line = c :: u → line.headD nul ≠ nul := by
    intro c u hcons hheadD
    rcases line with _ | ⟨d, line⟩
    · cases hcons
    · exact hnul (by rw [← show d = nul from hheadD]; exact List.mem_cons_self)
  refine ⟨?_, ?_, ?_⟩
  · intro hblank fuel
    rw [hblank] at hfrom
    simp only [prepareLine, hspn, hfrom.str, List.length_nil, if_true, ite_self]
  · intro hcomment fuel
    obtain ⟨u, hcons⟩ := List.head?_eq_some_iff.mp hcomment
    rw [hcons] at hfrom
    simp only [prepareLine, hfirst, if_neg (hheadnul _ _ hcons), hspn, hfrom.str, hfrom.byte]
    simp
  · intro hline hnot
    obtain ⟨c, u, hcons⟩ := List.exists_cons_of_ne_nil hline
    obtain ⟨pre, post, -, -, -, -, hhead, hne, htrim⟩ := line_split hline
    obtain ⟨buf, reads, hreads, hstands, hloop⟩ := trimLoop_line hnul beyond hline before
    have hlenpos : (lineText line).length ≠ 0 := fun hc => hne (List.length_eq_zero_iff.mp hc)
    have hprep : ∀ fuel, line.length < fuel →
        prepareLine children before fuel (line ++ nul :: beyond) =
          some (if (lineText line).head? = some '/' then
            ⟨.forward (childSend children buf ((line.takeWhile (· ∈ whitespace)).length + 1)), reads⟩
          else ⟨.command (lineText line), reads⟩) := by
      intro fuel hfuel
      have hlen : ((fromText line).length : Nat) ≠ 0 := by rw [hcons]; simp
      have hhash : c ≠ '#' := fun h => hnot (by rw [hcons, h]; rfl)
      have hbyte : byteAt (line ++ nul :: beyond) (line.takeWhile (· ∈ whitespace)).length ≠ '#' := by
        rw [hfrom.byte, hcons]
        exact hhash
      have hslash : byteAt buf (line.takeWhile (· ∈ whitespace)).length = '/' ↔
          (lineText line).head? = some '/' := by
        rw [hstands.byte, hhead, ← hhead]
        rcases lineText line with _ | ⟨d, t⟩
        · simp [nul]
        · simp
      have hrun := hloop fuel hfuel
      simp only [prepareLine, hfirst, if_neg (hheadnul _ _ hcons), hspn, hfrom.str, if_neg hlen,
        if_neg hbyte, hrun, Option.map_some]
      rw [if_neg (by exact_mod_cast hlenpos), hstands.str]
      simp only [hslash]
    refine ⟨List.length_pos_iff.mpr hne, htrim, buf, reads, hreads, hstands, ?_, ?_⟩
    · intro hslash fuel hfuel
      rw [hprep fuel hfuel, if_neg hslash]
    · intro t ht
      refine ⟨?_, fun fuel hfuel => by rw [hprep fuel hfuel, if_pos (by rw [ht]; rfl)]⟩
      rw [ht] at hstands
      exact Stands.advance (a := ['/']) hstands

/-- A line with blanks at both ends, in a buffer with blanks in front. -/
theorem prepareLine_spec_blanks :
    LinePrepared [] (fun _ => ' ') [] " \tshow a \t".toList :=
  prepareLine_spec [] (fun _ => ' ') [] (by decide)

/-! ## The same pass -/

theorem trimLoop_le {before : Int → Char} {cmdline : Nat} : ∀ {fuel : Nat} {buf : List Char}
    {cmdlen : Int} {r : TrimRun}, trimLoop before cmdline fuel buf cmdlen = some r →
      r.cmdlen ≤ cmdlen := by
  intro fuel
  induction fuel with
  | zero =>
      intro buf cmdlen r h
      cases h
  | succ fuel ih =>
      intro buf cmdlen r h
      rw [trimLoop] at h
      split at h
      · rcases Option.map_eq_some_iff.mp h with ⟨r', hr', rfl⟩
        have hle := ih hr'
        show r'.cmdlen ≤ cmdlen
        omega
      · cases h
        exact Int.le_refl _

/-- Where the loop leaves something it is `trimTrailing`. -/
theorem trimTrailing_of_loop {before : Int → Char} {cmdline : Nat} : ∀ {n fuel : Nat}
    {buf : List Char} {r : TrimRun}, trimLoop before cmdline fuel buf (n : Int) = some r →
      0 < r.cmdlen → trimTrailing cmdline buf n = (r.buf, r.cmdlen.toNat) := by
  intro n
  induction n with
  | zero =>
      intro fuel buf r h hpos
      have hle := trimLoop_le h
      omega
  | succ n ih =>
      intro fuel buf r h hpos
      cases fuel with
      | zero => cases h
      | succ fuel =>
          have hindex : (cmdline : Int) + (((n + 1 : Nat) : Int) - 1) = ((cmdline + n : Nat) : Int) := by
            omega
          have hcmdlen : ((n + 1 : Nat) : Int) - 1 = (n : Int) := by omega
          have hnonneg : ¬ ((cmdline + n : Nat) : Int) < 0 := by omega
          have hread : byteFrom before buf ((cmdline : Int) + (((n + 1 : Nat) : Int) - 1)) =
              byteAt buf (cmdline + n) := by
            rw [byteFrom, hindex, if_neg hnonneg, Int.toNat_natCast]
          rw [trimLoop, hread] at h
          rw [trimTrailing]
          split at h
          · next hblank =>
            rcases Option.map_eq_some_iff.mp h with ⟨r', hr', rfl⟩
            rw [hindex, if_neg hnonneg, Int.toNat_natCast, hcmdlen] at hr'
            rw [if_pos (show _ ∨ _ from hblank)]
            exact ih (r := r') hr' hpos
          · next hstop =>
            cases h
            rw [if_neg (show ¬ (_ ∨ _) from hstop)]
            rfl

/-- It is the pass `processLine` models. -/
theorem prepareLine_action (children : List Child) (before : Int → Char) (beyond : List Char)
    {line : CStr} (hnul : nul ∉ line) {fuel : Nat} (hfuel : line.length < fuel) :
    (prepareLine children before fuel (line ++ nul :: beyond)).map Prepared.action =
      some (processLine children (line ++ nul :: beyond)) := by
  obtain ⟨-, hspn, hfrom⟩ := line_start hnul beyond
  simp only [prepareLine, processLine, hspn, hfrom.str]
  split
  · rfl
  · split
    · rfl
    · next hlen =>
      split
      · rfl
      · have hline : fromText line ≠ [] := fun hc => hlen (by rw [hc]; rfl)
        obtain ⟨buf, reads, -, -, hloop⟩ := trimLoop_line hnul beyond hline before
        obtain ⟨-, -, -, -, -, -, -, hne, -⟩ := line_split hline
        have hpos := List.length_pos_iff.mpr hne
        have htrim := trimTrailing_of_loop (hloop fuel hfuel) (Int.natCast_pos.mpr hpos)
        rw [hloop fuel hfuel, htrim]
        simp only [Option.map_some, Int.toNat_natCast]
        rw [if_neg (by omega), if_neg hpos.ne']
        split <;> rfl

end Memtoy
