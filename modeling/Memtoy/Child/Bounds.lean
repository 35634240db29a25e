import Memtoy.Child.Command

/-!
# Child.Bounds — where `child_send` reads and writes

`childSendT` is `childSend` with the indices of all bytes it reads or writes. The function
steps over the byte that ends the child's name before it looks whether anything follows:
in a buffer of exactly the line, `child_send_inside_iff` says for which lines it stays
inside.
-/

namespace Memtoy

open CString

/-! ## The bytes touched -/

/-- The indices of `n` bytes from `i` on. -/
def bytesAt (i n : Nat) : List Nat := List.range' i n

theorem mem_bytesAt {i n j : Nat} : j ∈ bytesAt i n ↔ i ≤ j ∧ j < i + n := List.mem_range'_1

/-- `child_send`, and the indices of the bytes it touches: `strspn`, `strcspn` and `strlen`
read up to the byte they stop at, `strcmp` and the message the whole name. -/
def childSendT (children : List Child) (buf : List Char) (cmdStr : Nat) : Sent × List Nat :=
  let spn := strspn buf cmdStr childDelim
  let touched := bytesAt cmdStr (spn + 1)
  let cmdStr := cmdStr + spn
  if byteAt buf cmdStr = nul ∨ byteAt buf cmdStr = '?' then (.listed, touched)
  else
    let childName := cmdStr
    let spn := strcspn buf cmdStr childDelim
    let touched := touched ++ bytesAt cmdStr (spn + 1)
    let cmdStr := cmdStr + spn
    let csave := if byteAt buf cmdStr = '/' then '/' else nul
    let buf := buf.set cmdStr nul
    let nextarg := cmdStr + 1
    let spn := strspn buf nextarg whitespace
    let touched := touched ++ bytesAt nextarg (spn + 1)
    let cmdStr := nextarg + spn
    let touched := touched ++ bytesAt childName ((strAt buf childName).length + 1)
    match childFindByName children (strAt buf childName) with
    | none => (.noChild (strAt buf childName), touched)
    | some childp =>
        let cmdStr' := if csave ≠ nul then cmdStr - 1 else cmdStr
        let buf := if csave ≠ nul then buf.set cmdStr' csave else buf
        let cmdlen := (strAt buf cmdStr').length
        let touched := touched ++ bytesAt cmdStr' (cmdlen + 1)
        let buf := buf.set (cmdStr' + cmdlen) '\n'
        (.wrote childp ((buf.drop cmdStr').take (cmdlen + 1)), touched)

/-- It does what `child_send` does. -/
theorem childSendT_fst (children : List Child) (buf : List Char) (cmdStr : Nat) :
    (childSendT children buf cmdStr).1 = childSend children buf cmdStr := by
  simp only [childSendT, childSend]
  split
  · rfl
  · split
    · next hfind => simp only [hfind]
    · next hfind => simp only [hfind]

/-! ## A name and what follows it -/

/-- What is sent of the text `rest` behind a name and the byte `sep`. -/
def sentBehind (sep : Char) (rest : CStr) : CStr :=
  if sep = '/' then '/' :: rest.dropWhile (· ∈ whitespace) else rest.dropWhile (· ∈ whitespace)

/-- What comes of a name: nothing is written without such a child. -/
def sentTo (children : List Child) (name : CStr) (sep : Char) (rest : CStr) : Sent :=
  match childFindByName children name with
  | none => .noChild name
  | some childp => .wrote childp (sentBehind sep rest ++ ['\n'])

/-- A text that has no name is not looked at any further. -/
theorem childSendT_listed {children : List Child} {buf : List Char} {i : Nat} {ds body : CStr}
    (hbuf : Stands buf i (ds ++ body)) (hds : ∀ c ∈ ds, c ∈ childDelim)
    (hbody : body = [] ∨ body.head? = some '?') :
    childSendT children buf i = (.listed, bytesAt i (ds.length + 1)) := by
  have hspn : strspn buf i childDelim = ds.length := by
    rw [hbuf.spn, takeWhile_append_stop]
    · simpa using hds
    · intro c hc
      rcases hbody with rfl | hbody
      · cases hc
      · rw [hbody] at hc
        cases hc
        decide
  have hbyte : byteAt buf (i + ds.length) = nul ∨ byteAt buf (i + ds.length) = '?' := by
    rw [hbuf.advance.byte]
    rcases hbody with rfl | hbody
    · exact Or.inl rfl
    · obtain ⟨t, rfl⟩ := List.head?_eq_some_iff.mp hbody
      exact Or.inr rfl
  simp only [childSendT, hspn, if_pos hbyte]

/-- The text behind delimiters: a name, the byte that ends it, and the rest up to a NUL. The
byte may be the NUL at the end of the string, if the next byte is one as well. -/
structure Named (buf : List Char) (i : Nat) (ds name : CStr) (sep : Char) (rest : CStr) : Prop where
  bytes : ∃ slack, buf.drop i = ds ++ (name ++ sep :: (rest ++ nul :: slack))
  delims : ∀ c ∈ ds, c ∈ childDelim
  name_ne : name ≠ []
  no_query : name.head? ≠ some '?'
  no_delim : ∀ c ∈ name, c ∉ childDelim
  name_nul : nul ∉ name
  rest_nul : nul ∉ rest
  sep_cases : sep ∈ childDelim ∨ (sep = nul ∧ rest = [])

variable {children : List Child} {buf : List Char} {i : Nat} {ds name rest : CStr} {sep : Char}

/-- A string that is read up to the NUL or to what follows it. -/
theorem strAt_of_bytes {a t : List Char} (ha : nul ∉ a) (hbuf : buf.drop i = a ++ t)
    (p : Char → Bool) (hp : ∀ c ∈ a, p c = true) (ht : ∀ c, t.head? = some c → c = nul ∨ p c = false) :
    (strAt buf i).takeWhile p = a := by
  have hstr : strAt buf i = a ++ cstr t := by
    rw [strAt, hbuf, cstr, cstr, List.takeWhile_append_of_pos]
    intro c hc
    simpa using fun heq : c = nul => ha (heq ▸ hc)
  rw [hstr]
  apply takeWhile_append_stop hp
  intro c hc
  cases t with
  | nil => cases hc
  | cons d t =>
      by_cases hd : d = nul
      · simp [cstr, hd] at hc
      · have hcons : cstr (d :: t) = d :: cstr t := by simp [cstr, hd]
        rw [hcons] at hc
        have hdc : d = c := by simpa using hc
        rw [← hdc]
        exact (ht d rfl).resolve_left hd

theorem byteAt_of_drop {c : Char} {t : List Char} (h : buf.drop i = c :: t) : byteAt buf i = c := by
  rw [byteAt, List.getD_eq_getElem?_getD, ← List.head?_drop, h]
  rfl

namespace Named

theorem at_name (h : Named buf i ds name sep rest) :
    ∃ slack, buf.drop (i + ds.length) = name ++ sep :: (rest ++ nul :: slack) := by
  obtain ⟨slack, hbytes⟩ := h.bytes
  refine ⟨slack, ?_⟩
  rw [← List.drop_drop, hbytes, List.drop_left]

theorem spn (h : Named buf i ds name sep rest) : strspn buf i childDelim = ds.length := by
  obtain ⟨slack, hbytes⟩ := h.bytes
  have hdelim : nul ∉ childDelim := by decide
  rw [strspn, strAt_of_bytes (fun hnul => hdelim (h.delims nul hnul)) hbytes]
  · simpa using h.delims
  · intro c hc
    rw [List.head?_append_of_ne_nil _ h.name_ne] at hc
    simpa using Or.inr (h.no_delim c (List.mem_of_mem_head? hc))

/-- It is neither the end of the line nor a question mark. -/
theorem looked_up (h : Named buf i ds name sep rest) :
    ¬ (byteAt buf (i + ds.length) = nul ∨ byteAt buf (i + ds.length) = '?') := by
  obtain ⟨slack, hdrop⟩ := h.at_name
  obtain ⟨n, ns, rfl⟩ := List.exists_cons_of_ne_nil h.name_ne
  rw [byteAt_of_drop hdrop]
  rintro (rfl | rfl)
  · exact h.name_nul List.mem_cons_self
  · exact h.no_query rfl

theorem cspn (h : Named buf i ds name sep rest) :
    strcspn buf (i + ds.length) childDelim = name.length := by
  obtain ⟨slack, hdrop⟩ := h.at_name
  rw [strcspn, strAt_of_bytes h.name_nul hdrop]
  · simpa using h.no_delim
  · intro c hc
    cases hc
    rcases h.sep_cases with hsep | ⟨rfl, -⟩
    · simpa using Or.inr hsep
    · exact Or.inl rfl

theorem sep_at (h : Named buf i ds name sep rest) :
    byteAt buf (i + ds.length + name.length) = sep := by
  obtain ⟨slack, hdrop⟩ := h.at_name
  have hsep : buf.drop (i + ds.length + name.length) = sep :: (rest ++ nul :: slack) := by
    rw [← List.drop_drop, hdrop, List.drop_left]
  exact byteAt_of_drop hsep

/-- The NUL that is written cuts the name off, and what is behind it. -/
theorem cut (h : Named buf i ds name sep rest) :
    Stands (buf.set (i + ds.length + name.length) nul) (i + ds.length) name ∧
      Stands (buf.set (i + ds.length + name.length) nul) (i + ds.length + name.length + 1) rest := by
  obtain ⟨slack, hdrop⟩ := h.at_name
  exact Stands.cut_at h.name_nul h.rest_nul hdrop

end Named

/-- What is sent of a line with a name in it, and the furthest byte touched: the byte
behind the one that ends the name is looked at in any case. -/
theorem childSendT_named (children : List Child) (h : Named buf i ds name sep rest) :
    ∃ touched, (∀ j ∈ touched, j ≤ i + ds.length + name.length + 1 + rest.length) ∧
      i + ds.length + name.length + 1 ∈ touched ∧
      childSendT children buf i = (sentTo children name sep rest, touched) := by
  obtain ⟨hleft, hright⟩ := h.cut
  have hblank := hright.spn whitespace
  have hlen := congrArg List.length
    (List.takeWhile_append_dropWhile (l := rest) (p := fun c => decide (c ∈ whitespace)))
  rw [List.length_append] at hlen
  simp only [childSendT, h.spn, if_neg h.looked_up, h.cspn, h.sep_at, hblank, hleft.str, sentTo]
  have hsplit := hright
  rw [← List.takeWhile_append_dropWhile (l := rest) (p := fun c => decide (c ∈ whitespace))] at hsplit
  have hrest := hsplit.advance
  cases hfind : childFindByName children name with
  | none =>
      refine ⟨_, ?_, ?_, rfl⟩
      · intro j hj
        simp only [List.mem_append, mem_bytesAt] at hj
        omega
      · simp only [List.mem_append, mem_bytesAt]
        omega
  | some childp =>
      by_cases hslash : sep = '/'
      · -- the slash is written in front of the text
        have hprev : i + ds.length + name.length + 1 + (rest.takeWhile (· ∈ whitespace)).length - 1
            = i + ds.length + name.length + (rest.takeWhile (· ∈ whitespace)).length := by omega
        have hsucc : i + ds.length + name.length + (rest.takeWhile (· ∈ whitespace)).length + 1
            = i + ds.length + name.length + 1 + (rest.takeWhile (· ∈ whitespace)).length := by omega
        rw [← hsucc] at hrest
        have hpush := hrest.push (c := '/') (by decide)
        simp only [hslash, if_true, ne_eq, show ('/' : Char) ≠ nul by decide, not_false_eq_true, hprev,
          hpush.str, hpush.newline, sentBehind]
        refine ⟨_, ?_, ?_, rfl⟩
        · intro j hj
          simp only [List.mem_append, mem_bytesAt, List.length_cons] at hj
          omega
        · simp only [List.mem_append, mem_bytesAt]
          omega
      · -- nothing is put back
        simp only [hslash, if_false, ne_eq, not_true_eq_false, hrest.str, hrest.newline, sentBehind]
        refine ⟨_, ?_, ?_, rfl⟩
        · intro j hj
          simp only [List.mem_append, mem_bytesAt] at hj
          omega
        · simp only [List.mem_append, mem_bytesAt]
          omega

/-! ## A line of its own size -/

/-- The line without its trailing blanks. -/
def trimmed (line : CStr) : CStr := line.rdropWhile (· ∈ whitespace)

/-- Trailing blanks become NULs. -/
theorem trimTrailing_eq (line : CStr) : ∀ beyond : List Char, nul ∉ line →
    trimTrailing 0 (line ++ nul :: beyond) line.length =
      (trimmed line ++ (List.replicate (line.length - (trimmed line).length) nul ++ nul :: beyond),
        (trimmed line).length) := by
  induction line using List.reverseRecOn with
  | nil =>
      intro beyond _
      rfl
  | append_singleton l c ih =>
      intro beyond hnul
      have hc : c ≠ nul := fun heq => hnul (by simp [heq])
      have hl : nul ∉ l := fun h => hnul (List.mem_append_left _ h)
      have hdrop : (l ++ [c] ++ nul :: beyond).drop (0 + l.length) = c :: nul :: beyond := by
        rw [Nat.zero_add, List.append_assoc, List.drop_left]
        rfl
      rw [List.length_append, List.length_singleton, trimTrailing, byteAt_of_drop hdrop]
      by_cases hblank : c ∈ whitespace
      · -- the blank becomes a NUL, like the one behind it
        have hset : (l ++ [c] ++ nul :: beyond).set (0 + l.length) nul = l ++ nul :: nul :: beyond := by
          rw [Nat.zero_add, List.append_assoc, List.set_append_right _ _ le_rfl, Nat.sub_self]
          rfl
        have htrim : trimmed (l ++ [c]) = trimmed l := List.rdropWhile_concat_pos _ _ _ (by simpa using hblank)
        have hle : (trimmed l).length ≤ l.length := (List.rdropWhile_prefix _ l).length_le
        rw [if_pos (Or.inl hblank), hset, ih _ hl, htrim, Nat.succ_sub hle, List.replicate_succ']
        simp
      · have htrim : trimmed (l ++ [c]) = l ++ [c] := List.rdropWhile_concat_neg _ _ _ (by simpa using hblank)
        rw [if_neg (by simp [hblank, hc]), htrim]
        simp

/-- What stands in front of a byte that is no blank is left. -/
theorem trimmed_append_cons {c : Char} (hc : c ∉ whitespace) (a u : CStr) :
    trimmed (a ++ c :: u) = a ++ c :: trimmed u := by
  unfold trimmed
  induction u using List.reverseRecOn with
  | nil => exact List.rdropWhile_concat_neg _ _ _ (by simpa using hc)
  | append_singleton l d ih =>
      rw [← List.cons_append, ← List.append_assoc]
      by_cases hblank : d ∈ whitespace
      · rw [List.rdropWhile_concat_pos _ _ _ (by simpa using hblank), ih,
          List.rdropWhile_concat_pos _ _ _ (by simpa using hblank)]
      · rw [List.rdropWhile_concat_neg _ _ _ (by simpa using hblank),
          List.rdropWhile_concat_neg _ _ _ (by simpa using hblank), List.append_assoc]
        rfl

theorem trimmed_slash (u : CStr) : trimmed ('/' :: u) = '/' :: trimmed u :=
  trimmed_append_cons slash_not_blank [] u

/-- A line is what is left of it and blanks. -/
theorem trimmed_append (u : CStr) :
    ∃ blanks, u = trimmed u ++ blanks ∧ ∀ c ∈ blanks, c ∈ whitespace := by
  refine ⟨u.rtakeWhile (· ∈ whitespace), List.rdropWhile_append_rtakeWhile.symm, ?_⟩
  intro c hc
  simpa using List.mem_rtakeWhile_imp hc

/-- `child_send` on a line that starts with a slash, as `process_commands` calls it. -/
def lineSend (children : List Child) (buf : List Char) : Sent × List Nat :=
  childSendT children (trimTrailing 0 buf (strAt buf 0).length).1 1

/-- The bytes `child_send` finds behind the slash: the line, then NULs for the blanks at its
end, its own NUL, and what follows the buffer. -/
theorem lineSend_eq (children : List Child) {u : CStr} (hnul : nul ∉ u) (beyond : List Char) :
    lineSend children ('/' :: u ++ nul :: beyond) =
      childSendT children ('/' :: trimmed u ++
        (List.replicate (u.length - (trimmed u).length) nul ++ nul :: beyond)) 1 := by
  have hline : nul ∉ '/' :: u := by simpa using ⟨by decide, hnul⟩
  have hstr : strAt ('/' :: u ++ nul :: beyond) 0 = '/' :: u := (Stands.of_append hline beyond).str
  rw [lineSend, hstr, trimTrailing_eq _ _ hline, trimmed_slash]
  simp only [List.length_cons, Nat.add_sub_add_right]

theorem replicate_nul_append (k : Nat) (beyond : List Char) :
    ∃ slack, List.replicate k nul ++ nul :: beyond = nul :: slack := by
  cases k with
  | zero => exact ⟨beyond, rfl⟩
  | succ k => exact ⟨List.replicate k nul ++ nul :: beyond, rfl⟩

/-- The text `child_send` is given, with NULs for the blanks. -/
theorem stands_trimmed {t : CStr} (hnul : nul ∉ t) (k : Nat) (beyond : List Char) :
    Stands ('/' :: t ++ (List.replicate k nul ++ nul :: beyond)) 1 t := by
  obtain ⟨slack, hslack⟩ := replicate_nul_append k beyond
  rw [hslack]
  exact ⟨hnul, slack, rfl⟩

/-- The call is the one of the loop. -/
theorem processLine_slash (children : List Child) {u : CStr} (hnul : nul ∉ u)
    (beyond : List Char) : processLine children ('/' :: u ++ nul :: beyond) =
      .forward (lineSend children ('/' :: u ++ nul :: beyond)).1 := by
  have hline : nul ∉ '/' :: u := by simpa using ⟨by decide, hnul⟩
  have hbuf := Stands.of_append hline beyond
  have hbyte : byteAt ('/' :: u ++ nul :: beyond) 0 = '/' := hbuf.byte
  have hspn : strspn ('/' :: u ++ nul :: beyond) 0 whitespace = 0 := by
    rw [hbuf.spn]
    simp [slash_not_blank]
  have htrim := trimTrailing_eq ('/' :: u) beyond hline
  rw [trimmed_slash] at htrim
  have hlen : ('/' :: u).length ≠ 0 := by simp
  have hlen' : ('/' :: trimmed u).length ≠ 0 := by simp
  have hslash : ¬ '/' = nul := by decide
  have hhash : ¬ '/' = '#' := by decide
  simp only [processLine, hbyte, hslash, if_false, hspn, hbuf.str, hlen, hhash, htrim, hlen',
    childSendT_fst, lineSend]
  exact if_pos rfl

/-! ## Staying inside -/

/-- What is sent of what is left of a line behind the name. -/
def sentOf : CStr → CStr
  | [] => []
  | sep :: rest => sentBehind sep rest

/-- What follows the child's name, with the slash it ends in. -/
def textBehind (line : CStr) : CStr :=
  sentOf (((trimmed line).tail.dropWhile (· ∈ childDelim)).dropWhile (· ∉ childDelim))

/-- In a buffer of exactly the line and its NUL, all bytes touched are in the buffer, and
the bytes written are those of the line, whatever follows the buffer. -/
structure StaysInside (line : CStr) : Prop where
  inside : ∀ children beyond, ∀ j ∈ (lineSend children (line ++ nul :: beyond)).2, j ≤ line.length
  bytes : ∀ children beyond childp bytes,
    (lineSend children (line ++ nul :: beyond)).1 = .wrote childp bytes →
    bytes = textBehind line ++ ['\n']

/-- There is no name, or a delimiter behind it. -/
def Followed (line : CStr) : Prop :=
  line.tail.dropWhile (· ∈ childDelim) = [] ∨
    (line.tail.dropWhile (· ∈ childDelim)).head? = some '?' ∨
    ∃ c ∈ line.tail.dropWhile (· ∈ childDelim), c ∈ childDelim

/-- How the text behind the slash can look. -/
inductive SlashText : CStr → Prop where
  | listing {ds body blanks : CStr} : (∀ c ∈ ds, c ∈ childDelim) →
      body = [] ∨ body.head? = some '?' → (∀ c ∈ blanks, c ∈ whitespace) →
      trimmed (ds ++ body ++ blanks) = ds ++ body → SlashText (ds ++ body ++ blanks)
  | name {ds name tail blanks : CStr} : (∀ c ∈ ds, c ∈ childDelim) → name ≠ [] →
      name.head? ≠ some '?' → (∀ c ∈ name, c ∉ childDelim) →
      (∀ c, tail.head? = some c → c ∈ childDelim) → (∀ c ∈ blanks, c ∈ whitespace) →
      trimmed (ds ++ (name ++ tail) ++ blanks) = ds ++ (name ++ tail) →
      SlashText (ds ++ (name ++ tail) ++ blanks)

theorem slashText (u : CStr) : SlashText u := by
  obtain ⟨blanks, hu, hblanks⟩ := trimmed_append u
  have hds : ∀ c ∈ (trimmed u).takeWhile (· ∈ childDelim), c ∈ childDelim := by
    intro c hc
    simpa using List.mem_takeWhile_imp hc
  have hsplit : (trimmed u).takeWhile (· ∈ childDelim) ++ (trimmed u).dropWhile (· ∈ childDelim)
      = trimmed u := List.takeWhile_append_dropWhile
  have hhead := List.head?_dropWhile_not (fun c => decide (c ∈ childDelim)) (trimmed u)
  generalize (trimmed u).takeWhile (· ∈ childDelim) = ds at hds hsplit
  generalize (trimmed u).dropWhile (· ∈ childDelim) = body at hsplit hhead
  rw [← hsplit] at hu
  by_cases hlisting : body = [] ∨ body.head? = some '?'
  · have htext := SlashText.listing hds hlisting hblanks (by rw [← hu, hsplit])
    rw [← hu] at htext
    exact htext
  · -- a name up to the first delimiter
    obtain ⟨hne, hquery⟩ := not_or.mp hlisting
    have hname : ∀ c ∈ body.takeWhile (· ∉ childDelim), c ∉ childDelim := by
      intro c hc
      simpa using List.mem_takeWhile_imp hc
    have htail := List.head?_dropWhile_not (fun c => decide (c ∉ childDelim)) body
    have hjoin : body.takeWhile (· ∉ childDelim) ++ body.dropWhile (· ∉ childDelim) = body :=
      List.takeWhile_append_dropWhile
    obtain ⟨n, ns, rfl⟩ := List.exists_cons_of_ne_nil hne
    have hn : n ∉ childDelim := by simpa using hhead
    have hcons : (n :: ns).takeWhile (· ∉ childDelim) = n :: ns.takeWhile (· ∉ childDelim) :=
      List.takeWhile_cons_of_pos (by simpa using hn)
    rw [hcons] at hname hjoin
    have htail' : ∀ c, ((n :: ns).dropWhile (· ∉ childDelim)).head? = some c → c ∈ childDelim := by
      intro c hc
      rw [hc] at htail
      simpa using htail
    have htext := SlashText.name hds (by simp) (by simpa using hquery) hname htail' hblanks
      (by rw [hjoin, ← hu, hsplit])
    rw [hjoin, ← hu] at htext
    exact htext

/-- Where nothing is looked up, nothing is sent, and the line is read no further. -/
theorem staysInside_listing {ds body blanks : CStr} (hds : ∀ c ∈ ds, c ∈ childDelim)
    (hbody : body = [] ∨ body.head? = some '?')
    (htrim : trimmed (ds ++ body ++ blanks) = ds ++ body) (hnul : nul ∉ ds ++ body ++ blanks) :
    StaysInside ('/' :: (ds ++ body ++ blanks)) := by
  have hsend : ∀ children beyond, lineSend children ('/' :: (ds ++ body ++ blanks) ++ nul :: beyond)
      = (.listed, bytesAt 1 (ds.length + 1)) := by
    intro children beyond
    rw [lineSend_eq children hnul, htrim]
    apply childSendT_listed _ hds hbody
    exact stands_trimmed (fun h => hnul (List.mem_append_left _ h)) _ _
  constructor
  · intro children beyond j hj
    rw [hsend, mem_bytesAt] at hj
    simp only [List.length_cons, List.length_append]
    omega
  · intro children beyond childp bytes hwrote
    rw [hsend] at hwrote
    cases hwrote

theorem textBehind_name {ds name tail blanks : CStr} (hds : ∀ c ∈ ds, c ∈ childDelim)
    (hne : name ≠ []) (hname : ∀ c ∈ name, c ∉ childDelim)
    (htail : ∀ c, tail.head? = some c → c ∈ childDelim)
    (htrim : trimmed (ds ++ (name ++ tail) ++ blanks) = ds ++ (name ++ tail)) :
    textBehind ('/' :: (ds ++ (name ++ tail) ++ blanks)) = sentOf tail := by
  have hhead : ∀ c, (name ++ tail).head? = some c → decide (c ∈ childDelim) = false := by
    intro c hc
    rw [List.head?_append_of_ne_nil _ hne] at hc
    simpa using hname c (List.mem_of_mem_head? hc)
  have hdrop : (name ++ tail).dropWhile (· ∉ childDelim) = tail := by
    apply dropWhile_append_stop
    · simpa using hname
    · simpa using htail
  rw [textBehind, trimmed_slash, htrim, List.tail_cons,
    dropWhile_append_stop (by simpa using hds) hhead, hdrop]

/-- Where the name ends in front of the line's NUL: the byte behind it, a NUL if it was a
blank at the end, and the string behind that. -/
theorem exists_named {ds name tail blanks : CStr} (hds : ∀ c ∈ ds, c ∈ childDelim)
    (hne : name ≠ []) (hquery : name.head? ≠ some '?') (hname : ∀ c ∈ name, c ∉ childDelim)
    (htail : ∀ c, tail.head? = some c → c ∈ childDelim)
    (hnul : nul ∉ name ++ tail) (hmore : tail ++ blanks ≠ []) :
    ∃ (sep : Char) (rest : CStr), sentOf tail = sentBehind sep rest ∧
      rest.length + 1 ≤ (tail ++ blanks).length ∧
      ∀ beyond, Named ('/' :: (ds ++ (name ++ tail)) ++
        (List.replicate blanks.length nul ++ nul :: beyond)) 1 ds name sep rest := by
  have hname' : nul ∉ name := fun h => hnul (List.mem_append_left _ h)
  have htail' : nul ∉ tail := fun h => hnul (List.mem_append_right _ h)
  cases tail with
  | cons sep rest =>
      refine ⟨sep, rest, rfl, by simp, fun beyond => ?_⟩
      obtain ⟨slack, hslack⟩ := replicate_nul_append blanks.length beyond
      rw [hslack]
      exact ⟨⟨slack, by simp⟩, hds, hne, hquery, hname, hname',
        fun h => htail' (List.mem_cons_of_mem _ h), Or.inl (htail sep rfl)⟩
  | nil =>
      obtain ⟨b, blanks, rfl⟩ := List.exists_cons_of_ne_nil hmore
      refine ⟨nul, [], by decide, by simp, fun beyond => ?_⟩
      obtain ⟨slack, hslack⟩ := replicate_nul_append blanks.length beyond
      have hcons : List.replicate (b :: blanks).length nul ++ nul :: beyond = nul :: nul :: slack := by
        rw [List.length_cons, List.replicate_succ, List.cons_append, hslack]
      rw [hcons]
      exact ⟨⟨slack, by simp⟩, hds, hne, hquery, hname, hname', by simp, Or.inr ⟨rfl, rfl⟩⟩

/-- A line with a name that ends in front of the line's NUL. -/
theorem staysInside_name {ds name tail blanks : CStr} (hds : ∀ c ∈ ds, c ∈ childDelim)
    (hne : name ≠ []) (hquery : name.head? ≠ some '?') (hname : ∀ c ∈ name, c ∉ childDelim)
    (htail : ∀ c, tail.head? = some c → c ∈ childDelim)
    (htrim : trimmed (ds ++ (name ++ tail) ++ blanks) = ds ++ (name ++ tail))
    (hnul : nul ∉ ds ++ (name ++ tail) ++ blanks) (hmore : tail ++ blanks ≠ []) :
    StaysInside ('/' :: (ds ++ (name ++ tail) ++ blanks)) := by
  have hplain : nul ∉ name ++ tail :=
    fun h => hnul (List.mem_append_left _ (List.mem_append_right _ h))
  obtain ⟨sep, rest, hsent, hlen, hnamed⟩ := exists_named hds hne hquery hname htail hplain hmore
  have htext := textBehind_name hds hne hname htail htrim
  rw [hsent] at htext
  have hsend : ∀ children beyond, ∃ touched,
      (∀ j ∈ touched, j ≤ 1 + ds.length + name.length + 1 + rest.length) ∧
      lineSend children ('/' :: (ds ++ (name ++ tail) ++ blanks) ++ nul :: beyond) =
        (sentTo children name sep rest, touched) := by
    intro children beyond
    obtain ⟨touched, hle, -, hsend⟩ := childSendT_named children (hnamed beyond)
    refine ⟨touched, hle, ?_⟩
    have hcount : (ds ++ (name ++ tail) ++ blanks).length - (ds ++ (name ++ tail)).length
        = blanks.length := by
      rw [List.length_append, Nat.add_sub_cancel_left]
    rw [lineSend_eq children hnul, htrim, hcount]
    exact hsend
  constructor
  · intro children beyond j hj
    obtain ⟨touched, hle, heq⟩ := hsend children beyond
    rw [heq] at hj
    have hj' := hle j hj
    simp only [List.length_cons, List.length_append] at hlen ⊢
    omega
  · intro children beyond childp bytes hwrote
    obtain ⟨touched, -, heq⟩ := hsend children beyond
    rw [heq] at hwrote
    rw [htext]
    cases hfind : childFindByName children name with
    | none => simp [sentTo, hfind] at hwrote
    | some c =>
        simp only [sentTo, hfind, Sent.wrote.injEq] at hwrote
        exact hwrote.2.symm

/-- Behind a name at the end of the line is the byte after the buffer. -/
theorem not_staysInside_name {ds name : CStr} (hds : ∀ c ∈ ds, c ∈ childDelim)
    (hne : name ≠ []) (hquery : name.head? ≠ some '?') (hname : ∀ c ∈ name, c ∉ childDelim)
    (htrim : trimmed (ds ++ name) = ds ++ name) (hnul : nul ∉ ds ++ name) :
    ¬ StaysInside ('/' :: (ds ++ name)) := by
  intro h
  have hnamed : Named ('/' :: (ds ++ name) ++ (List.replicate ((ds ++ name).length - (ds ++ name).length) nul ++
      nul :: [nul])) 1 ds name nul [] := by
    rw [Nat.sub_self]
    exact ⟨⟨[], by simp⟩, hds, hne, hquery, hname, fun h => hnul (List.mem_append_right _ h), by simp,
      Or.inr ⟨rfl, rfl⟩⟩
  obtain ⟨touched, -, hmem, hsend⟩ := childSendT_named [] hnamed
  have hle := h.inside [] [nul] (1 + ds.length + name.length + 1) (by
    rw [lineSend_eq [] hnul, htrim, hsend]
    exact hmem)
  simp only [List.length_cons, List.length_append] at hle
  omega

/-! ## Which lines -/

theorem followed_listing {ds body blanks : CStr} (hds : ∀ c ∈ ds, c ∈ childDelim)
    (hbody : body = [] ∨ body.head? = some '?') (hblanks : ∀ c ∈ blanks, c ∈ whitespace) :
    Followed ('/' :: (ds ++ body ++ blanks)) := by
  unfold Followed
  rw [List.tail_cons]
  rcases hbody with rfl | hbody
  · apply Or.inl
    rw [List.append_nil, List.dropWhile_eq_nil_iff]
    intro c hc
    rcases List.mem_append.mp hc with hc | hc
    · simpa using hds c hc
    · simpa using delim_of_blank (hblanks c hc)
  · obtain ⟨t, rfl⟩ := List.head?_eq_some_iff.mp hbody
    apply Or.inr
    apply Or.inl
    rw [List.append_assoc, dropWhile_append_stop (by simpa using hds)]
    · rfl
    · intro c hc
      cases hc
      decide

theorem followed_name {ds name tail blanks : CStr} (hds : ∀ c ∈ ds, c ∈ childDelim)
    (hne : name ≠ []) (hquery : name.head? ≠ some '?') (hname : ∀ c ∈ name, c ∉ childDelim)
    (htail : ∀ c, tail.head? = some c → c ∈ childDelim) (hblanks : ∀ c ∈ blanks, c ∈ whitespace) :
    Followed ('/' :: (ds ++ (name ++ tail) ++ blanks)) ↔ tail ++ blanks ≠ [] := by
  have hdrop : (ds ++ (name ++ tail) ++ blanks).dropWhile (· ∈ childDelim) = name ++ (tail ++ blanks) := by
    rw [List.append_assoc, List.append_assoc, dropWhile_append_stop (by simpa using hds)]
    intro c hc
    rw [List.head?_append_of_ne_nil _ hne] at hc
    simpa using hname c (List.mem_of_mem_head? hc)
  unfold Followed
  rw [List.tail_cons, hdrop, List.head?_append_of_ne_nil _ hne]
  constructor
  · rintro (hnil | hhead | ⟨c, hc, hdelim⟩)
    · exact absurd (List.append_eq_nil_iff.mp hnil).1 hne
    · exact absurd hhead hquery
    · rcases List.mem_append.mp hc with hc | hc
      · exact absurd hdelim (hname c hc)
      · exact List.ne_nil_of_mem hc
  · intro hmore
    apply Or.inr
    apply Or.inr
    cases tail with
    | cons sep rest => exact ⟨sep, by simp, htail sep rfl⟩
    | nil =>
        obtain ⟨b, bs, rfl⟩ := List.exists_cons_of_ne_nil hmore
        exact ⟨b, by simp, delim_of_blank (hblanks b List.mem_cons_self)⟩

/-- `child_send` stays inside the lines that have no name, or a delimiter behind it. -/
theorem child_send_inside_iff {line : CStr} (hslash : line.head? = some '/') (hnul : nul ∉ line) :
    StaysInside line ↔ Followed line := by
  obtain ⟨u, rfl⟩ := List.head?_eq_some_iff.mp hslash
  have hnul' : nul ∉ u := fun h => hnul (List.mem_cons_of_mem _ h)
  cases slashText u with
  | listing hds hbody hblanks htrim =>
      exact iff_of_true (staysInside_listing hds hbody htrim hnul')
        (followed_listing hds hbody hblanks)
  | @name ds name tail blanks hds hne hquery hname htail hblanks htrim =>
      rw [followed_name hds hne hquery hname htail hblanks]
      constructor
      · -- the byte behind the line's NUL would be touched
        rintro hinside hnil
        obtain ⟨rfl, rfl⟩ := List.append_eq_nil_iff.mp hnil
        rw [List.append_nil, List.append_nil] at hinside htrim hnul'
        exact not_staysInside_name hds hne hquery hname htrim hnul' hinside
      · exact staysInside_name hds hne hquery hname htail htrim hnul'

theorem child_send_inside_iff_pair : StaysInside "/a b".toList ↔ Followed "/a b".toList :=
  child_send_inside_iff (by decide) (by decide)

/-- The line `/a`, in front of the bytes `xy`: these are sent to the child. -/
theorem child_send_past_line :
    nul ∉ "/a".toList ∧ ¬ StaysInside "/a".toList ∧
      lineSend [⟨['a'], 2⟩] ("/a".toList ++ nul :: ['x', 'y', nul]) =
        (.wrote ⟨['a'], 2⟩ ['x', 'y', '\n'], [1, 1, 2, 3, 1, 2, 3, 4, 5]) := by
  refine ⟨by decide, ?_, by decide⟩
  intro h
  have hle := h.inside [⟨['a'], 2⟩] ['x', 'y', nul] 3 (by decide)
  exact absurd hle (by decide)

end Memtoy
