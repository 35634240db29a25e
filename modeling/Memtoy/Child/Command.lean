import Memtoy.Child.Input

/-!
# Child.Command — one pass of the command loop

The body of `process_commands`' loop up to the dispatch of the command, and
`child_send`, which forwards a line to a child. Both edit the line in its buffer:
a `char *` is an index into the buffer (`CString`).
-/

namespace Memtoy

open CString

/-- `char *whitespace` -/
def whitespace : List Char := [' ', '\t']

/-- `static char *child_delim` -/
def childDelim : List Char := ['\t', ' ', '/']

abbrev Pid := Nat

/-- What `child_send` reads of a `child_t`. The command pipe `c_cfd` is the one of
the process `c_pid`. -/
structure Child where
  cName : CStr
  cPid : Pid
deriving DecidableEq, Repr

/-- `child_find_by_name()`: the first record with that name. -/
def childFindByName (children : List Child) (childName : CStr) : Option Child :=
  children.find? (·.cName = childName)

/-- What a call of `child_send` does: print the children, complain about the name,
or write bytes to the child's command pipe and wait. -/
inductive Sent where
  | listed
  | noChild (name : CStr)
  | wrote (child : Child) (bytes : List Char)
deriving DecidableEq, Repr

/-- `child_send(cmd_str)`. `required_arg` cannot fail after the test for an empty
string, and is left out. -/
def childSend (children : List Child) (buf : List Char) (cmdStr : Nat) : Sent :=
  let cmdStr := cmdStr + strspn buf cmdStr childDelim
  if byteAt buf cmdStr = nul ∨ byteAt buf cmdStr = '?' then .listed
  else
    let childName := cmdStr
    let cmdStr := cmdStr + strcspn buf cmdStr childDelim
    let csave := if byteAt buf cmdStr = '/' then '/' else nul
    let buf := buf.set cmdStr nul
    let nextarg := cmdStr + 1
    let cmdStr := nextarg + strspn buf nextarg whitespace
    match childFindByName children (strAt buf childName) with
    | none => .noChild (strAt buf childName)
    | some childp =>
        -- `if (csave) *(--cmd_str) = csave;`
        let cmdStr' := if csave ≠ nul then cmdStr - 1 else cmdStr
        let buf := if csave ≠ nul then buf.set cmdStr' csave else buf
        let cmdlen := (strAt buf cmdStr').length
        let buf := buf.set (cmdStr' + cmdlen) '\n'
        .wrote childp ((buf.drop cmdStr').take (cmdlen + 1))

/-- `while (strchr(whitespace, cmdline[cmdlen-1])) cmdline[--cmdlen] = '\0';` —
`strchr` also finds the NUL that ends `whitespace`. -/
def trimTrailing (cmdline : Nat) : (buf : List Char) → (cmdlen : Nat) → List Char × Nat
  | buf, 0 => (buf, 0)
  | buf, cmdlen + 1 =>
      if byteAt buf (cmdline + cmdlen) ∈ whitespace ∨ byteAt buf (cmdline + cmdlen) = nul then
        trimTrailing cmdline (buf.set (cmdline + cmdlen) nul) cmdlen
      else (buf, cmdlen + 1)

/-- What one pass of the loop does with its line. -/
inductive LineAction where
  | blank
  | comment
  | forward (sent : Sent)
  | command (cmdline : CStr)
deriving DecidableEq, Repr

/-- The loop body of `process_commands` for the line in `buf`, no signal pending. -/
def processLine (children : List Child) (buf : List Char) : LineAction :=
  if byteAt buf 0 = nul then .blank
  else
    let cmdline := strspn buf 0 whitespace
    let cmdlen := (strAt buf cmdline).length
    if cmdlen = 0 then .blank
    else if byteAt buf cmdline = '#' then .comment
    else
      let (buf, cmdlen) := trimTrailing cmdline buf cmdlen
      if cmdlen = 0 then .blank
      else if byteAt buf cmdline = '/' then .forward (childSend children buf (cmdline + 1))
      else .command (strAt buf cmdline)

/-- Where keys are unique, looking an element up by its key finds it. -/
theorem find?_key {α β : Type} [DecidableEq β] {key : α → β} {l : List α} {x : α}
    (huniq : (l.map key).Nodup) (hmem : x ∈ l) : l.find? (key · = key x) = some x := by
  induction l with
  | nil => cases hmem
  | cons first l ih =>
      rw [List.map_cons, List.nodup_cons] at huniq
      obtain ⟨hnew, huniq⟩ := huniq
      rcases List.mem_cons.mp hmem with rfl | hmem
      · simp
      · have hne : key first ≠ key x := fun heq => hnew (heq ▸ List.mem_map_of_mem hmem)
        rw [List.find?_cons_of_neg (by simpa using hne)]
        exact ih huniq hmem

theorem childFindByName_of_mem {children : List Child} {childp : Child}
    (huniq : (children.map Child.cName).Nodup) (hmem : childp ∈ children) :
    childFindByName children childp.cName = some childp := find?_key huniq hmem

/-! ## `child_send` on a path -/

/-- A child name that can be addressed on a path. -/
structure Addressable (name : CStr) : Prop where
  ne_nil : name ≠ []
  no_delim : ∀ c ∈ name, c ∉ childDelim
  no_query : name.head? ≠ some '?'

theorem delim_of_blank {c : Char} (h : c ∈ whitespace) : c ∈ childDelim := by
  simp only [whitespace, childDelim, List.mem_cons, List.not_mem_nil, or_false] at h ⊢
  rcases h with rfl | rfl <;> simp

/-- A separator is a slash or a blank. -/
theorem delim_cases {c : Char} (h : c ∈ childDelim) : c = '/' ∨ c ∈ whitespace := by
  simp only [whitespace, childDelim, List.mem_cons, List.not_mem_nil, or_false] at h ⊢
  rcases h with rfl | rfl | rfl <;> simp

theorem slash_not_blank : '/' ∉ whitespace := by decide

/-- `child_send` cuts off the child's name, skips blanks, and sends the rest: a slash
that ended the name is part of the rest. -/
theorem childSend_wrote {children : List Child} {childp : Child} {buf : List Char} {i : Nat}
    {name t : CStr} {sep : Char} (hbuf : Stands buf i (name ++ sep :: t)) (hname : Addressable name)
    (hsep : sep ∈ childDelim) (hnext : sep = '/' → ∀ c, t.head? = some c → c ∉ whitespace)
    (hfind : childFindByName children name = some childp) :
    childSend children buf i =
      .wrote childp ((sep :: t).dropWhile (· ∈ whitespace) ++ ['\n']) := by
  obtain ⟨n, ns, rfl⟩ := List.exists_cons_of_ne_nil hname.ne_nil
  have hn : n ∉ childDelim := hname.no_delim n List.mem_cons_self
  have hspn : strspn buf i childDelim = 0 := by
    rw [hbuf.spn]
    simp [hn]
  have hbyte : byteAt buf i = n := by
    rw [hbuf.byte]
    rfl
  have hnul : n ≠ nul := fun heq => hbuf.1 (heq ▸ List.mem_cons_self)
  have hquery : n ≠ '?' := fun heq => hname.no_query (heq ▸ rfl)
  have hcspn : strcspn buf i childDelim = (n :: ns).length := by
    rw [hbuf.cspn, List.takeWhile_append_of_pos]
    · simp [hsep]
    · intro c hc
      simpa using hname.no_delim c hc
  have hat : byteAt buf (i + (n :: ns).length) = sep := by
    rw [hbuf.advance.byte]
    rfl
  obtain ⟨hleft, hright⟩ := hbuf.cut
  have hstr := hleft.str
  have hblank := hright.spn whitespace
  simp only [childSend, hspn, Nat.add_zero, hbyte, hnul, hquery, or_self, if_false, hcspn, hat,
    hstr, hfind, hblank]
  rcases delim_cases hsep with rfl | hws
  · -- the slash is put back where the NUL was written
    have hzero : (t.takeWhile (· ∈ whitespace)).length = 0 := by
      rcases t with _ | ⟨c, t⟩
      · rfl
      · have hc := hnext rfl c rfl
        simp [hc]
    have hslash := hright.push (c := '/') (by decide)
    simp only [if_true, hzero, Nat.add_zero, Nat.add_sub_cancel, hslash.str, hslash.newline,
      ne_eq, show ('/' : Char) ≠ nul by decide, not_false_eq_true]
    rw [List.dropWhile_cons_of_neg (by simpa using slash_not_blank)]
  · -- nothing is put back: the blanks from `sep` on are skipped
    have hne : sep ≠ '/' := fun heq => slash_not_blank (heq ▸ hws)
    have hrest : Stands (buf.set (i + (n :: ns).length) nul)
        (i + (n :: ns).length + 1 + (t.takeWhile (· ∈ whitespace)).length)
        (t.dropWhile (· ∈ whitespace)) := by
      apply Stands.advance
      rw [List.takeWhile_append_dropWhile]
      exact hright
    simp only [hne, if_false, ne_eq, not_true_eq_false, hrest.str, hrest.newline]
    rw [List.dropWhile_cons_of_pos (by simpa using hws)]

/-! ## A pass of the loop -/

/-- A line that does not end in a blank is not trimmed. -/
theorem trimTrailing_of_last {buf : List Char} {s : CStr} (hbuf : Stands buf 0 s) {c : Char}
    (hlast : s.getLast? = some c) (hc : c ∉ whitespace) :
    trimTrailing 0 buf s.length = (buf, s.length) := by
  obtain ⟨a, rfl⟩ := List.getLast?_eq_some_iff.mp hlast
  have hbyte : byteAt buf (0 + a.length) = c := by
    rw [hbuf.advance.byte]
    rfl
  have hnul : c ≠ nul := fun heq => hbuf.1 (heq ▸ by simp)
  rw [List.length_append, List.length_singleton, trimTrailing, hbyte, if_neg (by simp [hc, hnul])]

/-- The text a process gets: it starts and ends with a byte that is no blank. -/
structure Trimmed (s : CStr) : Prop where
  head : ∀ c, s.head? = some c → c ∉ whitespace
  last : ∀ c, s.getLast? = some c → c ∉ whitespace

/-- A trimmed line is looked at as it is. -/
theorem processLine_trimmed {children : List Child} {buf : List Char} {c : Char} {s : CStr}
    (hbuf : Stands buf 0 (c :: s)) (ht : Trimmed (c :: s)) :
    processLine children buf =
      if c = '#' then .comment
      else if c = '/' then .forward (childSend children buf 1)
      else .command (c :: s) := by
  have hc : c ∉ whitespace := ht.head c rfl
  have hbyte : byteAt buf 0 = c := hbuf.byte
  have hnul : c ≠ nul := fun heq => hbuf.1 (heq ▸ List.mem_cons_self)
  have hspn : strspn buf 0 whitespace = 0 := by
    rw [hbuf.spn]
    simp [hc]
  have hlast : (c :: s).getLast? = some ((c :: s).getLast (by simp)) :=
    List.getLast?_eq_some_getLast _
  have htrim := trimTrailing_of_last hbuf hlast (ht.last _ hlast)
  have hlen : (c :: s).length ≠ 0 := by simp
  simp only [processLine, hbyte, hnul, if_false, hspn, hbuf.str, hlen, htrim, Nat.zero_add]

theorem trimTrailing_first {cmdline : Nat} (n : Nat) :
    ∀ buf : List Char, (trimTrailing cmdline buf n).2 ≠ 0 →
      byteAt (trimTrailing cmdline buf n).1 cmdline = byteAt buf cmdline := by
  induction n with
  | zero =>
      intro buf hne
      exact absurd rfl hne
  | succ n ih =>
      intro buf hne
      simp only [trimTrailing] at hne ⊢
      split
      · next hblank =>
        rw [if_pos hblank] at hne
        rw [ih _ hne]
        -- the first byte itself is not cut off
        have hpos : n ≠ 0 := by
          rintro rfl
          exact hne rfl
        rw [byteAt, byteAt, List.getD_eq_getElem?_getD, List.getElem?_set_ne (by omega),
          ← List.getD_eq_getElem?_getD]
      · rfl

/-- The text of a command starts with a byte that is no blank. -/
theorem processLine_command {children : List Child} {buf : List Char} {cmdline : CStr}
    (h : processLine children buf = .command cmdline) :
    ∃ c s, cmdline = c :: s ∧ c ∉ whitespace := by
  have hspan := strAt_strspn buf 0 whitespace
  rw [Nat.zero_add] at hspan
  simp only [processLine] at h
  split at h
  · cases h
  · split at h
    · cases h
    · next hlen =>
      -- the text begins where the blanks end, and is not empty
      obtain ⟨c, s, hcons⟩ := List.exists_cons_of_ne_nil (fun hnil => hlen (congrArg List.length hnil))
      have hblank : c ∉ whitespace := by
        have hhead := List.head?_dropWhile_not (fun c => decide (c ∈ whitespace)) (strAt buf 0)
        rw [← hspan, hcons] at hhead
        simpa using hhead
      have hnul : c ≠ nul := ne_nul_of_mem (hcons ▸ List.mem_cons_self)
      split at h
      · cases h
      · split at h
        · cases h
        · next htrim =>
          split at h
          · cases h
          · cases h
            have hfirst := trimTrailing_first _ _ htrim
            rw [byteAt_eq, byteAt_eq buf, hcons, List.headD_cons] at hfirst
            rcases htext : strAt (trimTrailing (strspn buf 0 whitespace) buf
              (strAt buf (strspn buf 0 whitespace)).length).1 (strspn buf 0 whitespace) with _ | ⟨c', s'⟩
            · rw [hcons] at htext
              rw [htext] at hfirst
              exact absurd hfirst.symm hnul
            · rw [hcons] at htext
              rw [htext, List.headD_cons] at hfirst
              exact ⟨c', s', rfl, hfirst ▸ hblank⟩

end Memtoy
