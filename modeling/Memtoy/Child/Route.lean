import Memtoy.Child.Command

/-!
# Child.Route — commands addressed to a path of children

`/child/grandchild/... command` is forwarded hop by hop: every process on the way
cuts its own child's name off the line and writes the rest to that child, which
reads it as a line of its own. `deliver` runs a line through the whole tree and
records what each process does with each line it reads.
-/

namespace Memtoy

open CString

/-! ## Delivery -/

/-- The children list of every process. -/
abbrev Family := Pid → List Child

/-- A process has read a line and acted on it. -/
structure Passed where
  pid : Pid
  line : CStr
  action : LineAction
deriving DecidableEq, Repr

/-- A line given to `process_commands` of `pid`, and every line written to other
processes on account of it. `fuel` bounds the depth of the tree. -/
def deliver (family : Family) : (fuel : Nat) → Pid → List Char → List Passed
  | 0, _, _ => []
  | fuel + 1, pid, buf =>
      let action := processLine (family pid) buf
      ⟨pid, strAt buf 0, action⟩ ::
        match action with
        | .forward (.wrote childp bytes) =>
            -- the child's own loop reads what was written to it
            (commandLines bytes).flatMap fun line =>
              deliver family fuel childp.cPid (cmdBuffer line)
        | _ => []

/-! ## Paths -/

/-- A hop of a path: the child, and the blanks after its name. -/
structure Hop where
  child : Child
  blanks : List Char

/-- The line `/c1/c2/.../cn cmd`, with the blanks of each hop. -/
def routeLine : List Hop → CStr → CStr
  | [], cmd => cmd
  | hop :: path, cmd =>
      '/' :: (hop.child.cName ++
        (hop.blanks ++ ((if path = [] then [' '] else []) ++ routeLine path cmd)))

/-- Every child of the path is registered in the process before it. -/
def Registered (family : Family) : Pid → List Hop → Prop
  | _, [] => True
  | pid, hop :: path =>
      hop.child ∈ family pid ∧ Addressable hop.child.cName ∧ (∀ c ∈ hop.blanks, c ∈ whitespace) ∧
        Registered family hop.child.cPid path

/-- The command at the end of a path. -/
structure Forwardable (cmd : CStr) : Prop where
  ne_nil : cmd ≠ []
  no_slash : cmd.head? ≠ some '/'
  trimmed : Trimmed cmd

/-- What a process does with a command that is its own. -/
def ownAction (cmd : CStr) : LineAction :=
  if cmd.head? = some '#' then .comment else .command cmd

/-- Every process of the path gets the line without the names before it and sends
on the line without its own child's name; the last one gets the command. -/
def routePasses (cmd : CStr) : Pid → List Hop → List Passed
  | pid, [] => [⟨pid, cmd, ownAction cmd⟩]
  | pid, hop :: path =>
      ⟨pid, routeLine (hop :: path) cmd,
        .forward (.wrote hop.child (routeLine path cmd ++ ['\n']))⟩ ::
        routePasses cmd hop.child.cPid path

/-! ## The line at each hop -/

/-- What follows the name of a hop: its first byte separates. -/
def afterName (hop : Hop) (path : List Hop) (cmd : CStr) : CStr :=
  hop.blanks ++ ((if path = [] then [' '] else []) ++ routeLine path cmd)

theorem routeLine_cons (hop : Hop) (path : List Hop) (cmd : CStr) :
    routeLine (hop :: path) cmd = '/' :: (hop.child.cName ++ afterName hop path cmd) := rfl

/-- The line of a path starts with a slash or with the command's first byte. -/
theorem head_routeLine {cmd : CStr} (hcmd : Forwardable cmd) (path : List Hop) :
    ∀ c, (routeLine path cmd).head? = some c → c ∉ whitespace := by
  cases path with
  | nil => exact hcmd.trimmed.head
  | cons hop path =>
      intro c hc
      rw [routeLine_cons, List.head?_cons, Option.some.injEq] at hc
      subst hc
      exact slash_not_blank

theorem routeLine_ne_nil {cmd : CStr} (hcmd : Forwardable cmd) (path : List Hop) :
    routeLine path cmd ≠ [] := by
  cases path with
  | nil => exact hcmd.ne_nil
  | cons hop path => simp [routeLine]

/-- Every line of a path ends as the command does. -/
theorem getLast_routeLine {cmd : CStr} (hcmd : Forwardable cmd) (path : List Hop) :
    (routeLine path cmd).getLast? = cmd.getLast? := by
  induction path with
  | nil => rfl
  | cons hop path ih =>
      rw [routeLine_cons, afterName, ← ih]
      have hne := routeLine_ne_nil hcmd path
      generalize routeLine path cmd = rest at hne ⊢
      rw [← List.singleton_append, ← List.append_assoc, ← List.append_assoc, ← List.append_assoc,
        List.getLast?_append_of_ne_nil _ hne]

theorem trimmed_routeLine {cmd : CStr} (hcmd : Forwardable cmd) (path : List Hop) :
    Trimmed (routeLine path cmd) where
  head := head_routeLine hcmd path
  last := by
    rw [getLast_routeLine hcmd]
    exact hcmd.trimmed.last

/-- Skipping the blanks after a name leaves the line of the rest of the path. -/
theorem dropWhile_afterName {hop : Hop} {path : List Hop} {cmd : CStr} (hcmd : Forwardable cmd)
    (hb : ∀ c ∈ hop.blanks, c ∈ whitespace) :
    (afterName hop path cmd).dropWhile (· ∈ whitespace) = routeLine path cmd := by
  have hblanks : ∀ c ∈ hop.blanks, decide (c ∈ whitespace) = true := by simpa using hb
  have hgap : ∀ c ∈ (if path = [] then [' '] else [] : List Char),
      decide (c ∈ whitespace) = true := by
    intro c hc
    split at hc
    · have hsp : c = ' ' := by simpa using hc
      subst hsp
      decide
    · simp at hc
  rw [afterName, List.dropWhile_append_of_pos hblanks, List.dropWhile_append_of_pos hgap]
  obtain ⟨c, rest, hline⟩ := List.exists_cons_of_ne_nil (routeLine_ne_nil hcmd path)
  have hc := head_routeLine hcmd path c (by rw [hline]; rfl)
  rw [hline, List.dropWhile_cons_of_neg (by simpa using hc)]

/-- What follows a name starts with a separator; a slash there is the next hop's,
with that hop's name right after it. -/
theorem afterName_cases {family : Family} {pid : Pid} {hop : Hop} {path : List Hop}
    (hreg : Registered family pid (hop :: path)) (cmd : CStr) :
    ∃ sep t, afterName hop path cmd = sep :: t ∧ sep ∈ childDelim ∧
      (sep = '/' → ∀ c, t.head? = some c → c ∉ whitespace) := by
  obtain ⟨-, -, hb, hrest⟩ := hreg
  -- the separator is the first blank if there is one, else the gap or the next slash
  rcases hblanks : hop.blanks with _ | ⟨b, bs⟩
  · cases path with
    | nil => exact ⟨' ', cmd, by simp [afterName, hblanks, routeLine], by decide, by simp⟩
    | cons next path =>
        obtain ⟨-, hname, -, -⟩ := hrest
        refine ⟨'/', next.child.cName ++ afterName next path cmd, ?_, by decide, ?_⟩
        · simp [afterName, hblanks, routeLine_cons]
        · intro _ c hc hws
          rw [List.head?_append_of_ne_nil _ hname.ne_nil] at hc
          exact hname.no_delim c (List.mem_of_mem_head? hc) (delim_of_blank hws)
  · have hws : b ∈ whitespace := hb b (hblanks ▸ List.mem_cons_self)
    refine ⟨b, _, by rw [afterName, hblanks]; rfl, delim_of_blank hws, ?_⟩
    intro hslash
    exact absurd (hslash ▸ hws) slash_not_blank

/-! ## The whole path -/

variable {family : Family} {cmd : CStr}

/-- The process before a hop sends the rest of the line to the hop's child. -/
theorem processLine_hop {pid : Pid} {hop : Hop} {path : List Hop} {buf : List Char}
    (huniq : ∀ p, ((family p).map Child.cName).Nodup) (hcmd : Forwardable cmd)
    (hreg : Registered family pid (hop :: path))
    (hbuf : Stands buf 0 (routeLine (hop :: path) cmd)) :
    processLine (family pid) buf =
      .forward (.wrote hop.child (routeLine path cmd ++ ['\n'])) := by
  obtain ⟨sep, t, hafter, hsep, hnext⟩ := afterName_cases hreg cmd
  obtain ⟨hmem, hname, hb, -⟩ := hreg
  have hbuf' : Stands buf 0 (['/'] ++ (hop.child.cName ++ afterName hop path cmd)) := hbuf
  have hat := hbuf'.advance
  rw [hafter] at hat
  rw [processLine_trimmed hbuf' (trimmed_routeLine hcmd (hop :: path)), if_neg (by decide),
    if_pos rfl]
  rw [← dropWhile_afterName hcmd hb, hafter]
  exact congrArg LineAction.forward
    (childSend_wrote hat hname hsep hnext (childFindByName_of_mem (huniq pid) hmem))

/-- The process at the end of the path has the command for itself. -/
theorem processLine_end {pid : Pid} {buf : List Char} (hcmd : Forwardable cmd)
    (hbuf : Stands buf 0 cmd) : processLine (family pid) buf = ownAction cmd := by
  obtain ⟨c, s, rfl⟩ := List.exists_cons_of_ne_nil hcmd.ne_nil
  have hslash : c ≠ '/' := fun heq => hcmd.no_slash (heq ▸ rfl)
  rw [processLine_trimmed hbuf hcmd.trimmed, if_neg hslash]
  simp [ownAction]

theorem stands_cmdBuffer {line : CStr} (hnul : nul ∉ line) (hlen : line.length ≤ maxLine) :
    Stands (cmdBuffer line) 0 line := by
  obtain ⟨n, hn⟩ : ∃ n, cmdbufsz - line.length = n + 1 := by
    have hmax : maxLine = 253 := rfl
    have hsz : cmdbufsz = 256 := rfl
    exact ⟨255 - line.length, by omega⟩
  rw [cmdBuffer, hn, List.replicate_succ]
  exact Stands.of_append hnul _

/-- What a hop sends is part of what it got. -/
theorem routeLine_suffix (hop : Hop) (path : List Hop) (cmd : CStr) :
    routeLine path cmd <:+ routeLine (hop :: path) cmd :=
  (((List.suffix_append _ _).trans (List.suffix_append _ _)).trans
    (List.suffix_append _ _)).trans (List.suffix_cons _ _)

theorem routePasses_of_stands (huniq : ∀ p, ((family p).map Child.cName).Nodup)
    (hcmd : Forwardable cmd) {path : List Hop} :
    ∀ {pid : Pid} {buf : List Char} (fuel : Nat), Registered family pid path →
      PlainLine (routeLine path cmd) → (routeLine path cmd).length ≤ maxLine →
      Stands buf 0 (routeLine path cmd) → path.length < fuel →
      deliver family fuel pid buf = routePasses cmd pid path := by
  -- each hop's edited buffer is what its child reads, so the induction is on the path
  induction path with
  | nil =>
      intro pid buf fuel _ _ _ hbuf hfuel
      obtain ⟨fuel, rfl⟩ := Nat.exists_eq_succ_of_ne_zero (Nat.ne_of_gt hfuel)
      simp only [deliver, processLine_end hcmd hbuf, hbuf.str, routePasses, routeLine, ownAction]
      split <;> rfl
  | cons hop path ih =>
      intro pid buf fuel hreg hplain hlen hbuf hfuel
      obtain ⟨fuel, rfl⟩ := Nat.exists_eq_succ_of_ne_zero (Nat.ne_of_gt (Nat.zero_lt_of_lt hfuel))
      have hsuffix := routeLine_suffix hop path cmd
      have hnl : '\n' ∉ routeLine path cmd := fun hmem => hplain.1 (hsuffix.mem hmem)
      have hnul : nul ∉ routeLine path cmd := fun hmem => hplain.2 (hsuffix.mem hmem)
      have hlen' : (routeLine path cmd).length ≤ maxLine := hsuffix.length_le.trans hlen
      have hread : commandLines (routeLine path cmd ++ ['\n']) = [routeLine path cmd] := by
        rw [commandLines_cons (readlineNi_fits hnl hnul hlen' [])]
        rfl
      have hrest := ih fuel hreg.2.2.2 ⟨hnl, hnul⟩ hlen' (stands_cmdBuffer hnul hlen')
        (Nat.lt_of_succ_lt_succ hfuel)
      simp only [deliver, processLine_hop huniq hcmd hreg hbuf, hbuf.str, hread, List.flatMap_cons,
        List.flatMap_nil, List.append_nil, hrest, routePasses]

/-- The buffers in which `process_commands` gets a line: from `readline()` at a
terminal, or from `readline_ni()`. -/
inductive Given (line : CStr) : List Char → Prop where
  | terminal (slack : List Char) : Given line (line ++ nul :: slack)
  | batch {stream rest : List Char} : readlineNi stream = some (line, rest) →
      Given line (cmdBuffer line)

/-- Path routing: the line `/c1/.../cn cmd` goes through the processes of the path,
each cutting off its child's name, and the process at its end gets `cmd`; no other
process reads a line. -/
theorem path_routing (huniq : ∀ p, ((family p).map Child.cName).Nodup) (hcmd : Forwardable cmd)
    (pid : Pid) (path : List Hop) (hreg : Registered family pid path)
    (hplain : PlainLine (routeLine path cmd)) (hlen : (routeLine path cmd).length ≤ maxLine)
    {buf : List Char} (hbuf : Given (routeLine path cmd) buf) {fuel : Nat}
    (hfuel : path.length < fuel) :
    deliver family fuel pid buf = routePasses cmd pid path := by
  refine routePasses_of_stands huniq hcmd fuel hreg hplain hlen ?_ hfuel
  cases hbuf with
  | terminal slack => exact Stands.of_append hplain.2 slack
  | batch _ => exact stands_cmdBuffer hplain.2 hlen

/-- A process 1 with a child `c`, whose child is `g`. -/
def sampleFamily : Family
  | 1 => [⟨['b'], 4⟩, ⟨['c'], 2⟩]
  | 2 => [⟨['g'], 3⟩]
  | _ => []

theorem path_routing_grandchild :
    deliver sampleFamily 3 1 ("/c /g quit".toList ++ [nul]) =
      [⟨1, "/c /g quit".toList, .forward (.wrote ⟨['c'], 2⟩ "/g quit\n".toList)⟩,
        ⟨2, "/g quit".toList, .forward (.wrote ⟨['g'], 3⟩ "quit\n".toList)⟩,
        ⟨3, "quit".toList, .command "quit".toList⟩] := by
  have huniq : ∀ p, ((sampleFamily p).map Child.cName).Nodup := by
    intro p
    unfold sampleFamily
    split <;> decide
  have hcmd : Forwardable "quit".toList :=
    ⟨by decide, by decide, ⟨by simp [whitespace], by simp [whitespace]⟩⟩
  have hc : Addressable ['c'] := ⟨by decide, by simp [childDelim], by decide⟩
  have hg : Addressable ['g'] := ⟨by decide, by simp [childDelim], by decide⟩
  exact path_routing huniq hcmd 1 [⟨⟨['c'], 2⟩, [' ']⟩, ⟨⟨['g'], 3⟩, []⟩]
    ⟨by decide, hc, by simp [whitespace], by decide, hg, by simp, trivial⟩ (by decide) (by decide)
    (Given.terminal []) (by decide)

end Memtoy
