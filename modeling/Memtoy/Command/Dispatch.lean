import Memtoy.Command.Batch

/-!
# Command.Dispatch — finding a command by its abbreviation

`parse_command` looks for the first entry of its table whose name begins with the word, and
`unique_abbrev` for another one after it. For any table this amounts to counting the entries
whose names begin with the word (`searchTable_eq`), so the order of the table does not matter.
-/

namespace Memtoy

open CString Cmd

variable {H : Type}

/-- `struct command`, with handlers of any type. -/
structure CommandEntry (H : Type) where
  cmdName : CStr
  cmdFunc : H

/-- What `parse_command` decides on. -/
inductive Dispatch (H : Type) where
  | call (entry : CommandEntry H) (args : CStr)
  | ambiguous (cmd : CStr)
  | unrecognized (cmd : CStr)

/-! ## The search -/

/-- `unique_abbrev()`, from an entry on. -/
def uniqueAbbrevIn (cmd : CStr) (clen : Nat) : List (CommandEntry H) → Bool
  | [] => true
  | c :: table =>
      -- match: not unique
      if strncmpEq cmd c.cmdName clen then false else uniqueAbbrevIn cmd clen table

/-- The `for` loop of `parse_command`. -/
def searchTable (cmd args : CStr) : List (CommandEntry H) → Dispatch H
  | [] => .unrecognized cmd
  | c :: table =>
      let clen := cmd.length
      if ¬ strncmpEq cmd c.cmdName clen then searchTable cmd args table
      else if ¬ uniqueAbbrevIn cmd clen table then .ambiguous cmd
      else .call c args

/-- The word of a line looked up in a table; `none` when there is no word. -/
def dispatchLine (table : List (CommandEntry H)) (cmdline : CStr) : Option (Dispatch H) :=
  match strtokR whitespace (skipBlanks cmdline) with
  | (none, _) => none
  | (some cmd, args) => some (searchTable cmd args table)

/-- The handler comes back to `parse_command`. -/
def Ending.Returns : Ending → Bool
  | .ret _ | .garbage => true
  | .exit _ | .crash | .hangs => false

/-- `gcp->cmd_name = cmdp->cmd_name; ret = cmdp->cmd_func(args); gcp->cmd_name = NULL;` -/
def CommandEntry.call (c : CommandEntry (CStr → Cmd Unit)) (args : CStr) : Cmd Unit := fun w s =>
  match c.cmdFunc args w { s with cmdName := c.cmdName } with
  | ⟨.next u, s, cs⟩ => ⟨.next u, { s with cmdName := [] }, cs⟩
  | ⟨.stop e, s, cs⟩ => ⟨.stop e, if e.Returns then { s with cmdName := [] } else s, cs⟩

def Dispatch.run : Dispatch (CStr → Cmd Unit) → Cmd Unit
  | .call c args => c.call args
  | .ambiguous cmd => do
      complain [.ambiguous cmd]
      cmdError
  | .unrecognized cmd => do
      complain [.unrecognized cmd]
      cmdError

/-- `parse_command()` with the table `cmd_table`. -/
def parseCommandIn (cmd_table : List (CommandEntry (CStr → Cmd Unit))) (cmdline : CStr) : Cmd Unit :=
  match dispatchLine cmd_table cmdline with
  | none => stop .crash
  | some d => d.run

/-! ## memtoy's table -/

def cmdEntries : List (CommandEntry (CStr → Cmd Unit)) := cmdTable.map fun c => ⟨c.1, c.2.run⟩

/-- What the search finds, for the handlers of a table. -/
def Found.dispatch (cmd args : CStr) : Found → Dispatch (CStr → Cmd Unit)
  | .command name f => .call ⟨name, f.run⟩ args
  | .ambiguous => .ambiguous cmd
  | .unrecognized => .unrecognized cmd

theorem uniqueAbbrevIn_map (cmd : CStr) (table : List (CStr × CmdFunc)) :
    uniqueAbbrevIn cmd cmd.length (table.map fun c => (⟨c.1, c.2.run⟩ : CommandEntry _)) =
      uniqueAbbrev cmd table := by
  induction table with
  | nil => rfl
  | cons c table ih =>
      rw [List.map_cons, uniqueAbbrevIn, ih, uniqueAbbrev, uniqueAbbrev, List.all_cons]
      cases strncmpEq cmd c.1 cmd.length <;> rfl

theorem searchTable_map (cmd args : CStr) (table : List (CStr × CmdFunc)) :
    searchTable cmd args (table.map fun c => ⟨c.1, c.2.run⟩) =
      (findCommand cmd table).dispatch cmd args := by
  induction table with
  | nil => rfl
  | cons c table ih =>
      obtain ⟨name, f⟩ := c
      simp only [List.map_cons, searchTable, findCommand, uniqueAbbrevIn_map, ih]
      split
      · rfl
      · split <;> rfl

/-- With memtoy's table it is `parseCommand`, but for the name left behind by a command that
failed, which nothing reads. -/
theorem parseCommandIn_cmdEntries (cmdline : CStr) (w : World) (s : Shell) :
    (parseCommandIn cmdEntries cmdline w s).flow = (parseCommand cmdline w s).flow ∧
      (parseCommandIn cmdEntries cmdline w s).complaints =
        (parseCommand cmdline w s).complaints ∧
      { (parseCommandIn cmdEntries cmdline w s).shell with cmdName := [] } =
        { (parseCommand cmdline w s).shell with cmdName := [] } := by
  unfold parseCommandIn parseCommand dispatchLine
  rcases strtokR whitespace (skipBlanks cmdline) with ⟨_ | cmd, args⟩
  · exact ⟨rfl, rfl, rfl⟩
  · simp only [cmdEntries, searchTable_map]
    cases findCommand cmd cmdTable with
    | ambiguous => exact ⟨rfl, rfl, rfl⟩
    | unrecognized => exact ⟨rfl, rfl, rfl⟩
    | command name f =>
        simp only [Found.dispatch, Dispatch.run, CommandEntry.call, callCommand, bind, andThen,
          Cmd.shell, setShell]
        rcases f.run args w { s with cmdName := name } with ⟨⟨u⟩ | ⟨e⟩, s', cs⟩
        · simp
        · cases e <;> simp [Ending.Returns]

/-! ## Counting the matches -/

/-- The name of the entry begins with the word. -/
def CommandEntry.matches (cmd : CStr) (c : CommandEntry H) : Bool := decide (cmd <+: c.cmdName)

/-- What to do about the entries that match. -/
def byCount (cmd args : CStr) : List (CommandEntry H) → Dispatch H
  | [] => .unrecognized cmd
  | [c] => .call c args
  | _ :: _ :: _ => .ambiguous cmd

/-- Comparing as many bytes as the word has is asking for a prefix, whatever the lengths. -/
theorem strncmpEq_matches {cmd : CStr} (hcmd : nul ∉ cmd) (c : CommandEntry H) :
    strncmpEq cmd c.cmdName cmd.length = c.matches cmd := by
  rw [Bool.eq_iff_iff, strncmpEq_iff hcmd (List.prefix_refl cmd), CommandEntry.matches,
    decide_eq_true_iff]

theorem uniqueAbbrevIn_iff {cmd : CStr} (hcmd : nul ∉ cmd) (table : List (CommandEntry H)) :
    uniqueAbbrevIn cmd cmd.length table = true ↔ table.filter (CommandEntry.matches cmd) = [] := by
  induction table with
  | nil => simp [uniqueAbbrevIn]
  | cons c table ih =>
      rw [uniqueAbbrevIn, strncmpEq_matches hcmd]
      by_cases hc : c.matches cmd = true
      · simp [hc]
      · simp only [hc, Bool.false_eq_true, if_false, ih, List.filter_cons]

/-- The first match with none after it is the only one. -/
theorem searchTable_eq {cmd : CStr} (hcmd : nul ∉ cmd) (args : CStr) (table : List (CommandEntry H)) :
    searchTable cmd args table = byCount cmd args (table.filter (CommandEntry.matches cmd)) := by
  induction table with
  | nil => rfl
  | cons c table ih =>
      rw [searchTable, strncmpEq_matches hcmd]
      by_cases hc : c.matches cmd = true
      · rw [if_neg (not_not.mpr hc), List.filter_cons_of_pos hc]
        -- the entry matches: what counts are the matches after it
        have hunique := uniqueAbbrevIn_iff hcmd table
        rcases hrest : table.filter (CommandEntry.matches cmd) with _ | ⟨c', rest⟩
        · rw [if_neg (not_not.mpr (hunique.mpr hrest))]
          rfl
        · rw [if_pos (fun h => by simp [hunique.mp h] at hrest)]
          rfl
      · rw [if_pos hc, List.filter_cons_of_neg hc, ih]

/-- How many there are does not depend on their order. -/
theorem byCount_perm {l l' : List (CommandEntry H)} (h : l.Perm l') (cmd args : CStr) :
    byCount cmd args l = byCount cmd args l' := by
  rcases l with _ | ⟨c, _ | ⟨c₂, l⟩⟩
  · rw [h.nil_eq]
  · rw [List.singleton_perm.mp h]
  · have hlen := h.length_eq
    rcases l' with _ | ⟨c', _ | ⟨c₂', l'⟩⟩
    · simp at hlen
    · simp at hlen
    · rfl

/-! ## A line -/

/-- The word of a line, and the text behind the blank that ends it. -/
theorem strtokR_word {blanks w rest : CStr} (hblanks : ∀ c ∈ blanks, c ∈ whitespace) (hw : w ≠ [])
    (hword : ∀ c ∈ w, c ∉ whitespace) (hrest : ∀ c, rest.head? = some c → c ∈ whitespace) :
    strtokR whitespace (skipBlanks (blanks ++ (w ++ rest))) = (some w, rest.tail) := by
  obtain ⟨c, w, rfl⟩ := List.exists_cons_of_ne_nil hw
  have hc : c ∉ whitespace := hword c List.mem_cons_self
  have hskip : skipBlanks (blanks ++ (c :: w ++ rest)) = c :: w ++ rest := by
    apply dropWhile_append_stop
    · exact fun d hd => by simpa using hblanks d hd
    · rintro d hd
      cases hd
      simpa using hc
  have hspan : ∀ d ∈ c :: w, decide (d ∉ whitespace) = true := fun d hd => by
    simpa using hword d hd
  have hstop : ∀ d, rest.head? = some d → decide (d ∉ whitespace) = false := fun d hd => by
    simpa using hrest d hd
  have hagain : skipSpan whitespace (c :: w ++ rest) = c :: w ++ rest := by
    simp [skipSpan, hc]
  rw [hskip, strtokR, hagain]
  simp only [takeWhile_append_stop hspan hstop, dropWhile_append_stop hspan hstop]
  rw [if_neg (by simp)]

/-- For every table, every word and every text behind it: `parse_command` calls a handler
exactly when one name in the table begins with the word, and then the handler of that entry,
once, with the text behind the word, and returns what it returns; with more names or none it
calls nothing and returns `CMD_ERROR`. The order of the table does not matter. -/
theorem parseCommandIn_dispatch (cmd_table : List (CommandEntry (CStr → Cmd Unit)))
    {blanks w rest : CStr} (hblanks : ∀ c ∈ blanks, c ∈ whitespace) (hw : w ≠ [])
    (hword : ∀ c ∈ w, c ∉ whitespace ∧ c ≠ nul)
    (hrest : ∀ c, rest.head? = some c → c ∈ whitespace) :
    let cmdline := blanks ++ (w ++ rest)
    let found := cmd_table.filter (CommandEntry.matches w)
    ((∃ c args, dispatchLine cmd_table cmdline = some (.call c args)) ↔ found.length = 1) ∧
    (∀ c, found = [c] → dispatchLine cmd_table cmdline = some (.call c rest.tail) ∧
      parseCommandIn cmd_table cmdline = c.call rest.tail ∧
      ∀ world s, (parseCommandIn cmd_table cmdline world s).flow =
        (c.cmdFunc rest.tail world { s with cmdName := c.cmdName }).flow) ∧
    (2 ≤ found.length → dispatchLine cmd_table cmdline = some (.ambiguous w) ∧
      ∀ world s, parseCommandIn cmd_table cmdline world s =
        ⟨.stop (.ret .error), s, [.ambiguous w]⟩) ∧
    (found = [] → dispatchLine cmd_table cmdline = some (.unrecognized w) ∧
      ∀ world s, parseCommandIn cmd_table cmdline world s =
        ⟨.stop (.ret .error), s, [.unrecognized w]⟩) ∧
    ∀ cmd_table', cmd_table'.Perm cmd_table →
      parseCommandIn cmd_table' cmdline = parseCommandIn cmd_table cmdline := by
  intro cmdline found
  have htok := strtokR_word hblanks hw (fun c hc => (hword c hc).1) hrest
  have hnul : nul ∉ w := fun hc => (hword nul hc).2 rfl
  have hline : ∀ table : List (CommandEntry (CStr → Cmd Unit)), dispatchLine table cmdline =
      some (byCount w rest.tail (table.filter (CommandEntry.matches w))) := by
    intro table
    rw [dispatchLine, htok]
    exact congrArg some (searchTable_eq hnul rest.tail table)
  have hparse : ∀ table : List (CommandEntry (CStr → Cmd Unit)), parseCommandIn table cmdline =
      (byCount w rest.tail (table.filter (CommandEntry.matches w))).run := by
    intro table
    rw [parseCommandIn, hline]
  refine ⟨?_, ?_, ?_, ?_, ?_⟩
  · rw [hline]
    show _ ↔ found.length = 1
    rcases hfound : cmd_table.filter (CommandEntry.matches w) with _ | ⟨c, _ | ⟨c', l⟩⟩ <;>
      simp [found, hfound, byCount]
  · intro c hc
    have hcall := hparse cmd_table
    rw [show cmd_table.filter (CommandEntry.matches w) = [c] from hc] at hcall
    refine ⟨by rw [hline, show cmd_table.filter (CommandEntry.matches w) = [c] from hc]; rfl, hcall, ?_⟩
    intro world s
    rw [hcall]
    show (c.call rest.tail world s).flow = _
    unfold CommandEntry.call
    split <;> simp [*]
  · intro hmany
    have hambiguous : byCount w rest.tail found = .ambiguous w := by
      rcases found with _ | ⟨c, _ | ⟨c', l⟩⟩
      · simp at hmany
      · simp at hmany
      · rfl
    rw [hline, hparse]
    refine ⟨congrArg some hambiguous, fun world s => ?_⟩
    show (byCount w rest.tail found).run world s = _
    rw [hambiguous]
    rfl
  · intro hnone
    rw [hline, hparse, show cmd_table.filter (CommandEntry.matches w) = [] from hnone]
    exact ⟨rfl, fun _ _ => rfl⟩
  · intro cmd_table' hperm
    rw [hparse, hparse, byCount_perm (hperm.filter _)]

/-- `sh a`: the word begins `show` and `shmem`. -/
theorem parseCommandIn_dispatch_sh :
    parseCommandIn cmdEntries "sh a".toList sampleWorld sampleShell =
      ⟨.stop (.ret .error), sampleShell, [.ambiguous "sh".toList]⟩ := by
  have hmany := (@parseCommandIn_dispatch cmdEntries [] "sh".toList " a".toList
    (by simp) (by decide) (forall_mem_of_all rfl)
    (by intro c hc; cases hc; decide)).2.2.1
  exact (hmany (by decide)).2 sampleWorld sampleShell

end Memtoy
