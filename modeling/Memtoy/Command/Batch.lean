import Memtoy.Command.Slips

/-!
# Command.Batch — a non-interactive run

`parse_command` and the passes of `process_commands` over a stream of lines, as a
transition spec whose steps are lines read. The law is the one of the usage text: "In
batch mode, any error will cause memtoy to exit with non-zero status."
-/

namespace Memtoy

open CString Cmd

/-! ## `parse_command` -/

/-- `unique_abbrev()`: no entry further on begins with it as well. -/
def uniqueAbbrev (cmd : CStr) (table : List (CStr × CmdFunc)) : Bool :=
  table.all fun c => ¬ strncmpEq cmd c.1 cmd.length

/-- How the search of `parse_command` ends. -/
inductive Found where
  | command (name : CStr) (f : CmdFunc)
  | ambiguous
  | unrecognized
deriving DecidableEq, Repr

/-- The `for` loop of `parse_command`. -/
def findCommand (cmd : CStr) : List (CStr × CmdFunc) → Found
  | [] => .unrecognized
  | (name, f) :: table =>
      if ¬ strncmpEq cmd name cmd.length then findCommand cmd table
      else if ¬ uniqueAbbrev cmd table then .ambiguous
      else .command name f

/-- `gcp->cmd_name = name; ret = cmdp->cmd_func(args); gcp->cmd_name = NULL;` -/
def callCommand (name : CStr) (f : CmdFunc) (args : CStr) : Cmd Unit := do
  let s ← shell
  setShell { s with cmdName := name }
  f.run args
  let s ← shell
  setShell { s with cmdName := [] }

/-- `parse_command()` -/
def parseCommand (cmdline : CStr) : Cmd Unit :=
  match strtokR whitespace (skipBlanks cmdline) with
  | (none, _) => stop .crash
  | (some cmd, args) =>
      match findCommand cmd cmdTable with
      | .command name f => callCommand name f args
      | .ambiguous => do
          complain [.ambiguous cmd]
          cmdError
      | .unrecognized => do
          complain [.unrecognized cmd]
          cmdError

/-! ## A pass of the loop -/

/-- What memtoy does after a line: it reads the next one; it exits; it acts on a value
that has not been set; it is killed by a signal; or it never gets there. -/
inductive After where
  | reads (s : Shell)
  | exits (status : Nat)
  | unspecified
  | killed
  | never

/-- `if (parse_command(cmdline) == CMD_ERROR) { ...; exit(4); }` -/
def Ending.after (s : Shell) : Ending → After
  | .ret .success => .reads s
  | .ret .error => .exits 4
  | .garbage => .unspecified
  | .exit status => .exits status
  | .crash => .killed
  | .hangs => .never

/-- A pass: what it complained about, how the handler ended, if one was called, and what
follows. -/
structure Pass where
  complaints : List Complaint
  ending : Option Ending
  after : After

/-- The pass of a command line. -/
def commandPass (m : Cmd Unit) (w : World) (s : Shell) : Pass :=
  match m w s with
  | ⟨.next _, s, cs⟩ => ⟨cs, some (.ret .success), .reads s⟩
  | ⟨.stop e, s, cs⟩ => ⟨cs, some e, e.after s⟩

/-- What goes wrong when a line is forwarded. -/
def Sent.complaints (w : World) : Sent → List Complaint
  | .listed => []
  | .noChild name => [.noChild "send".toList name]
  | .wrote childp _ => if w.writeOk then [] else [.writeFailed childp.cName]

/-- The children the SIGCLD handler has left. -/
def World.reap (w : World) (s : Shell) : Shell :=
  { s with children := s.children.filter (·.cPid ∉ w.reaped) }

/-- A pass of the loop of `process_commands`, not interactive. -/
def batchPass (w : World) (line : CStr) (s : Shell) : Pass :=
  let s := w.reap s
  match processLine s.children (cmdBuffer line) with
  | .blank | .comment => ⟨[], none, .reads s⟩
  | .forward sent =>
      if w.sigquit then ⟨[], none, .exits 0⟩
      -- the result of `child_send` is not looked at
      else ⟨sent.complaints w, none, .reads s⟩
  | .command cmdline =>
      if w.sigquit then ⟨[], none, .exits 0⟩ else commandPass (parseCommand cmdline) w s

/-- The messages of a pass on standard error, without the help texts and those of the
segment layer. -/
def Pass.stderr (program err : String) (p : Pass) : List String :=
  p.complaints.map (Complaint.text program err) ++
    if p.ending = some (.ret .error) then [s!"{program}:  command error\n"] else []

/-- The law for one pass. -/
def Pass.ErrorLaw (p : Pass) : Prop :=
  (p.complaints ≠ [] → p.ending = some (.ret .error) ∧ ∃ status ≠ 0, p.after = .exits status) ∧
    ∀ e, p.ending = some e → e.Definite

/-! ## When a line is not reported -/

/-- The line calls a command. -/
def Dispatches (cmdline name : CStr) (f : CmdFunc) (args : CStr) : Prop :=
  ∃ cmd, strtokR whitespace (skipBlanks cmdline) = (some cmd, args) ∧
    findCommand cmd cmdTable = .command name f

/-- A command slips, or a line is not forwarded. -/
inductive LineSlips (w : World) (line : CStr) (s : Shell) : Prop where
  | command {cmdline name args : CStr} {f : CmdFunc} : w.sigquit = false →
      processLine (w.reap s).children (cmdBuffer line) = .command cmdline →
      Dispatches cmdline name f args → Slips w { w.reap s with cmdName := name } f args →
      LineSlips w line s
  | noChild {name : CStr} : w.sigquit = false →
      processLine (w.reap s).children (cmdBuffer line) = .forward (.noChild name) →
      LineSlips w line s
  | notWritten {childp : Child} {bytes : List Char} : w.sigquit = false → w.writeOk = false →
      processLine (w.reap s).children (cmdBuffer line) = .forward (.wrote childp bytes) →
      LineSlips w line s

/-! ## One pass -/

section Pass

variable {w : World} {s : Shell}

/-- A pass that complains about nothing and calls no handler. -/
theorem errorLaw_silent (after : After) : Pass.ErrorLaw ⟨[], none, after⟩ :=
  ⟨fun hne => absurd rfl hne, fun _ he => by cases he⟩

theorem errorLaw_commandPass (m : Cmd Unit) : (commandPass m w s).ErrorLaw ↔ Sound m w s := by
  unfold Sound Reports commandPass Pass.ErrorLaw
  rcases m w s with ⟨_ | e, s', cs⟩
  · simp only [List.nil_append, clean_iff]
    constructor
    · rintro ⟨hlaw, -⟩
      by_contra hne
      cases (hlaw hne).1
    · rintro rfl
      refine ⟨fun hne => absurd rfl hne, ?_⟩
      rintro e he
      cases he
      exact Or.inl rfl
  · simp only [List.nil_append]
    constructor
    · rintro ⟨hlaw, hdef⟩
      refine ⟨hdef e rfl, fun hne => ?_⟩
      have hend := (hlaw hne).1
      cases hend
      rfl
    · rintro ⟨hdef, herr⟩
      refine ⟨fun hne => ?_, ?_⟩
      · rw [herr hne]
        exact ⟨rfl, 4, by decide, rfl⟩
      · rintro e' he
        cases he
        exact hdef

/-- The name of the command stands in the context while its handler runs. -/
theorem sound_callCommand (name : CStr) (f : CmdFunc) (args : CStr) :
    Sound (callCommand name f args) w s ↔ ¬ Slips w { s with cmdName := name } f args := by
  rw [← sound_iff]
  simp only [Sound, callCommand, reports_bind, reports_shell, reports_setShell, clean_iff]
  exact Iff.rfl

/-- Names that are no command's, or more than one's, are reported. -/
theorem sound_parseCommand {c : Char} {cmdline : CStr} (hc : c ∉ whitespace) :
    Sound (parseCommand (c :: cmdline)) w s ↔
      ¬ ∃ name f args, Dispatches (c :: cmdline) name f args ∧
        Slips w { s with cmdName := name } f args := by
  have hskip : skipBlanks (c :: cmdline) = c :: cmdline := by simp [skipBlanks, skipSpan, hc]
  have htok := strtokR_some (s := cmdline) hc
  unfold parseCommand Dispatches
  rw [hskip]
  generalize strtokR whitespace (c :: cmdline) = r at htok ⊢
  obtain ⟨o, rest⟩ := r
  subst htok
  simp only
  generalize (c :: cmdline).takeWhile (· ∉ whitespace) = cmd
  -- the words of the line decide on the entry of the table
  have hfinds : ∀ {name f args}, (∃ cmd', (some cmd, rest) = (some cmd', args) ∧
      findCommand cmd' cmdTable = .command name f) →
      args = rest ∧ findCommand cmd cmdTable = .command name f := by
    rintro name f args ⟨cmd', heq, hfound⟩
    cases heq
    exact ⟨rfl, hfound⟩
  cases hfound : findCommand cmd cmdTable with
  | command name f =>
      simp only [sound_callCommand]
      constructor
      · rintro hno ⟨name', f', args', hdisp, hslips⟩
        obtain ⟨rfl, heq⟩ := hfinds hdisp
        rw [hfound] at heq
        cases heq
        exact hno hslips
      · intro hno hslips
        exact hno ⟨name, f, rest, ⟨cmd, rfl, hfound⟩, hslips⟩
  | ambiguous =>
      refine ⟨?_, fun _ => by simp [Sound]⟩
      rintro - ⟨name', f', args', hdisp, -⟩
      rw [hfound] at hfinds
      cases (hfinds hdisp).2
  | unrecognized =>
      refine ⟨?_, fun _ => by simp [Sound]⟩
      rintro - ⟨name', f', args', hdisp, -⟩
      rw [hfound] at hfinds
      cases (hfinds hdisp).2

/-- Where no handler is called, there must be nothing to complain about. -/
theorem errorLaw_uncalled {cs : List Complaint} {after : After} :
    Pass.ErrorLaw ⟨cs, none, after⟩ ↔ cs = [] := by
  constructor
  · rintro ⟨h, -⟩
    by_contra hne
    cases (h hne).1
  · rintro rfl
    exact errorLaw_silent after

/-! When a line slips, by what the loop makes of it. -/

theorem not_lineSlips_of_sigquit (hquit : w.sigquit = true) (line : CStr) : ¬ LineSlips w line s := by
  rintro (⟨hc, -⟩ | ⟨hc, -⟩ | ⟨hc, -⟩) <;> simp [hquit] at hc

theorem not_lineSlips_of_ignored {line : CStr}
    (hline : processLine (w.reap s).children (cmdBuffer line) = .blank ∨
      processLine (w.reap s).children (cmdBuffer line) = .comment) : ¬ LineSlips w line s := by
  rcases hline with hline | hline <;>
    rintro (⟨-, hc, -⟩ | ⟨-, hc⟩ | ⟨-, -, hc⟩) <;> simp [hline] at hc

theorem lineSlips_forward {line : CStr} {sent : Sent} (hquit : w.sigquit = false)
    (hline : processLine (w.reap s).children (cmdBuffer line) = .forward sent) :
    LineSlips w line s ↔ sent.complaints w ≠ [] := by
  constructor
  · rintro (⟨-, hc, -⟩ | ⟨-, hc⟩ | ⟨-, hwrite, hc⟩)
    · rw [hline] at hc
      cases hc
    · rw [hline] at hc
      cases hc
      simp [Sent.complaints]
    · rw [hline] at hc
      cases hc
      simp [Sent.complaints, hwrite]
  · intro hne
    cases sent with
    | listed => exact absurd rfl hne
    | noChild name => exact .noChild hquit hline
    | wrote childp bytes =>
        cases hwrite : w.writeOk with
        | true => simp [Sent.complaints, hwrite] at hne
        | false => exact .notWritten hquit hwrite hline

theorem lineSlips_command {line cmdline : CStr} (hquit : w.sigquit = false)
    (hline : processLine (w.reap s).children (cmdBuffer line) = .command cmdline) :
    LineSlips w line s ↔ ∃ name f args, Dispatches cmdline name f args ∧
      Slips w { w.reap s with cmdName := name } f args := by
  constructor
  · rintro (⟨-, hc, hdisp, hslips⟩ | ⟨-, hc⟩ | ⟨-, -, hc⟩)
    · rw [hline] at hc
      cases hc
      exact ⟨_, _, _, hdisp, hslips⟩
    · simp [hline] at hc
    · simp [hline] at hc
  · rintro ⟨name, f, args, hdisp, hslips⟩
    exact .command hquit hline hdisp hslips

/-- A pass keeps the law exactly when its line does not slip. -/
theorem errorLaw_iff (line : CStr) : (batchPass w line s).ErrorLaw ↔ ¬ LineSlips w line s := by
  simp only [batchPass]
  cases hline : processLine (w.reap s).children (cmdBuffer line) with
  | blank => exact iff_of_true (errorLaw_silent _) (not_lineSlips_of_ignored (Or.inl hline))
  | comment => exact iff_of_true (errorLaw_silent _) (not_lineSlips_of_ignored (Or.inr hline))
  | forward sent =>
      cases hquit : w.sigquit with
      | true => exact iff_of_true (errorLaw_silent _) (not_lineSlips_of_sigquit hquit line)
      | false =>
          simp only [Bool.false_eq_true, if_false]
          rw [errorLaw_uncalled, lineSlips_forward hquit hline, not_not]
  | command cmdline =>
      cases hquit : w.sigquit with
      | true => exact iff_of_true (errorLaw_silent _) (not_lineSlips_of_sigquit hquit line)
      | false =>
          simp only [Bool.false_eq_true, if_false]
          obtain ⟨c, rest, rfl, hblank⟩ := processLine_command hline
          rw [errorLaw_commandPass, sound_parseCommand hblank, lineSlips_command hquit hline]

end Pass

/-! ## A run -/

/-- A line read: what the world does during its pass, and the state before it. -/
structure Visit where
  w : World
  line : CStr
  shell : Shell

def Visit.pass (v : Visit) : Pass := batchPass v.w v.line v.shell

/-- A non-interactive run: what is left of standard input, what memtoy does next, and
the lines it has read. -/
structure Batch where
  stream : List Char
  next : After
  visits : List Visit

/-- A turn of the loop: a line is read and acted on, or `readline_ni` finds the end of
the file and exits. -/
inductive BatchStep : Batch → Batch → Prop where
  | line {b : Batch} {s : Shell} {line : CStr} {rest : List Char} (w : World) :
      b.next = .reads s → readlineNi b.stream = some (line, rest) →
      BatchStep b ⟨rest, (batchPass w line s).after, b.visits ++ [⟨w, line, s⟩]⟩
  | eof {b : Batch} {s : Shell} : b.next = .reads s → readlineNi b.stream = none →
      BatchStep b { b with next := .exits 0 }

/-- From any state of the context, on any input, and whatever the world does. -/
def batchSpec : Trans.Spec Batch where
  Init := fun b => b.visits = [] ∧ ∃ s, b.next = .reads s
  Next := BatchStep

/-- The error law of a run: when a line read has failed, its handler has returned
`CMD_ERROR`, no line was read after it, and memtoy exits with non-zero status; and
every handler called has ended in a definite way. -/
def BatchLaw (b : Batch) : Prop :=
  ∀ before v later, b.visits = before ++ v :: later →
    (v.pass.complaints ≠ [] → v.pass.ending = some (.ret .error) ∧ later = [] ∧
      ∃ status ≠ 0, b.next = .exits status) ∧
    ∀ e, v.pass.ending = some e → e.Definite

/-- Lines are read one after the other, and what memtoy does next is up to the last one
or to the end of the file. -/
def Chained (b : Batch) : Prop :=
  ∀ before v later, b.visits = before ++ v :: later →
    if later = [] then
      b.next = v.pass.after ∨ ((∃ s, v.pass.after = .reads s) ∧ b.next = .exits 0)
    else ∃ s, v.pass.after = .reads s

theorem reachable_chained {b : Batch} (h : batchSpec.Reachable b) : Chained b := by
  refine Trans.Spec.invariant Chained ?_ ?_ h
  · rintro b ⟨hnil, -⟩ before v later hsplit
    simp [hnil] at hsplit
  · rintro b b' hstep hb
    cases hstep with
    | @line s line rest w hnext hread =>
        intro before v later hsplit
        rcases List.eq_nil_or_concat later with rfl | ⟨later', last, rfl⟩
        · -- the line just read
          rw [if_pos rfl]
          obtain ⟨-, hlast⟩ := List.append_inj' hsplit rfl
          cases hlast
          exact Or.inl rfl
        · have hold : b.visits = before ++ v :: later' := by
            rw [List.concat_eq_append, ← List.cons_append, ← List.append_assoc] at hsplit
            exact (List.append_inj' hsplit rfl).1
          have hprev := hb before v later' hold
          rw [if_neg (by simp)]
          split at hprev
          · rcases hprev with hafter | ⟨hreads, -⟩
            · exact ⟨s, hafter.symm.trans hnext⟩
            · exact hreads
          · exact hprev
    | @eof s hnext hread =>
        intro before v later hsplit
        have hold := hb before v later hsplit
        split at hold
        · next hlast =>
          rw [if_pos hlast]
          refine Or.inr ⟨?_, rfl⟩
          rcases hold with hafter | ⟨hreads, -⟩
          · exact ⟨s, hafter.symm.trans hnext⟩
          · exact hreads
        · next hlast =>
          rw [if_neg hlast]
          exact hold

/-- The law of a run is the law of its passes. -/
theorem batchLaw_iff {b : Batch} (h : batchSpec.Reachable b) :
    BatchLaw b ↔ ∀ v ∈ b.visits, v.pass.ErrorLaw := by
  have hchain := reachable_chained h
  constructor
  · intro hlaw v hv
    obtain ⟨before, later, hsplit⟩ := List.append_of_mem hv
    obtain ⟨herr, hdef⟩ := hlaw before v later hsplit
    refine ⟨fun hne => ?_, hdef⟩
    obtain ⟨hend, hlast, status, hstatus, hexits⟩ := herr hne
    refine ⟨hend, status, hstatus, ?_⟩
    have hnext := hchain before v later hsplit
    rw [if_pos hlast] at hnext
    rcases hnext with hafter | ⟨-, heof⟩
    · exact hafter.symm.trans hexits
    · rw [heof] at hexits
      cases hexits
      exact absurd rfl hstatus
  · intro hall before v later hsplit
    have hv : v ∈ b.visits := by
      rw [hsplit]
      exact List.mem_append_right _ List.mem_cons_self
    obtain ⟨herr, hdef⟩ := hall v hv
    refine ⟨fun hne => ?_, hdef⟩
    obtain ⟨hend, status, hstatus, hexits⟩ := herr hne
    have hnext := hchain before v later hsplit
    split at hnext
    · next hlast =>
      refine ⟨hend, hlast, status, hstatus, ?_⟩
      rcases hnext with hafter | ⟨⟨s, hreads⟩, -⟩
      · exact hafter.trans hexits
      · rw [hexits] at hreads
        cases hreads
    · obtain ⟨s, hreads⟩ := hnext
      rw [hexits] at hreads
      cases hreads

/-- The state after the first line of a script. -/
def afterLine (line rest : CStr) : Batch :=
  ⟨rest, (batchPass sampleWorld line sampleShell).after, [⟨sampleWorld, line, sampleShell⟩]⟩

theorem afterLine_reachable {script line rest : CStr} (h : readlineNi script = some (line, rest)) :
    batchSpec.Reachable (afterLine line rest) := by
  have hinit : batchSpec.Reachable ⟨script, .reads sampleShell, []⟩ :=
    .init ⟨rfl, sampleShell, rfl⟩
  exact hinit.step (.line sampleWorld rfl h)

theorem afterLine_breaks {line : CStr} (hread : readlineNi (line ++ ['\n']) = some (line, []))
    (hcomplains : (batchPass sampleWorld line sampleShell).complaints ≠ [])
    (hending : (batchPass sampleWorld line sampleShell).ending ≠ some (.ret .error)) :
    batchSpec.Reachable (afterLine line []) ∧ ¬ BatchLaw (afterLine line []) := by
  have hreach := afterLine_reachable hread
  refine ⟨hreach, fun hlaw => ?_⟩
  obtain ⟨herr, -⟩ := (batchLaw_iff hreach).mp hlaw _ List.mem_cons_self
  exact hending (herr hcomplains).1

end Memtoy
