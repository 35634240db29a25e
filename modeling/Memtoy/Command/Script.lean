import Memtoy.Command.Meaning
import Mathlib.Logic.Relation

/-!
# Command.Script — running a script

A script is a list of statements with comments and blank lines between them. `script_runs`
follows a non-interactive run through the text of a script: whatever the kernel answers and
whichever signals come, the lines read are the first ones, each has done what it means in
the state the one before has left, and memtoy stops where a statement makes it.
-/

namespace Memtoy

open CString Cmd Relation

/-! ## Lines -/

inductive ScriptLine where
  | ignored
  | does (stmt : Stmt)
deriving DecidableEq, Repr

/-- A blank line, a comment, or the words of a statement. -/
def ScriptLine.SpelledBy : ScriptLine → CStr → Prop
  | .ignored, line => fromText line = [] ∨ (fromText line).head? = some '#'
  | .does stmt, line => stmt.SpelledBy line

def ScriptLine.Fits (pagesize : Word) (numaMaxNode : Int) : ScriptLine → Prop
  | .ignored => True
  | .does stmt => stmt.Fits pagesize numaMaxNode

def ScriptLine.pass : ScriptLine → World → Shell → Pass
  | .ignored, w, s => ⟨[], none, .reads (w.reap s)⟩
  | .does stmt, w, s => stmt.pass w s

variable {w : World} {s s' : Shell}

theorem batchPass_ignored {line : CStr} (h : ScriptLine.ignored.SpelledBy line) (hnul : nul ∉ line)
    (hlen : line.length < cmdbufsz) : batchPass w line s = ScriptLine.ignored.pass w s := by
  obtain ⟨beyond, hbuf⟩ := cmdBuffer_eq hlen
  obtain ⟨hfirst, hspn, hfrom⟩ := line_start hnul beyond
  have hline : processLine (w.reap s).children (cmdBuffer line) = .blank ∨
      processLine (w.reap s).children (cmdBuffer line) = .comment := by
    rw [hbuf]
    simp only [processLine, hspn, hfrom.str, hfrom.byte]
    rcases h with hblank | hcomment
    · left
      simp [hblank]
    · rcases List.head?_eq_some_iff.mp hcomment with ⟨t, ht⟩
      by_cases hnot : byteAt (line ++ nul :: beyond) 0 = nul
      · exact .inl (if_pos hnot)
      · right
        simp [hnot, ht]
  rw [batchPass]
  rcases hline with hline | hline
  · simp only [hline]
    rfl
  · simp only [hline]
    rfl

theorem batchPass_line {l : ScriptLine} {line : CStr} (h : l.SpelledBy line) (hnul : nul ∉ line)
    (hlen : line.length < cmdbufsz) (hfits : l.Fits s.table.g.pagesize s.numaMaxNode) :
    batchPass w line s = l.pass w s := by
  cases l with
  | ignored => exact batchPass_ignored h hnul hlen
  | does stmt => exact batchPass_spelled h hnul hlen hfits

/-! ## What statements leave as it is -/

/-- The numbers in a script mean the same. -/
structure SameUnits (s s' : Shell) : Prop where
  pagesize : s'.table.g.pagesize = s.table.g.pagesize
  numaMaxNode : s'.numaMaxNode = s.numaMaxNode

theorem SameUnits.refl (s : Shell) : SameUnits s s := ⟨rfl, rfl⟩

theorem SameUnits.trans {s s' s'' : Shell} (h : SameUnits s s') (h' : SameUnits s' s'') :
    SameUnits s s'' :=
  ⟨h'.pagesize.trans h.pagesize, h'.numaMaxNode.trans h.numaMaxNode⟩

/-- However `m` ends, the units are the same. -/
def KeepsUnits {α : Type} (m : Cmd α) : Prop := ∀ w s, Yields m w s fun _ s' => SameUnits s s'

section KeepsUnits

variable {α β : Type}

theorem keepsUnits_bind {m : Cmd α} {f : α → Cmd β} (hm : KeepsUnits m)
    (hf : ∀ a, KeepsUnits (f a)) : KeepsUnits (m >>= f) := by
  intro w s
  rw [yields_bind]
  have hfirst := hm w s
  unfold Yields at hfirst ⊢
  cases (m w s).flow with
  | next a => exact hfirst.trans (hf a w (m w s).shell)
  | stop e => exact hfirst

theorem keepsUnits_next (a : α) : KeepsUnits (next a) := fun _ s => .refl s

theorem keepsUnits_stop (e : Ending) : KeepsUnits (stop e : Cmd α) := fun _ s => .refl s

theorem keepsUnits_world : KeepsUnits world := fun _ s => .refl s

theorem keepsUnits_shell : KeepsUnits shell := fun _ s => .refl s

theorem keepsUnits_complain (cs : List Complaint) : KeepsUnits (complain cs) := fun _ s => .refl s

theorem sameUnits_exec (s : Shell) (op : Op) (hok : op.Ok) :
    SameUnits s { s with table := s.table.exec op hok } :=
  ⟨op.exec_pagesize hok (reachable_repInv s.table.reachable), rfl⟩

theorem keepsUnits_callSegment (op : Op) (hok : op.Ok) : KeepsUnits (callSegment op hok) := by
  intro w s
  have hexec := sameUnits_exec s op hok
  simp [hexec]

theorem keepsUnits_segment (op : Op) (hok : op.Ok) : KeepsUnits (segment op hok) := by
  refine keepsUnits_bind (keepsUnits_callSegment op hok) fun ok => ?_
  cases ok with
  | true => exact keepsUnits_next ()
  | false => exact keepsUnits_stop _

theorem keepsUnits_placeAnon : ∀ options range flags, KeepsUnits (placeAnon options range flags)
  | [], _, _ => keepsUnits_next _
  | .sharing how :: options, range, _ => keepsUnits_placeAnon options range how.flags
  | .addr _ :: options, _, flags => keepsUnits_placeAnon options _ flags
  | .offset segname :: options, range, flags => by
      have hget : KeepsUnits (callSegmentRange segname) :=
        fun _ s => sameUnits_exec s (.get segname) (Op.ok_get segname)
      refine keepsUnits_bind hget fun found => ?_
      cases found with
      | none => exact keepsUnits_bind (keepsUnits_complain _) fun _ => keepsUnits_stop _
      | some before => exact keepsUnits_placeAnon options _ flags

theorem keepsUnits_removeEach : ∀ segnames, KeepsUnits (removeEach segnames)
  | [] => keepsUnits_next _
  | segname :: segnames =>
      keepsUnits_bind (keepsUnits_segment (.remove segname) _) fun _ =>
        keepsUnits_removeEach segnames

theorem keepsUnits_perform (stmt : Stmt) : KeepsUnits stmt.perform := by
  -- the call of the API, behind what was read of the shell and of the world
  have hcall : ∀ f : Shell → World → Cmd Unit, (∀ s w, KeepsUnits (f s w)) →
      KeepsUnits (shell >>= fun s => world >>= f s) := fun f hf =>
    keepsUnits_bind keepsUnits_shell fun s => keepsUnits_bind keepsUnits_world (hf s)
  have hcall' : ∀ f : World → Cmd Unit, (∀ w, KeepsUnits (f w)) → KeepsUnits (world >>= f) :=
    fun f hf => keepsUnits_bind keepsUnits_world hf
  cases stmt with
  | quit => exact keepsUnits_stop _
  | «show» name =>
      cases name with
      | none => exact keepsUnits_next ()
      | some segname => exact keepsUnits_segment _ _
  | anon segname size options =>
      exact hcall _ fun s w => keepsUnits_bind (keepsUnits_placeAnon _ _ _) fun r =>
        keepsUnits_segment _ _
  | file => exact hcall _ fun s w => keepsUnits_segment _ _
  | shmem => exact hcall _ fun s w => keepsUnits_segment _ _
  | remove segname segnames => exact keepsUnits_removeEach _
  | map => exact hcall _ fun s w => keepsUnits_segment _ _
  | unmap segname => exact keepsUnits_segment _ _
  | lock => exact hcall _ fun s w => keepsUnits_segment _ _
  | unlock => exact hcall _ fun s w => keepsUnits_segment _ _
  | shmLock => exact hcall' _ fun w => keepsUnits_segment _ _
  | shmUnlock => exact hcall' _ fun w => keepsUnits_segment _ _
  | touch => exact hcall _ fun s w => keepsUnits_segment _ _
  | mbind => exact hcall _ fun s w => keepsUnits_segment _ _
  | location => exact hcall _ fun s w => keepsUnits_segment _ _
  | mprotect =>
      exact hcall' _ fun w => keepsUnits_bind (keepsUnits_callSegment _ _) fun _ =>
        keepsUnits_next ()

theorem keepsUnits_command (stmt : Stmt) : KeepsUnits stmt.command := by
  have hname : ∀ name : CStr, ∀ f : Unit → Cmd Unit, (∀ u, KeepsUnits (f u)) →
      KeepsUnits (shell >>= fun s => setShell { s with cmdName := name } >>= f) := by
    intro name f hf w s
    exact (show SameUnits s { s with cmdName := name } from ⟨rfl, rfl⟩).trans (hf () w _)
  exact hname _ _ fun _ => keepsUnits_bind (keepsUnits_perform stmt) fun _ => fun w s => ⟨rfl, rfl⟩

end KeepsUnits

/-- The lines that follow mean what they meant before. -/
theorem sameUnits_of_reads {l : ScriptLine} (h : (l.pass w s).after = .reads s') :
    SameUnits s s' := by
  cases l with
  | ignored =>
      cases h
      exact ⟨rfl, rfl⟩
  | does stmt =>
      simp only [ScriptLine.pass, Stmt.pass] at h
      split at h
      · cases h
      · have hkeeps := keepsUnits_command stmt w (w.reap s)
        unfold Yields at hkeeps
        unfold commandPass at h
        rcases hm : stmt.command w (w.reap s) with ⟨a | e, s₁, cs⟩
        · rw [hm] at h hkeeps
          cases h
          exact ⟨hkeeps.pagesize, hkeeps.numaMaxNode⟩
        · rw [hm] at h hkeeps
          -- only a return goes on to the next line
          rcases e with ⟨_ | _⟩ | _ | _ | _ | _
          · cases h
            exact ⟨hkeeps.pagesize, hkeeps.numaMaxNode⟩
          all_goals cases h

/-! ## A script -/

/-- What memtoy does after the first lines of a script, each in the world of its pass. -/
def runScript : List (World × ScriptLine) → Shell → After
  | [], s => .reads s
  | (w, l) :: lines, s =>
      match (l.pass w s).after with
      | .reads s => runScript lines s
      | after => after

theorem runScript_append (lines : List (World × ScriptLine)) (w : World) (l : ScriptLine) :
    ∀ {s s' : Shell}, runScript lines s = .reads s' →
      runScript (lines ++ [(w, l)]) s = (l.pass w s').after := by
  induction lines with
  | nil =>
      intro s s' h
      cases h
      simp only [List.nil_append, runScript]
      cases (l.pass w s).after <;> rfl
  | cons first lines ih =>
      rcases first with ⟨w₁, l₁⟩
      intro s s' h
      simp only [List.cons_append, runScript] at h ⊢
      cases hfirst : (l₁.pass w₁ s).after with
      | reads s₁ =>
          simp only [hfirst] at h
          exact ih h
      | exits status => simp [hfirst] at h
      | unspecified => simp [hfirst] at h
      | killed => simp [hfirst] at h
      | never => simp [hfirst] at h

theorem sameUnits_of_runScript (lines : List (World × ScriptLine)) :
    ∀ {s s' : Shell}, runScript lines s = .reads s' → SameUnits s s' := by
  induction lines with
  | nil =>
      intro s s' h
      cases h
      exact .refl s
  | cons first lines ih =>
      rcases first with ⟨w, l⟩
      intro s s' h
      simp only [runScript] at h
      cases hfirst : (l.pass w s).after with
      | reads s₁ =>
          simp only [hfirst] at h
          exact (sameUnits_of_reads hfirst).trans (ih h)
      | exits status => simp [hfirst] at h
      | unspecified => simp [hfirst] at h
      | killed => simp [hfirst] at h
      | never => simp [hfirst] at h

/-- How far a run has come in a script: the lines read, which are `done`, and those to come. -/
structure ScriptAt (lines : List CStr) (script : List ScriptLine) (s : Shell) (b : Batch)
    (done todo : List ScriptLine) (rest : List CStr) : Prop where
  script_eq : script = done ++ todo
  /-- No line is left out, cut or read twice. -/
  lines_eq : lines = b.visits.map Visit.line ++ rest
  stream_eq : b.stream = streamOf rest
  todo_spelled : List.Forall₂ ScriptLine.SpelledBy todo rest
  /-- Each line has done what it means, with the messages and the calls of the statement. -/
  passes : List.Forall₂ (fun v l => v.pass = l.pass v.w v.shell) b.visits done
  /-- What comes next is what they lead to, or the end of the file. -/
  next_eq : b.next = runScript ((b.visits.map Visit.w).zip done) s ∨
    rest = [] ∧ (∃ s', runScript ((b.visits.map Visit.w).zip done) s = .reads s') ∧
      b.next = .exits 0

/-- At the end of the file memtoy exits. -/
def After.atEof : After → After
  | .reads _ => .exits 0
  | after => after

section Script

variable {lines rest : List CStr} {script done todo : List ScriptLine} {b b' : Batch}

/-- The lines of a script as the run needs them. -/
structure ScriptText (lines : List CStr) (script : List ScriptLine) (s : Shell) : Prop where
  spelled : List.Forall₂ ScriptLine.SpelledBy script lines
  /-- The text is without NULs and its lines are not cut. -/
  plain : ∀ line ∈ lines, PlainLine line ∧ line.length ≤ maxLine
  fits : ∀ l ∈ script, l.Fits s.table.g.pagesize s.numaMaxNode

/-- The first line of a text is read whole and does what it means. -/
theorem ScriptText.first {l : ScriptLine} {line : CStr}
    (h : ScriptText (line :: lines) (l :: script) s) (hunits : SameUnits s s') :
    readlineNi (streamOf (line :: lines)) = some (line, streamOf lines) ∧
      ∀ w, batchPass w line s' = l.pass w s' := by
  rcases h.plain line List.mem_cons_self with ⟨⟨hnl, hnul⟩, hlen⟩
  rw [streamOf_cons]
  refine ⟨readlineNi_fits hnl hnul hlen _, fun w => ?_⟩
  refine batchPass_line (List.forall₂_cons.mp h.spelled).1 hnul
    (Nat.lt_of_le_of_lt hlen (by decide)) ?_
  rw [hunits.pagesize, hunits.numaMaxNode]
  exact h.fits l List.mem_cons_self

theorem ScriptText.tail {l : ScriptLine} {line : CStr}
    (h : ScriptText (line :: lines) (l :: script) s) (hunits : SameUnits s s') :
    ScriptText lines script s' where
  spelled := (List.forall₂_cons.mp h.spelled).2
  plain := fun line' hline => h.plain line' (List.mem_cons_of_mem _ hline)
  fits := by
    intro l' hl
    rw [hunits.pagesize, hunits.numaMaxNode]
    exact h.fits l' (List.mem_cons_of_mem _ hl)

/-- What is left of a text is a text. -/
theorem ScriptAt.text (h : ScriptAt lines script s b done todo rest)
    (htext : ScriptText lines script s) : ScriptText rest todo s where
  spelled := h.todo_spelled
  plain := fun line hline => htext.plain line (by
    rw [h.lines_eq]
    exact List.mem_append_right _ hline)
  fits := fun l hl => htext.fits l (by
    rw [h.script_eq]
    exact List.mem_append_right _ hl)

/-- Before a line is read, all lines so far have been run. -/
theorem ScriptAt.ran (h : ScriptAt lines script s b done todo rest) (hnext : b.next = .reads s') :
    runScript ((b.visits.map Visit.w).zip done) s = .reads s' := by
  rcases h.next_eq with heq | ⟨-, -, hexit⟩
  · rw [← heq, hnext]
  · rw [hexit] at hnext
    cases hnext

/-- One more line, or the end of the file. -/
theorem ScriptAt.step (h : ScriptAt lines script s b done todo rest)
    (htext : ScriptText lines script s) (hstep : BatchStep b b') :
    ∃ done' todo' rest', ScriptAt lines script s b' done' todo' rest' := by
  have hrest := h.text htext
  cases hstep with
  | @line s₁ line stream' w hnext hread =>
      have hrun := h.ran hnext
      rw [h.stream_eq] at hread
      cases h.todo_spelled with
      | nil => cases hread
      | @cons l line' todo rest hl htodo =>
          rcases hrest.first (sameUnits_of_runScript _ hrun) with ⟨hread', hpass⟩
          rw [hread'] at hread
          cases hread
          have hlen : (b.visits.map Visit.w).length = done.length := by
            rw [List.length_map]
            exact h.passes.length_eq
          refine ⟨done ++ [l], todo, rest, ?_, ?_, rfl, htodo, ?_, .inl ?_⟩
          · rw [h.script_eq, List.append_assoc]
            rfl
          · rw [h.lines_eq, List.map_append, List.append_assoc]
            rfl
          · exact List.rel_append h.passes (.cons (hpass w) .nil)
          · rw [List.map_append, List.zip_append hlen]
            show (batchPass w line s₁).after = runScript (_ ++ [(w, l)]) s
            rw [runScript_append _ w l hrun, hpass]
  | @eof s₁ hnext hread =>
      have hend : rest = [] := by
        cases h.todo_spelled with
        | nil => rfl
        | @cons l line' todo rest _ _ =>
            rw [h.stream_eq, (hrest.first (.refl s)).1] at hread
            cases hread
      exact ⟨done, todo, rest, h.script_eq, h.lines_eq, h.stream_eq, h.todo_spelled, h.passes,
        .inr ⟨hend, ⟨s₁, h.ran hnext⟩, rfl⟩⟩

/-- With a world for every line there is a run to the end. -/
theorem ScriptText.exists_run : ∀ {ws : List World} {lines : List CStr} {script : List ScriptLine}
    {s : Shell}, ScriptText lines script s → ws.length = lines.length → ∀ visits : List Visit,
      ∃ b, ReflTransGen BatchStep ⟨streamOf lines, .reads s, visits⟩ b ∧
        b.next = (runScript (ws.zip script) s).atEof ∧
          ∃ ran, b.visits.map Visit.w = visits.map Visit.w ++ ran ∧ ran <+: ws := by
  intro ws
  induction ws with
  | nil =>
      intro lines script s htext hlen visits
      have hnil : lines = [] := List.length_eq_zero_iff.mp hlen.symm
      subst hnil
      refine ⟨_, .single (.eof rfl rfl), ?_, [], by simp, List.prefix_refl _⟩
      cases script <;> rfl
  | cons w ws ih =>
      intro lines script s htext hlen visits
      rcases lines with _ | ⟨line, lines⟩
      · cases hlen
      · rcases script with _ | ⟨l, script⟩
        · cases htext.spelled
        · rcases htext.first (.refl s) with ⟨hread, hpass⟩
          have hstep : BatchStep ⟨streamOf (line :: lines), .reads s, visits⟩
              ⟨streamOf lines, (l.pass w s).after, visits ++ [⟨w, line, s⟩]⟩ := by
            rw [← hpass w]
            exact .line w rfl hread
          have hstops : ∀ after, (l.pass w s).after = after →
              ∃ b, ReflTransGen BatchStep ⟨streamOf (line :: lines), .reads s, visits⟩ b ∧
                b.next = after ∧
                  ∃ ran, b.visits.map Visit.w = visits.map Visit.w ++ ran ∧ ran <+: w :: ws := by
            rintro after rfl
            exact ⟨_, .single hstep, rfl, [w], by simp, ⟨ws, rfl⟩⟩
          simp only [List.zip_cons_cons, runScript]
          cases hafter : (l.pass w s).after with
          | reads s' =>
              rw [hafter] at hstep
              rcases ih (htext.tail (sameUnits_of_reads hafter)) (Nat.succ.inj hlen)
                (visits ++ [⟨w, line, s⟩]) with ⟨b, hrun, hnext, ran, hran, hbegins⟩
              refine ⟨b, hrun.head hstep, hnext, w :: ran, ?_,
                (List.prefix_cons_inj w).mpr hbegins⟩
              rw [hran, List.map_append, List.append_assoc]
              rfl
          | exits status => exact hstops _ hafter
          | unspecified => exact hstops _ hafter
          | killed => exact hstops _ hafter
          | never => exact hstops _ hafter

/-- In every state of every run the lines so far have done what they mean. -/
theorem ScriptText.at_of_run (htext : ScriptText lines script s)
    (hrun : ReflTransGen BatchStep ⟨streamOf lines, .reads s, []⟩ b) :
    ∃ done todo rest, ScriptAt lines script s b done todo rest := by
  induction hrun with
  | refl => exact ⟨[], script, lines, rfl, rfl, rfl, htext.spelled, .nil, .inl rfl⟩
  | tail _ hstep ih =>
      rcases ih with ⟨done, todo, rest, hat⟩
      exact hat.step htext hstep

end Script

end Memtoy
