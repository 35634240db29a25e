import Memtoy.Child.Command
import Memtoy.Lib.Trans

/-!
# Child.Handshake — a parent and a child over two pipes

The parent writes a command line to the child's command pipe and waits in
`child_wait`; the child writes `"OK"` to the response pipe when it is ready for
the next line. `Link` is one parent and one child with the bytes in the two pipes
and in the child's stdio buffer, and with histories of the lines sent, read and
answered. Its steps are the steps of either side, in any order, with no signal
interrupting a read or a write; what a command does is left open, so every
outcome is a step.
-/

namespace Memtoy

open CString Trans

/-! ## The two sides -/

/-- `static char *child_ready` -/
def childReady : List Char := ['O', 'K']

/-- Where the parent is. `gone`: it was killed by SIGPIPE, exited, or has reaped
the child. -/
inductive ParentAt where
  /-- In `child_wait`, from `child_spawn`. -/
  | spawning
  | idle
  /-- In `child_wait`, from `child_send`. -/
  | waiting
  | gone
deriving DecidableEq, Repr

/-- Where the child is. A child that ends without a response to a line it has read
ends `on` that line. -/
inductive ChildAt where
  /-- Forked, before `child_respond()` in `child_spawn`. -/
  | starting
  /-- At the `setvbuf` of `process_commands`. -/
  | entering
  /-- In `readline_ni`. -/
  | reading
  | executing (line : CStr)
  /-- At `child_respond()` in the increment of the loop. -/
  | responding (line : CStr)
  /-- At `child_respond()` in `quit`. -/
  | quitting (line : CStr)
  /-- In `exit()`; the pipes are still open. -/
  | exiting (on : Option CStr)
  | dead (on : Option CStr)
deriving DecidableEq, Repr

/-- The line that has been read and not been answered. -/
def ChildAt.unanswered : ChildAt → Option CStr
  | .executing line | .responding line | .quitting line => some line
  | .exiting on | .dead on => on
  | _ => none

/-- The child has exited or is exiting. -/
def ChildAt.Over (c : ChildAt) : Prop := ∃ on, c = .exiting on ∨ c = .dead on

/-- The child has not finished with a line. -/
def ChildAt.Busy (c : ChildAt) : Prop :=
  ∃ line, c = .executing line ∨ c = .responding line ∨ c = .quitting line

structure Link where
  parent : ParentAt
  child : ChildAt
  /-- Bytes in the command pipe. -/
  cmdPipe : List Char
  /-- Bytes in the child's stdio buffer. -/
  stdin : List Char
  /-- Bytes in the response pipe. -/
  respPipe : List Char
  /-- History: the lines the parent has sent. -/
  sent : List CStr
  /-- History: the lines the child has read. -/
  got : List CStr
  /-- History: the lines the child has responded to. -/
  answered : List CStr
deriving DecidableEq, Repr

/-- `fgets(cmdbuf, CMDBUFSZ-1, stdin)` can return: a newline, or enough bytes. -/
def FgetsReady (stdin : List Char) : Prop := '\n' ∈ stdin ∨ cmdbufsz - 2 ≤ stdin.length

/-- `read(childp->c_rfd, child_response, 2)` in `child_wait`: what is left in the
pipe. End of file comes when the child has closed its end. -/
inductive ChildWait (s : Link) : List Char → Prop where
  | response : s.respPipe ≠ [] → ChildWait s (s.respPipe.drop childReady.length)
  | eof {on : Option CStr} : s.respPipe = [] → s.child = .dead on → ChildWait s []

inductive LinkAct where
  | send (line : CStr)
  | returns
  | other
deriving DecidableEq, Repr

/-- The steps of both sides. `interactive` is the INTERACTIVE option of the child. -/
inductive LinkStep (interactive : Bool) : LinkAct → Link → Link → Prop where
  -- the parent
  | spawned {s : Link} {resp : List Char} : s.parent = .spawning → ChildWait s resp →
      LinkStep interactive .other s { s with parent := .idle, respPipe := resp }
  | send {s : Link} {children : List Child} {buf : List Char} {cmdStr : Nat} {childp : Child}
      {line : CStr} : s.parent = .idle → (∀ on, s.child ≠ .dead on) →
      childSend children buf cmdStr = .wrote childp (line ++ ['\n']) →
      PlainLine line → line.length ≤ maxLine →
      LinkStep interactive (.send line) s
        { s with parent := .waiting, cmdPipe := s.cmdPipe ++ (line ++ ['\n'])
                 sent := s.sent ++ [line] }
  | sigpipe {s : Link} {on : Option CStr} : s.parent = .idle → s.child = .dead on →
      LinkStep interactive .other s { s with parent := .gone }
  | returns {s : Link} {resp : List Char} : s.parent = .waiting → ChildWait s resp →
      LinkStep interactive .returns s { s with parent := .idle, respPipe := resp }
  | leave {s : Link} : s.parent = .idle →
      LinkStep interactive .other s { s with parent := .gone }
  -- the child, up to its loop
  | start {s : Link} : s.child = .starting →
      LinkStep interactive .other s
        { s with child := .entering, respPipe := s.respPipe ++ childReady }
  | dup2Fails {s : Link} : s.child = .starting →
      LinkStep interactive .other s { s with child := .exiting none }
  | enter {s : Link} : s.child = .entering →
      LinkStep interactive .other s { s with child := .reading, stdin := [] }
  | setvbufFails {s : Link} : s.child = .entering →
      LinkStep interactive .other s { s with child := .exiting none }
  -- reading a line
  | fill {s : Link} (n : Nat) : s.child = .reading → 0 < n → n ≤ s.cmdPipe.length →
      LinkStep interactive .other s
        { s with stdin := s.stdin ++ s.cmdPipe.take n, cmdPipe := s.cmdPipe.drop n }
  | read {s : Link} {line : CStr} {rest : List Char} : s.child = .reading → FgetsReady s.stdin →
      readlineNi s.stdin = some (line, rest) →
      LinkStep interactive .other s
        { s with child := .executing line, stdin := rest, got := s.got ++ [line] }
  | eof {s : Link} : s.child = .reading → s.parent = .gone → s.cmdPipe = [] → s.stdin = [] →
      LinkStep interactive .other s { s with child := .exiting none }
  -- the pass of the loop
  | skip {s : Link} {line : CStr} {children : List Child} : s.child = .executing line →
      (processLine children (cmdBuffer line) = .blank ∨
        processLine children (cmdBuffer line) = .comment) →
      LinkStep interactive .other s { s with child := .responding line }
  | forward {s : Link} {line : CStr} {children : List Child} {sent : Sent} :
      s.child = .executing line → processLine children (cmdBuffer line) = .forward sent →
      LinkStep interactive .other s { s with child := .responding line }
  | succeed {s : Link} {line cmd : CStr} {children : List Child} : s.child = .executing line →
      processLine children (cmdBuffer line) = .command cmd →
      LinkStep interactive .other s { s with child := .responding line }
  /-- A command error: ignored when interactive, else `exit(4)`. -/
  | fail {s : Link} {line cmd : CStr} {children : List Child} : s.child = .executing line →
      processLine children (cmdBuffer line) = .command cmd →
      LinkStep interactive .other s
        { s with child := if interactive then .responding line else .exiting (some line) }
  | quit {s : Link} {line cmd : CStr} {children : List Child} : s.child = .executing line →
      processLine children (cmdBuffer line) = .command cmd →
      LinkStep interactive .other s { s with child := .quitting line }
  | respond {s : Link} {line : CStr} : s.child = .responding line →
      LinkStep interactive .other s
        { s with child := .reading, respPipe := s.respPipe ++ childReady
                 answered := s.answered ++ [line] }
  | respondQuit {s : Link} {line : CStr} : s.child = .quitting line →
      LinkStep interactive .other s
        { s with child := .exiting none, respPipe := s.respPipe ++ childReady
                 answered := s.answered ++ [line] }
  -- the end of the child
  /-- `die()`, or SIGPIPE from a command forwarded to a dead grandchild. -/
  | dies {s : Link} {line : CStr} : s.child = .executing line →
      LinkStep interactive .other s { s with child := .exiting (some line) }
  | exits {s : Link} {on : Option CStr} : s.child = .exiting on →
      LinkStep interactive .other s { s with child := .dead on }
  | killed {s : Link} : (∀ on, s.child ≠ .dead on) →
      LinkStep interactive .other s { s with child := .dead s.child.unanswered }

/-- `child_spawn`, right after the fork: the child's stdio buffer is a copy of the
parent's. -/
def forked (stdin : List Char) : Link where
  parent := .spawning
  child := .starting
  cmdPipe := []
  stdin := stdin
  respPipe := []
  sent := []
  got := []
  answered := []

def linkSpec (interactive : Bool) : Spec Link where
  Init := fun s => ∃ stdin, s = forked stdin
  Next := fun s s' => ∃ a, LinkStep interactive a s s'

/-! ## What a step does to the link -/

/-- The steps by what they change: which command runs and how it ends does not
matter to the pipes. -/
inductive LinkMove : LinkAct → Link → Link → Prop where
  | spawned {s : Link} {resp : List Char} : s.parent = .spawning → ChildWait s resp →
      LinkMove .other s { s with parent := .idle, respPipe := resp }
  | send {s : Link} {line : CStr} : s.parent = .idle → PlainLine line → line.length ≤ maxLine →
      LinkMove (.send line) s
        { s with parent := .waiting, cmdPipe := s.cmdPipe ++ (line ++ ['\n'])
                 sent := s.sent ++ [line] }
  | returns {s : Link} {resp : List Char} : s.parent = .waiting → ChildWait s resp →
      LinkMove .returns s { s with parent := .idle, respPipe := resp }
  | leave {s : Link} : s.parent = .idle → LinkMove .other s { s with parent := .gone }
  | start {s : Link} : s.child = .starting →
      LinkMove .other s { s with child := .entering, respPipe := s.respPipe ++ childReady }
  | enter {s : Link} : s.child = .entering →
      LinkMove .other s { s with child := .reading, stdin := [] }
  | fill {s : Link} (n : Nat) : s.child = .reading →
      LinkMove .other s
        { s with stdin := s.stdin ++ s.cmdPipe.take n, cmdPipe := s.cmdPipe.drop n }
  | read {s : Link} {line : CStr} {rest : List Char} : s.child = .reading → FgetsReady s.stdin →
      readlineNi s.stdin = some (line, rest) →
      LinkMove .other s
        { s with child := .executing line, stdin := rest, got := s.got ++ [line] }
  | pass {s : Link} {c : ChildAt} : s.child.Busy → c.Busy → c.unanswered = s.child.unanswered →
      LinkMove .other s { s with child := c }
  | respond {s : Link} {line : CStr} {c : ChildAt} : s.child.Busy →
      s.child.unanswered = some line → (c = .reading ∨ c = .exiting none) →
      LinkMove .other s
        { s with child := c, respPipe := s.respPipe ++ childReady
                 answered := s.answered ++ [line] }
  | ends {s : Link} {c : ChildAt} : c.Over → c.unanswered = s.child.unanswered →
      LinkMove .other s { s with child := c }

variable {interactive : Bool} {a : LinkAct} {s s' : Link}

theorem LinkStep.move (hstep : LinkStep interactive a s s') : LinkMove a s s' := by
  cases hstep with
  | spawned hp hw => exact .spawned hp hw
  | send hp _ _ hplain hlen => exact .send hp hplain hlen
  | sigpipe hp _ => exact .leave hp
  | returns hp hw => exact .returns hp hw
  | leave hp => exact .leave hp
  | start hc => exact .start hc
  | dup2Fails hc => exact .ends ⟨none, .inl rfl⟩ (by rw [hc]; rfl)
  | enter hc => exact .enter hc
  | setvbufFails hc => exact .ends ⟨none, .inl rfl⟩ (by rw [hc]; rfl)
  | fill n hc _ _ => exact .fill n hc
  | read hc hready hline => exact .read hc hready hline
  | eof hc _ _ _ => exact .ends ⟨none, .inl rfl⟩ (by rw [hc]; rfl)
  | skip hc _ => exact .pass ⟨_, .inl hc⟩ ⟨_, .inr (.inl rfl)⟩ (by rw [hc]; rfl)
  | forward hc _ => exact .pass ⟨_, .inl hc⟩ ⟨_, .inr (.inl rfl)⟩ (by rw [hc]; rfl)
  | succeed hc _ => exact .pass ⟨_, .inl hc⟩ ⟨_, .inr (.inl rfl)⟩ (by rw [hc]; rfl)
  | fail hc _ =>
      cases interactive with
      | true => exact .pass ⟨_, .inl hc⟩ ⟨_, .inr (.inl rfl)⟩ (by rw [hc]; rfl)
      | false => exact .ends ⟨_, .inl rfl⟩ (by rw [hc]; rfl)
  | quit hc _ => exact .pass ⟨_, .inl hc⟩ ⟨_, .inr (.inr rfl)⟩ (by rw [hc]; rfl)
  | respond hc => exact .respond ⟨_, .inr (.inl hc)⟩ (by rw [hc]; rfl) (.inl rfl)
  | respondQuit hc => exact .respond ⟨_, .inr (.inr hc)⟩ (by rw [hc]; rfl) (.inr rfl)
  | dies hc => exact .ends ⟨_, .inl rfl⟩ (by rw [hc]; rfl)
  | exits hc => exact .ends ⟨_, .inr rfl⟩ (by rw [hc]; rfl)
  | killed _ => exact .ends ⟨_, .inr rfl⟩ rfl

/-! ## Every line is answered once -/

/-- The lines read are the lines answered, and the one the child is busy with or
has died on. -/
def Answered (s : Link) : Prop := s.got = s.answered ++ s.child.unanswered.toList

theorem LinkMove.answered (hmove : LinkMove a s s') (h : Answered s) : Answered s' := by
  unfold Answered at h ⊢
  cases hmove with
  | spawned _ _ => exact h
  | send _ _ _ => exact h
  | returns _ _ => exact h
  | leave _ => exact h
  | start hc => simpa [hc, ChildAt.unanswered] using h
  | enter hc => simpa [hc, ChildAt.unanswered] using h
  | fill n _ => exact h
  | read hc _ _ => simpa [hc, ChildAt.unanswered] using h
  | pass _ _ hsame => rw [hsame]; exact h
  | respond _ hline hc =>
      rw [hline] at h
      rcases hc with rfl | rfl <;> simpa [ChildAt.unanswered] using h
  | ends _ hsame => rw [hsame]; exact h

/-! ## The phases of the handshake -/

/-- The child is on its way to read a line. -/
def ChildAt.Ready (c : ChildAt) : Prop := c = .entering ∨ c = .reading

/-- The bytes the child has yet to read; `setvbuf` empties the buffer first. -/
def Link.incoming (s : Link) : List Char :=
  if s.child = .entering then s.cmdPipe else s.stdin ++ s.cmdPipe

theorem ChildAt.Ready.not_over {c : ChildAt} (h : c.Ready) : ¬ c.Over := by
  rintro ⟨on, rfl | rfl⟩ <;> rcases h with h | h <;> cases h

theorem ChildAt.Busy.not_over {c : ChildAt} (h : c.Busy) : ¬ c.Over := by
  rintro ⟨on, rfl | rfl⟩ <;> obtain ⟨line, h | h | h⟩ := h <;> cases h

theorem ChildAt.Ready.not_busy {c : ChildAt} (h : c.Ready) : ¬ c.Busy := by
  rintro ⟨line, rfl | rfl | rfl⟩ <;> rcases h with h | h <;> cases h

theorem ChildAt.Over.not_busy {c : ChildAt} (h : c.Over) : ¬ c.Busy := fun hb => hb.not_over h

inductive Phase (s : Link) : Prop where
  | starting : s.parent = .spawning → s.child = .starting → s.cmdPipe = [] → s.respPipe = [] →
      s.got = s.sent → Phase s
  /-- The response of `child_spawn` is in flight. -/
  | spawned : s.parent = .spawning → s.child.Ready → s.incoming = [] → s.respPipe = childReady →
      s.got = s.sent → Phase s
  /-- Both sides are between commands. -/
  | quiet : (s.parent = .idle ∨ s.parent = .gone) → s.child.Ready → s.incoming = [] →
      s.respPipe = [] → s.got = s.sent → Phase s
  /-- A command is in flight. -/
  | sent {line : CStr} : s.parent = .waiting → s.child.Ready → s.incoming = line ++ ['\n'] →
      PlainLine line → line.length ≤ maxLine → s.respPipe = [] → s.sent = s.got ++ [line] → Phase s
  | busy : s.parent = .waiting → s.child.Busy → s.stdin = [] → s.cmdPipe = [] → s.respPipe = [] →
      s.got = s.sent → Phase s
  /-- The response to a command is in flight. -/
  | answered : s.parent = .waiting → s.child = .reading → s.incoming = [] →
      s.respPipe = childReady → s.got = s.sent → Phase s
  | ended : s.child.Over → (s.respPipe = [] ∨ s.respPipe = childReady) → Phase s

/-- A response is read whole. -/
theorem ChildWait.rest {resp : List Char} (hw : ChildWait s resp)
    (h : s.respPipe = [] ∨ s.respPipe = childReady) : resp = [] := by
  cases hw with
  | eof _ _ => rfl
  | response hne =>
      rcases h with h | h
      · exact absurd h hne
      · rw [h]
        rfl

/-- `child_wait` returns only on a response or when the child is dead. -/
theorem ChildWait.ended {resp : List Char} (hw : ChildWait s resp) (h : s.respPipe = []) :
    s.child.Over := by
  cases hw with
  | response hne => exact absurd h hne
  | eof _ hdead => exact ⟨_, .inr hdead⟩

namespace Phase

/-- At most one response is in flight. -/
theorem respPipe (h : Phase s) : s.respPipe = [] ∨ s.respPipe = childReady := by
  cases h with
  | starting _ _ _ hr _ => exact .inl hr
  | spawned _ _ _ hr _ => exact .inr hr
  | quiet _ _ _ hr _ => exact .inl hr
  | sent _ _ _ _ _ hr _ => exact .inl hr
  | busy _ _ _ _ hr _ => exact .inl hr
  | answered _ _ _ hr _ => exact .inr hr
  | ended _ hr => exact hr

theorem of_spawning (h : Phase s) (hp : s.parent = .spawning) :
    (s.child = .starting ∧ s.respPipe = []) ∨ (s.child.Ready ∧ s.incoming = [] ∧ s.got = s.sent) ∨
      s.child.Over := by
  cases h with
  | starting _ hc _ hr _ => exact .inl ⟨hc, hr⟩
  | spawned _ hc hin _ hgot => exact .inr (.inl ⟨hc, hin, hgot⟩)
  | ended hc _ => exact .inr (.inr hc)
  | quiet hp' => simp [hp] at hp'
  | sent hp' | busy hp' | answered hp' => simp [hp] at hp'

theorem of_idle (h : Phase s) (hp : s.parent = .idle) :
    (s.child.Ready ∧ s.incoming = [] ∧ s.respPipe = [] ∧ s.got = s.sent) ∨ s.child.Over := by
  cases h with
  | quiet _ hc hin hr hgot => exact .inl ⟨hc, hin, hr, hgot⟩
  | ended hc _ => exact .inr hc
  | starting hp' | spawned hp' | sent hp' | busy hp' | answered hp' => simp [hp] at hp'

/-- When `child_wait` returns in `child_send`, the response was in flight or the
child is over. -/
theorem of_waiting {resp : List Char} (h : Phase s) (hp : s.parent = .waiting)
    (hw : ChildWait s resp) :
    (s.child = .reading ∧ s.incoming = [] ∧ s.got = s.sent) ∨ s.child.Over := by
  cases h with
  | sent _ hc _ _ _ hr _ => exact absurd (hw.ended hr) hc.not_over
  | busy _ hc _ _ hr _ => exact absurd (hw.ended hr) hc.not_over
  | answered _ hc hin _ hgot => exact .inl ⟨hc, hin, hgot⟩
  | ended hc _ => exact .inr hc
  | starting hp' | spawned hp' => simp [hp] at hp'
  | quiet hp' => simp [hp] at hp'

theorem of_busy (h : Phase s) (hb : s.child.Busy) :
    s.parent = .waiting ∧ s.stdin = [] ∧ s.cmdPipe = [] ∧ s.respPipe = [] ∧ s.got = s.sent := by
  cases h with
  | busy hp _ hin hcmd hr hgot => exact ⟨hp, hin, hcmd, hr, hgot⟩
  | ended hc _ => exact absurd hb hc.not_busy
  | starting _ hc | answered _ hc => obtain ⟨line, hb | hb | hb⟩ := hb <;> simp [hc] at hb
  | spawned _ hc | quiet _ hc | sent _ hc => exact absurd hb hc.not_busy

/-- Moving bytes from the pipe to the buffer keeps the phase. -/
theorem of_incoming (h : Phase s) (hc : s.child.Ready) (hc' : s'.child.Ready)
    (hreading : s.child = .reading → s'.child = .reading) (hp : s'.parent = s.parent)
    (hin : s'.incoming = s.incoming) (hr : s'.respPipe = s.respPipe) (hgot : s'.got = s.got)
    (hsent : s'.sent = s.sent) : Phase s' := by
  cases h with
  | starting _ hc0 => rcases hc with hc | hc <;> simp [hc0] at hc
  | busy _ hb => exact absurd hb hc.not_busy
  | ended ho _ => exact absurd ho hc.not_over
  | spawned hp0 _ hin0 hr0 hg0 =>
      exact .spawned (hp ▸ hp0) hc' (hin ▸ hin0) (hr ▸ hr0) (by rw [hgot, hsent, hg0])
  | quiet hp0 _ hin0 hr0 hg0 =>
      exact .quiet (hp ▸ hp0) hc' (hin ▸ hin0) (hr ▸ hr0) (by rw [hgot, hsent, hg0])
  | sent hp0 _ hin0 hplain hlen hr0 hg0 =>
      exact .sent (hp ▸ hp0) hc' (hin.trans hin0) hplain hlen (hr ▸ hr0) (by rw [hgot, hsent, hg0])
  | answered hp0 hc0 hin0 hr0 hg0 =>
      exact .answered (hp ▸ hp0) (hreading hc0) (hin ▸ hin0) (hr ▸ hr0) (by rw [hgot, hsent, hg0])

end Phase

/-- `fgets` returns only with the whole command. -/
theorem fgetsReady_command {line : CStr} {stdin cmdPipe : List Char} (hplain : PlainLine line)
    (hlen : line.length ≤ maxLine) (hin : stdin ++ cmdPipe = line ++ ['\n'])
    (hready : FgetsReady stdin) : stdin = line ++ ['\n'] ∧ cmdPipe = [] := by
  suffices hcmd : cmdPipe = [] by
    rw [hcmd, List.append_nil] at hin
    exact ⟨hin, hcmd⟩
  by_contra hne
  -- the last byte of the pipe is the newline, and all of the buffer is in the line
  obtain ⟨front, last, rfl⟩ := List.eq_nil_or_concat cmdPipe |>.resolve_left hne
  rw [List.concat_eq_append, ← List.append_assoc] at hin
  obtain ⟨hline, -⟩ := List.append_inj' hin rfl
  rcases hready with hnl | hlong
  · exact hplain.1 (hline ▸ List.mem_append_left _ hnl)
  · have hlen' := congrArg List.length hline
    rw [List.length_append] at hlen'
    have hmax : maxLine = 253 := rfl
    have hsz : cmdbufsz = 256 := rfl
    omega

theorem incoming_reading (h : s.child = .reading) : s.incoming = s.stdin ++ s.cmdPipe := by
  simp [Link.incoming, h]

/-- A line is read only when a command is in flight, and then it is the command. -/
theorem Phase.read {line : CStr} {rest : List Char} (h : Phase s) (hc : s.child = .reading)
    (hready : FgetsReady s.stdin) (hline : readlineNi s.stdin = some (line, rest)) :
    s.parent = .waiting ∧ s.cmdPipe = [] ∧ rest = [] ∧ s.respPipe = [] ∧
      s.sent = s.got ++ [line] := by
  have hnil : s.incoming ≠ [] := by
    intro hin
    rw [incoming_reading hc, List.append_eq_nil_iff] at hin
    rw [hin.1] at hline
    cases hline
  cases h with
  | starting _ hc' => simp [hc] at hc'
  | spawned _ _ hin | quiet _ _ hin | answered _ _ hin => exact absurd hin hnil
  | busy _ hb => obtain ⟨line, hb | hb | hb⟩ := hb <;> simp [hc] at hb
  | ended ho => obtain ⟨on, ho | ho⟩ := ho <;> simp [hc] at ho
  | sent hp _ hin hplain hlen hr hsent =>
      rw [incoming_reading hc] at hin
      obtain ⟨hstdin, hcmd⟩ := fgetsReady_command hplain hlen hin hready
      rw [hstdin, readlineNi_fits hplain.1 hplain.2 hlen [], Option.some.injEq, Prod.mk.injEq]
        at hline
      obtain ⟨rfl, rfl⟩ := hline
      exact ⟨hp, hcmd, rfl, hr, hsent⟩

/-- A step leads from phase to phase. -/
theorem LinkMove.phase (hmove : LinkMove a s s') (h : Phase s) : Phase s' := by
  -- each move is possible in a few phases only; `of_*` say which
  cases hmove with
  | spawned hp hw =>
      have hresp := hw.rest h.respPipe
      subst hresp
      rcases h.of_spawning hp with ⟨hc, hr⟩ | ⟨hc, hin, hgot⟩ | hover
      · obtain ⟨on, hon | hon⟩ := hw.ended hr <;> simp [hc] at hon
      · exact .quiet (.inl rfl) hc hin rfl hgot
      · exact .ended hover (.inl rfl)
  | send hp hplain hlen =>
      rcases h.of_idle hp with ⟨hc, hin, hr, hgot⟩ | hover
      · refine .sent rfl hc ?_ hplain hlen hr (by rw [hgot])
        rcases hc with hc | hc <;> simp_all [Link.incoming]
      · exact .ended hover h.respPipe
  | returns hp hw =>
      have hresp := hw.rest h.respPipe
      subst hresp
      rcases h.of_waiting hp hw with ⟨hc, hin, hgot⟩ | hover
      · exact .quiet (.inl rfl) (.inr hc) hin rfl hgot
      · exact .ended hover (.inl rfl)
  | leave hp =>
      rcases h.of_idle hp with ⟨hc, hin, hr, hgot⟩ | hover
      · exact .quiet (.inr rfl) hc hin hr hgot
      · exact .ended hover h.respPipe
  | start hc =>
      cases h with
      | starting hp _ hcmd hr hgot =>
          exact .spawned hp (.inl rfl) (by simpa [Link.incoming] using hcmd) (by simp [hr]) hgot
      | ended ho _ => obtain ⟨on, ho | ho⟩ := ho <;> simp [hc] at ho
      | busy _ hb => obtain ⟨line, hb | hb | hb⟩ := hb <;> simp [hc] at hb
      | answered _ hc' => simp [hc] at hc'
      | spawned _ hc' | quiet _ hc' | sent _ hc' => rcases hc' with hc' | hc' <;> simp [hc] at hc'
  | enter hc =>
      -- the buffer copied at the fork is dropped; the pipe is all there is to read
      refine h.of_incoming (.inl hc) (.inr rfl) (fun _ => rfl) rfl ?_ rfl rfl rfl
      simp [Link.incoming, hc]
  | fill n hc =>
      refine h.of_incoming (.inr hc) (.inr hc) (fun _ => hc) rfl ?_ rfl rfl rfl
      simp [Link.incoming, hc]
  | read hc hready hline =>
      obtain ⟨hp, hcmd, rfl, hr, hsent⟩ := h.read hc hready hline
      exact .busy hp ⟨_, .inl rfl⟩ rfl hcmd hr hsent.symm
  | pass hb hb' _ =>
      obtain ⟨hp, hin, hcmd, hr, hgot⟩ := h.of_busy hb
      exact .busy hp hb' hin hcmd hr hgot
  | respond hb _ hc =>
      obtain ⟨hp, hin, hcmd, hr, hgot⟩ := h.of_busy hb
      -- after `quit` the response is written by a child that goes on to exit
      rcases hc with rfl | rfl
      · exact .answered hp rfl (by simp [Link.incoming, hin, hcmd]) (by simp [hr]) hgot
      · exact .ended ⟨none, .inl rfl⟩ (.inr (by simp [hr]))
  | ends ho _ => exact .ended ho h.respPipe

theorem reachable_phase (h : (linkSpec interactive).Reachable s) : Phase s ∧ Answered s := by
  refine Spec.invariant (fun s => Phase s ∧ Answered s) ?_ ?_ h
  · rintro s ⟨stdin, rfl⟩
    exact ⟨.starting rfl rfl rfl rfl rfl, rfl⟩
  · rintro s s' ⟨a, hstep⟩ ⟨hphase, hans⟩
    exact ⟨hstep.move.phase hphase, hstep.move.answered hans⟩

/-! ## The handshake -/

/-- The child has finished its command and is about to read the next line; nothing
is left in the pipes and every line sent has been answered. -/
structure Link.Quiescent (s : Link) : Prop where
  child : s.child = .reading
  cmdPipe : s.cmdPipe = []
  stdin : s.stdin = []
  respPipe : s.respPipe = []
  got : s.got = s.sent
  answered : s.answered = s.sent

/-- In every run: the parent sends a command only to a child that is not busy with
an earlier one; at most one response is in flight; every line the child has read
has been answered once, but the one the child is busy with or died on; and when
`child_send` returns, the child has exited or is exiting, or both sides are quiet. -/
theorem parent_child_handshake (h : (linkSpec interactive).Reachable s) :
    (∀ line s', LinkStep interactive (.send line) s s' → ¬ s.child.Busy) ∧
    (s.respPipe = [] ∨ s.respPipe = childReady) ∧
    s.got = s.answered ++ s.child.unanswered.toList ∧
    (∀ s', LinkStep interactive .returns s s' → s'.child.Over ∨ s'.Quiescent) := by
  obtain ⟨hphase, hans⟩ := reachable_phase h
  refine ⟨?_, hphase.respPipe, hans, ?_⟩
  · intro line s' hstep
    cases hstep with
    | send hp =>
        rcases hphase.of_idle hp with ⟨hc, -⟩ | hover
        · exact hc.not_busy
        · exact hover.not_busy
  · intro s' hstep
    cases hstep with
    | returns hp hw =>
        have hresp := hw.rest hphase.respPipe
        subst hresp
        rcases hphase.of_waiting hp hw with ⟨hc, hin, hgot⟩ | hover
        · rw [incoming_reading hc, List.append_eq_nil_iff] at hin
          have hall : s.answered = s.sent := by
            simpa [Answered, hc, ChildAt.unanswered, hgot] using hans.symm
          exact .inr ⟨hc, hin.2, hin.1, rfl, hgot, hall⟩
        · exact .inl hover

/-- A child that has answered the command `map`, the parent still waiting. -/
def sampleLink : Link where
  parent := .waiting
  child := .reading
  cmdPipe := []
  stdin := []
  respPipe := childReady
  sent := [['m', 'a', 'p']]
  got := [['m', 'a', 'p']]
  answered := [['m', 'a', 'p']]

theorem sampleLink_reachable : (linkSpec false).Reachable sampleLink := by
  have h0 : (linkSpec false).Reachable (forked []) := .init ⟨[], rfl⟩
  have h1 := h0.step ⟨_, .start rfl⟩
  have h2 := h1.step ⟨_, .enter rfl⟩
  have h3 := h2.step ⟨_, .spawned rfl (.response (by decide))⟩
  have hsend : childSend [⟨['c'], 2⟩] ['c', ' ', 'm', 'a', 'p', nul] 0 =
      .wrote ⟨['c'], 2⟩ (['m', 'a', 'p'] ++ ['\n']) := by decide
  have h4 := h3.step ⟨_, .send rfl (by simp) hsend (by decide) (by decide)⟩
  have h5 := h4.step ⟨_, .fill 4 rfl (by decide) (by decide)⟩
  have hread : readlineNi ['m', 'a', 'p', '\n'] = some (['m', 'a', 'p'], []) := by decide
  have h6 := h5.step ⟨_, .read rfl (.inl (by decide)) hread⟩
  have hcmd : processLine [] (cmdBuffer ['m', 'a', 'p']) = .command ['m', 'a', 'p'] := by decide
  have h7 := h6.step ⟨_, .succeed rfl hcmd⟩
  exact h7.step ⟨_, .respond rfl⟩

theorem parent_child_handshake_map :
    ∃ s', LinkStep false .returns sampleLink s' ∧ (s'.child.Over ∨ s'.Quiescent) := by
  have hreturns : LinkStep false .returns sampleLink _ := .returns rfl (.response (by decide))
  exact ⟨_, hreturns, (parent_child_handshake sampleLink_reachable).2.2.2 _ hreturns⟩

end Memtoy
