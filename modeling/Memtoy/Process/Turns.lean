import Memtoy.Lib.Baton
import Memtoy.Process.Holding

/-!
# Process.Turns — one command at a time

The command loops of a whole tree, over its pipes. A line is known by its place in what the
first process reads; `child_send` passes it on to a child and waits for the response, so
that the processes take turns. That holds as long as `child_wait` is not interrupted:
handlers are installed without SA_RESTART, and a SIGCLD that comes while a process waits
ends its wait early.
-/

namespace Memtoy

open Ancestry Baton Descriptors Trans

/-! ## The loops -/

/-- Where a process is in its command loop. -/
inductive TurnAt where
  /-- From the fork to `child_respond()` in `child_spawn`. -/
  | starting
  /-- In `readline()` or `readline_ni()`. -/
  | loop
  /-- A line has been read. -/
  | handling (line : Nat)
  /-- In `parse_command`. -/
  | running (line : Nat)
  /-- In `child_wait`. -/
  | waiting (c : Num)
  /-- At `child_respond()` in the increment of the loop. -/
  | answering
  /-- In `exit()`. -/
  | exiting
deriving DecidableEq, Repr

/-- A process in its loop, and what is in its two pipes. -/
structure Station where
  ctl : TurnAt
  /-- The lines in the command pipe. -/
  cmd : List Nat
  /-- The responses in the response pipe. -/
  resp : Nat
deriving DecidableEq, Repr

structure Turns where
  forest : Forest
  stations : Num → Station
  /-- How many lines the first process has read. -/
  next : Nat
  /-- History: who ran the command of which line. -/
  ran : List (Num × Nat)

def Turns.put (s : Turns) (p : Num) (st : Station) : Turns :=
  { s with stations := Function.update s.stations p st }

def Turns.goto (s : Turns) (p : Num) (ctl : TurnAt) : Turns :=
  s.put p { s.stations p with ctl := ctl }

/-- `child_respond()` -/
def Turns.respond (s : Turns) (p : Num) (ctl : TurnAt) : Turns :=
  s.put p { s.stations p with ctl := ctl, resp := (s.stations p).resp + 1 }

inductive TurnAct where
  /-- A signal is handled while the process is in `child_wait`. -/
  | interrupted (p : Num)
  | other

inductive TurnStep : TurnAct → Turns → Turns → Prop where
  -- reading a line
  | readline {s : Turns} : s.forest.procs 0 ≠ none → (s.stations 0).ctl = .loop →
      TurnStep .other s { s.goto 0 (.handling s.next) with next := s.next + 1 }
  | readlineNi {s : Turns} {p : Num} {line : Nat} {rest : List Nat} : s.forest.procs p ≠ none →
      (s.stations p).ctl = .loop → (s.stations p).cmd = line :: rest →
      TurnStep .other s (s.put p { s.stations p with ctl := .handling line, cmd := rest })
  -- the pass of the loop
  /-- A blank line, a comment, or a `child_send` that fails. -/
  | skip {s : Turns} {p : Num} {line : Nat} : s.forest.procs p ≠ none →
      (s.stations p).ctl = .handling line → TurnStep .other s (s.goto p .answering)
  | childSend {s : Turns} {p : Num} {pr : PipeProc} {line : Nat} {c : PipeChild} :
      s.forest.procs p = some pr → (s.stations p).ctl = .handling line → c ∈ pr.children →
      s.forest.procs c.num ≠ none →
      TurnStep .other s ((s.goto p (.waiting c.num)).put c.num
        { s.stations c.num with cmd := (s.stations c.num).cmd ++ [line] })
  | parseCommand {s : Turns} {p : Num} {line : Nat} : s.forest.procs p ≠ none →
      (s.stations p).ctl = .handling line →
      TurnStep .other s { s.goto p (.running line) with ran := s.ran ++ [(p, line)] }
  | returns {s : Turns} {p : Num} {pr : PipeProc} {line : Nat} : s.forest.procs p = some pr →
      (s.stations p).ctl = .running line → pr.stage = .ready →
      TurnStep .other s (s.goto p .answering)
  /-- `quit()` in a child -/
  | quit {s : Turns} {p : Num} {pr : PipeProc} {line : Nat} : s.forest.procs p = some pr →
      p ≠ 0 → (s.stations p).ctl = .running line → pr.stage = .ready →
      TurnStep .other s (s.respond p .exiting)
  | respond {s : Turns} {p : Num} : s.forest.procs p ≠ none → p ≠ 0 →
      (s.stations p).ctl = .answering → TurnStep .other s (s.respond p .loop)
  /-- The first process has nobody to respond to. -/
  | again {s : Turns} : s.forest.procs 0 ≠ none → (s.stations 0).ctl = .answering →
      TurnStep .other s (s.goto 0 .loop)
  -- child_spawn
  /-- A step up to the insertion, of either side; a file, or a child reaped, at any time. -/
  | own {s : Turns} {p : Num} {pr pr' : PipeProc} : s.forest.procs p = some pr →
      ProcStep s.forest pr pr' →
      (pr'.stage = pr.stage ∨ ∀ n cmd1 resp0, pr.stage ≠ .uninserted n cmd1 resp0) →
      TurnStep .other s { s with forest := s.forest.set p pr' }
  | spawn {s : Turns} {p : Num} {line : Nat} {f : Forest} : (s.stations p).ctl = .running line →
      PipeStep (.spawn p) s.forest f → TurnStep .other s { s with forest := f }
  | fork {s : Turns} {p n : Num} {f : Forest} : PipeStep (.fork p n) s.forest f →
      TurnStep .other s { s.goto n .starting with forest := f }
  | insert {s : Turns} {p n : Num} {pr pr' : PipeProc} {cmd1 resp0 : Fd} :
      s.forest.procs p = some pr → pr.stage = .uninserted n cmd1 resp0 →
      ProcStep s.forest pr pr' → pr'.stage = .ready →
      TurnStep .other s { s.goto p (.waiting n) with forest := s.forest.set p pr' }
  | started {s : Turns} {p : Num} {pr : PipeProc} : s.forest.procs p = some pr → p ≠ 0 →
      pr.stage = .ready → (s.stations p).ctl = .starting → TurnStep .other s (s.respond p .loop)
  -- child_wait
  | woken {s : Turns} {p c : Num} : s.forest.procs p ≠ none → (s.stations p).ctl = .waiting c →
      (s.stations c).resp ≠ 0 →
      TurnStep .other s ((s.goto p .answering).put c
        { s.stations c with resp := (s.stations c).resp - 1 })
  | eof {s : Turns} {p c : Num} : s.forest.procs p ≠ none → (s.stations p).ctl = .waiting c →
      (s.stations c).resp = 0 →
      (∀ q qr, s.forest.procs q = some qr → ¬ Held qr.fds (.respWrite c)) →
      TurnStep .other s (s.goto p .answering)
  | interrupted {s : Turns} {p c : Num} : s.forest.procs p ≠ none →
      (s.stations p).ctl = .waiting c → TurnStep (.interrupted p) s (s.goto p .answering)
  -- the end of a process
  | exit {s : Turns} {p : Num} {f : Forest} : PipeStep (.exit p) s.forest f →
      TurnStep .other s { s with forest := f }
  | killed {s : Turns} {p : Num} {f : Forest} : PipeStep (.killed p) s.forest f →
      TurnStep .other s { s with forest := f }

def firstTurns (inherited : Fd → Bool) : Turns where
  forest := firstForest inherited
  stations := fun _ => ⟨.loop, [], 0⟩
  next := 0
  ran := []

/-- The runs in which no signal comes while a process is in `child_wait`. -/
def turnSpec : Spec Turns :=
  Spec.under (fun s => ∃ inherited, s = firstTurns inherited) TurnStep
    fun _ a => ∀ p, a ≠ .interrupted p

/-! ## Whose turn it is -/

/-- Not between `child_wait` or a read line and the response to it. -/
def TurnAt.Rests (ctl : TurnAt) : Prop := ctl = .loop ∨ ctl = .exiting

/-- The child made by a `child_spawn` whose `child_wait` is still to come. -/
def SpawnStage.made : SpawnStage → Option Num
  | .forked n _ _ _ _ | .uninserted n _ _ => some n
  | _ => none

/-- A process takes part in the turn: it is not at rest, or a line or a response of it is on
its way. -/
def Turns.Part (s : Turns) (n : Num) : Prop :=
  s.forest.procs n ≠ none ∧ (¬ (s.stations n).ctl.Rests ∨ (s.stations n).cmd ≠ []) ∨
    (s.stations n).resp ≠ 0 ∧ ∃ g, s.forest.owner n = some g ∧ s.forest.procs g ≠ none

/-- A process is in `child_wait` for the child, or on its way to it. -/
def Turns.Waits (s : Turns) (p c : Num) : Prop :=
  s.forest.procs p ≠ none ∧ (s.stations p).ctl = .waiting c ∨
    ∃ line pr, (s.stations p).ctl = .running line ∧ s.forest.procs p = some pr ∧
      pr.stage.made = some c

/-- At most one line or one response is in the pipes of a process, and then it rests. -/
structure Station.Sane (st : Station) : Prop where
  cmd : st.cmd ≠ [] → st.ctl.Rests ∧ st.resp = 0 ∧ ∃ line, st.cmd = [line]
  resp : st.resp ≠ 0 → st.ctl.Rests ∧ st.resp = 1

/-- A child before its first line. -/
def Station.Fresh (st : Station) : Prop := st.cmd = [] ∧ (st.ctl = .starting ∨ st.ctl.Rests)

def Station.empty : Station := ⟨.loop, [], 0⟩

structure TurnBase (s : Turns) : Prop where
  forest : ForestInv s.forest
  sane : ∀ n, (s.stations n).Sane
  /-- The first process has no response pipe. -/
  silent : (s.stations 0).resp = 0
  unused : ∀ n, s.forest.count ≤ n → s.stations n = .empty
  born : ∀ p pr, s.forest.procs p = some pr → pr.stage.Born → (s.stations p).ctl = .starting
  making : ∀ p pr c, s.forest.procs p = some pr → pr.stage.num = some c →
    (∃ line, (s.stations p).ctl = .running line) ∧ (∀ m, s.forest.owner m ≠ some c) ∧
      (s.stations c).Fresh ∧ (pr.stage.Unborn c → s.stations c = .empty)
  awaits : ∀ p c, s.forest.procs p ≠ none → (s.stations p).ctl = .waiting c →
    s.forest.owner c = some p

/-- The station has a line that no command was run for. -/
def Station.Has (st : Station) (line : Nat) : Prop := st.ctl = .handling line ∨ line ∈ st.cmd

structure TurnInv (s : Turns) : Prop extends TurnBase s where
  path : OnePath s.forest.owner s.Part s.Waits
  root : s.forest.procs 0 ≠ none → ∀ n, s.Part n → ¬ (s.stations 0).ctl.Rests
  lines : ∀ n line, s.forest.procs n ≠ none → (s.stations n).Has line →
    line < s.next ∧ ∀ x ∈ s.ran, x.2 < line
  past : ∀ x ∈ s.ran, x.2 < s.next
  order : s.ran.Pairwise fun x y => x.2 < y.2

variable {s s' : Turns} {a : TurnAct} {p c n : Num} {pr pr' : PipeProc} {st : Station} {line : Nat}
  {f : Forest}

@[simp] theorem Turns.put_self : (s.put p st).stations p = st := Function.update_self ..

theorem Turns.put_of_ne (h : n ≠ p) : (s.put p st).stations n = s.stations n :=
  Function.update_of_ne h ..

theorem TurnInv.anti (h : TurnInv s) (a b : Num) (hab : Below s.forest.owner a b)
    (hba : Below s.forest.owner b a) : a = b :=
  Nat.le_antisymm (hab.le h.forest.older) (hba.le h.forest.older)

/-- Only `child_wait`, and what leads to it, waits. -/
theorem not_waits (hwait : ∀ c, (s.stations p).ctl ≠ .waiting c)
    (hrun : ∀ line, (s.stations p).ctl ≠ .running line) : ∀ c, ¬ s.Waits p c := by
  rintro c (⟨-, hc⟩ | ⟨line, _, hline, -⟩)
  · exact hwait c hc
  · exact hrun line hline

/-- A command that is over has no `child_wait` before it. -/
theorem not_waits_of_ready (hp : s.forest.procs p = some pr) (hready : pr.stage = .ready)
    (hwait : ∀ c, (s.stations p).ctl ≠ .waiting c) : ∀ c, ¬ s.Waits p c := by
  rintro c (⟨-, hc⟩ | ⟨_, x, -, hx, hmade⟩)
  · exact hwait c hc
  · rw [hp, Option.some.injEq] at hx
    rw [← hx, hready] at hmade
    cases hmade

theorem Station.Sane.of_busy (h : st.Sane) (hbusy : ¬ st.ctl.Rests) : st.cmd = [] ∧ st.resp = 0 :=
  ⟨not_not.mp fun hcmd => hbusy (h.cmd hcmd).1, not_not.mp fun hresp => hbusy (h.resp hresp).1⟩

/-- While the first process has a turn that it does not wait for, nobody else takes part. -/
theorem TurnInv.alone (h : TurnInv s) (hroot : s.forest.procs 0 ≠ none)
    (hbusy : ¬ (s.stations 0).ctl.Rests) (hfree : ∀ c, ¬ s.Waits 0 c) (hn : s.Part n) : n = 0 := by
  have hbelow : Below s.forest.owner 0 n := by
    rcases hn with ⟨hlive, -⟩ | ⟨-, g, hg, -⟩
    · rcases Option.ne_none_iff_exists'.mp hlive with ⟨x, hx⟩
      exact h.forest.below_root hx
    · exact h.forest.rooted n (by simp [hg])
  by_contra hne
  exact h.path.none_below (.inl ⟨hroot, .inl hbusy⟩) hfree hbelow (Ne.symm hne) hn

/-- Two that have a turn and do not wait are the same. -/
theorem TurnInv.unique (h : TurnInv s) (hp : s.Part p) (hn : s.Part n) (hfp : ∀ c, ¬ s.Waits p c)
    (hfn : ∀ c, ¬ s.Waits n c) : p = n :=
  h.path.unique h.anti hp hn hfp hfn

/-! ## Steps of the loops -/

/-- The station of one process changes. -/
theorem TurnBase.put (h : TurnBase s) (hcount : p < s.forest.count) (hsane : st.Sane)
    (hsilent : p = 0 → st.resp = 0)
    (hborn : ∀ pr, s.forest.procs p = some pr → pr.stage.Born → st.ctl = .starting)
    (hrun : ∀ pr c, s.forest.procs p = some pr → pr.stage.num = some c →
      ∃ line, st.ctl = .running line)
    (hfresh : (∃ m pr, s.forest.procs m = some pr ∧ pr.stage.num = some p) →
      (s.stations p).Fresh → st.Fresh)
    (hunborn : ∀ m pr, s.forest.procs m = some pr → ¬ pr.stage.Unborn p)
    (hawaits : ∀ c, s.forest.procs p ≠ none → st.ctl = .waiting c → s.forest.owner c = some p) :
    TurnBase (s.put p st) where
  forest := h.forest
  sane := by
    intro n
    by_cases heq : n = p
    · rw [heq, Turns.put_self]
      exact hsane
    · rw [Turns.put_of_ne heq]
      exact h.sane n
  silent := by
    by_cases heq : p = 0
    · subst heq
      rw [Turns.put_self]
      exact hsilent rfl
    · rw [Turns.put_of_ne (Ne.symm heq)]
      exact h.silent
  unused := by
    intro n hn
    rw [Turns.put_of_ne (Nat.ne_of_gt (Nat.lt_of_lt_of_le hcount hn))]
    exact h.unused n hn
  born := by
    intro n pr hn hb
    by_cases heq : n = p
    · rw [heq, Turns.put_self]
      exact hborn pr (heq ▸ hn) hb
    · rw [Turns.put_of_ne heq]
      exact h.born n pr hn hb
  making := by
    intro n pr c hn hnum
    rcases h.making n pr c hn hnum with ⟨hline, howner, hf, hempty⟩
    refine ⟨?_, howner, ?_, ?_⟩
    · by_cases heq : n = p
      · rw [heq, Turns.put_self]
        exact hrun pr c (heq ▸ hn) hnum
      · rw [Turns.put_of_ne heq]
        exact hline
    · by_cases heq : c = p
      · rw [heq, Turns.put_self]
        exact hfresh ⟨n, pr, hn, heq ▸ hnum⟩ (heq ▸ hf)
      · rw [Turns.put_of_ne heq]
        exact hf
    · intro hu
      rw [Turns.put_of_ne]
      · exact hempty hu
      · intro heq
        exact hunborn n pr hn (heq ▸ hu)
  awaits := by
    intro n c hn hc
    by_cases heq : n = p
    · rw [heq, Turns.put_self] at hc
      exact heq ▸ hawaits c (heq ▸ hn) hc
    · rw [Turns.put_of_ne heq] at hc
      exact h.awaits n c hn hc

/-- A process that runs goes on; it is not in the middle of `child_spawn`. -/
theorem TurnBase.goes (h : TurnBase s) (hp : s.forest.procs p = some pr) (hsane : st.Sane)
    (hsilent : p = 0 → st.resp = 0) (hborn : ¬ pr.stage.Born) (hnum : pr.stage.num = none)
    (hfresh : (∃ m pr, s.forest.procs m = some pr ∧ pr.stage.num = some p) →
      (s.stations p).Fresh → st.Fresh)
    (hawaits : ∀ c, st.ctl = .waiting c → s.forest.owner c = some p) : TurnBase (s.put p st) := by
  refine h.put (h.forest.counted p pr hp).1 hsane hsilent ?_ ?_ hfresh ?_ fun c _ => hawaits c
  · intro x hx hb
    rw [hp, Option.some.injEq] at hx
    exact absurd (hx ▸ hb) hborn
  · intro x c hx hc
    rw [hp, Option.some.injEq] at hx
    rw [← hx, hnum] at hc
    cases hc
  · intro m x hx hu
    have hnone := (h.forest.unborn m x p hx hu).1
    rw [hp] at hnone
    cases hnone

/-- Only a process in `parse_command` is in the middle of `child_spawn`. -/
theorem TurnBase.settled (h : TurnBase s) (hp : s.forest.procs p = some pr)
    (hstart : (s.stations p).ctl ≠ .starting) (hrun : ∀ line, (s.stations p).ctl ≠ .running line) :
    ¬ pr.stage.Born ∧ pr.stage.num = none := by
  refine ⟨fun hb => hstart (h.born p pr hp hb), ?_⟩
  cases hnum : pr.stage.num with
  | none => rfl
  | some c =>
      rcases (h.making p pr c hp hnum).1 with ⟨line, hline⟩
      exact absurd hline (hrun line)

theorem part_put_of_ne (h : n ≠ p) : (s.put p st).Part n ↔ s.Part n := by
  simp only [Turns.Part, Turns.put_of_ne h]
  rfl

theorem waits_put_of_ne (h : n ≠ p) : (s.put p st).Waits n c ↔ s.Waits n c := by
  simp only [Turns.Waits, Turns.put_of_ne h]
  rfl

/-- The first process comes to its prompt again only when the turn is over. -/
theorem TurnInv.root_put (h : TurnInv s) (hfree : ∀ c, ¬ s.Waits p c)
    (hpart : ∀ n, (s.put p st).Part n → s.Part n)
    (hzero : p = 0 → st.ctl.Rests → ¬ (s.stations 0).ctl.Rests ∧ st.cmd = [])
    (hlive : s.forest.procs 0 ≠ none) (hn : (s.put p st).Part n) :
    ¬ ((s.put p st).stations 0).ctl.Rests := by
  by_cases heq : p = 0
  · subst heq
    rw [Turns.put_self]
    intro hrests
    rcases hzero rfl hrests with ⟨hbusy, hcmd⟩
    have hn0 := h.alone hlive hbusy hfree (hpart n hn)
    subst hn0
    rcases hn with ⟨-, hctl | hne⟩ | ⟨-, g, hg, -⟩
    · rw [Turns.put_self] at hctl
      exact hctl hrests
    · rw [Turns.put_self] at hne
      exact hne hcmd
    · exact absurd (h.forest.older 0 g hg) (Nat.not_lt_zero g)
  · rw [Turns.put_of_ne (Ne.symm heq)]
    exact h.root hlive n (hpart n hn)

/-- A process that does not wait goes on with its turn, or ends it. -/
theorem TurnInv.put (h : TurnInv s) (hbase : TurnBase (s.put p st)) (hfree : ∀ c, ¬ s.Waits p c)
    (hp : s.Part p) (hzero : p = 0 → st.ctl.Rests → ¬ (s.stations 0).ctl.Rests ∧ st.cmd = [])
    (hhas : ∀ line, st.Has line → (s.stations p).Has line) : TurnInv (s.put p st) := by
  have hpart : ∀ n, (s.put p st).Part n → s.Part n := by
    intro n hn
    by_cases heq : n = p
    · exact heq ▸ hp
    · exact (part_put_of_ne heq).mp hn
  exact {
    toTurnBase := hbase
    path := by
      refine h.path.shrink hpart fun n c _ hwait => ?_
      by_cases heq : n = p
      · exact absurd (heq ▸ hwait) (hfree c)
      · exact (waits_put_of_ne heq).mpr hwait
    root := fun hlive n hn => h.root_put hfree hpart hzero hlive hn
    lines := by
      intro n line hlive hline
      by_cases heq : n = p
      · rw [heq, Turns.put_self] at hline
        exact h.lines p line (heq ▸ hlive) (hhas line hline)
      · rw [Turns.put_of_ne heq] at hline
        exact h.lines n line hlive hline
    past := h.past
    order := h.order }

/-- `child_wait` returns when nobody below the child takes part any more. -/
theorem TurnInv.wakes (h : TurnInv s) (hp : s.forest.procs p ≠ none)
    (hctl : (s.stations p).ctl = .waiting c)
    (hbase : TurnBase s') (hforest : s'.forest = s.forest)
    (hsame : ∀ n, n ≠ p → (s'.stations n).ctl = (s.stations n).ctl ∧
      (s'.stations n).cmd = (s.stations n).cmd ∧
      ((s'.stations n).resp ≠ 0 → (s.stations n).resp ≠ 0))
    (hans : (s'.stations p).ctl = .answering) (hcmd : (s'.stations p).cmd = [])
    (hnone : ∀ n, Below s.forest.owner c n → ¬ s'.Part n) (hnext : s'.next = s.next)
    (hran : s'.ran = s.ran) : TurnInv s' := by
  have hown := h.awaits p c hp hctl
  have hbusy : ¬ (s.stations p).ctl.Rests := by
    rw [hctl]
    rintro (heq | heq) <;> cases heq
  have hpart : ∀ n, s'.Part n → s.Part n := by
    intro n hn
    by_cases heq : n = p
    · exact .inl ⟨heq ▸ hp, .inl (heq ▸ hbusy)⟩
    · rcases hsame n heq with ⟨hctl', hcmd', hresp'⟩
      rw [Turns.Part, hforest, hctl', hcmd'] at hn
      exact hn.imp id fun hresp => ⟨hresp' hresp.1, hresp.2⟩
  exact {
    toTurnBase := hbase
    path := by
      rw [hforest]
      refine h.path.back (a := p) hpart (fun n hn hbelow => ?_) fun n d hne hwait => ?_
      · -- who takes part below was below the child
        by_contra hne
        rcases h.path.down p n (.inl ⟨hp, .inl hbusy⟩) (hpart n hn) (Ne.symm hne) hbelow with
          ⟨d, hd, hdn, hwait⟩
        rcases hwait with ⟨-, hctl'⟩ | ⟨line, _, hline, -⟩
        · rw [hctl, TurnAt.waiting.injEq] at hctl'
          exact hnone n (hctl' ▸ hdn) hn
        · rw [hctl] at hline
          cases hline
      · rw [Turns.Waits, hforest, (hsame n hne).1]
        exact hwait
    root := by
      rw [hforest]
      intro hlive n hn
      by_cases heq : p = 0
      · rw [← heq, hans]
        rintro (hr | hr) <;> cases hr
      · rw [(hsame 0 (Ne.symm heq)).1]
        exact h.root hlive n (hpart n hn)
    lines := by
      rw [hforest, hnext, hran]
      intro n line hlive hline
      by_cases heq : n = p
      · rw [heq] at hline
        rcases hline with hline | hline
        · rw [hans] at hline
          cases hline
        · rw [hcmd] at hline
          cases hline
      · refine h.lines n line hlive ?_
        rwa [Station.Has, (hsame n heq).1, (hsame n heq).2.1] at hline
    past := by rw [hnext, hran]; exact h.past
    order := by rw [hran]; exact h.order }

theorem Station.Sane.goto (h : st.Sane) (hbusy : ¬ st.ctl.Rests) (ctl : TurnAt) :
    Station.Sane { st with ctl := ctl } where
  cmd := fun hcmd => absurd (h.of_busy hbusy).1 hcmd
  resp := fun hresp => absurd (h.of_busy hbusy).2 hresp

theorem Station.Sane.respond (h : st.Sane) (hbusy : ¬ st.ctl.Rests) {ctl : TurnAt}
    (hctl : ctl.Rests) : Station.Sane { st with ctl := ctl, resp := st.resp + 1 } where
  cmd := fun hcmd => absurd (h.of_busy hbusy).1 hcmd
  resp := fun _ => ⟨hctl, by simp [(h.of_busy hbusy).2]⟩

/-- A busy process goes on to another place in its loop. -/
theorem TurnInv.goto (h : TurnInv s) (hp : s.forest.procs p = some pr)
    (hbusy : ¬ (s.stations p).ctl.Rests) (hfree : ∀ c, ¬ s.Waits p c) (hborn : ¬ pr.stage.Born)
    (hnum : pr.stage.num = none) {ctl : TurnAt} (hwait : ∀ c, ctl ≠ .waiting c)
    (hhand : ∀ line, ctl ≠ .handling line) (hfresh : ¬ (s.stations p).Fresh ∨ ctl.Rests) :
    TurnInv (s.goto p ctl) := by
  have hcmd := ((h.sane p).of_busy hbusy).1
  have hpart : s.Part p := .inl ⟨by simp [hp], .inl hbusy⟩
  refine h.put (h.goes hp ((h.sane p).goto hbusy ctl) ?_ hborn hnum ?_ ?_) hfree hpart ?_ ?_
  · rintro rfl
    exact h.silent
  · intro _ hf
    exact ⟨hf.1, .inr (hfresh.resolve_left fun hnot => hnot hf)⟩
  · exact fun c hc => absurd hc (hwait c)
  · rintro rfl -
    exact ⟨hbusy, hcmd⟩
  · rintro line (hline | hline)
    · exact absurd hline (hhand line)
    · exact .inr hline

/-- A busy process responds. -/
theorem TurnInv.respond (h : TurnInv s) (hp : s.forest.procs p = some pr) (hzero : p ≠ 0)
    (hbusy : ¬ (s.stations p).ctl.Rests) (hfree : ∀ c, ¬ s.Waits p c) (hborn : ¬ pr.stage.Born)
    (hnum : pr.stage.num = none) {ctl : TurnAt} (hctl : ctl.Rests) :
    TurnInv (s.respond p ctl) := by
  have hpart : s.Part p := .inl ⟨by simp [hp], .inl hbusy⟩
  have hsane := (h.sane p).respond hbusy hctl
  refine h.put (h.goes hp hsane (fun heq => absurd heq hzero) hborn hnum ?_ ?_) hfree hpart
    (fun heq => absurd heq hzero) ?_
  · exact fun _ hf => ⟨hf.1, .inr hctl⟩
  · rintro c hc
    rcases hctl with hr | hr <;> rw [hr] at hc <;> cases hc
  · rintro line (hline | hline)
    · rcases hctl with hr | hr <;> rw [hr] at hline <;> cases hline
    · exact .inr hline

/-- A line that is read was on its way. -/
theorem TurnInv.readlineNi (h : TurnInv s) (hp : s.forest.procs p = some pr)
    (hctl : (s.stations p).ctl = .loop) {rest : List Nat}
    (hcmd : (s.stations p).cmd = line :: rest) :
    TurnInv (s.put p { s.stations p with ctl := .handling line, cmd := rest }) := by
  have hne : (s.stations p).cmd ≠ [] := by simp [hcmd]
  rcases (h.sane p).cmd hne with ⟨-, hresp, line', hone⟩
  rw [hcmd, List.cons.injEq] at hone
  have hset := h.settled hp (by simp [hctl]) (by simp [hctl])
  refine h.put (h.goes hp ⟨fun hc => absurd hone.2 hc, fun hr => absurd hresp hr⟩ ?_ hset.1 hset.2
    ?_ (fun c hc => by cases hc)) (not_waits (by simp [hctl]) (by simp [hctl]))
    (.inl ⟨by simp [hp], .inr hne⟩) ?_ ?_
  · rintro rfl
    exact h.silent
  · exact fun _ hf => absurd hf.1 hne
  · rintro - (hr | hr) <;> cases hr
  · rintro line' (hline | hline)
    · cases hline
      exact .inr (by simp [hcmd])
    · exact absurd (hone.2 ▸ hline) List.not_mem_nil

/-- Between two turns nobody takes part; the next line starts one. -/
theorem TurnInv.readline (h : TurnInv s) (hp : s.forest.procs 0 = some pr)
    (hctl : (s.stations 0).ctl = .loop) :
    TurnInv { s.goto 0 (.handling s.next) with next := s.next + 1 } := by
  have hnone : ∀ n, ¬ s.Part n := by
    intro n hn
    exact h.root (by simp [hp]) n hn (by rw [hctl]; exact .inl rfl)
  have hcmd : (s.stations 0).cmd = [] := by
    by_contra hne
    exact hnone 0 (.inl ⟨by simp [hp], .inr hne⟩)
  have hset := h.settled hp (by simp [hctl]) (by simp [hctl])
  have hbase : TurnBase (s.goto 0 (.handling s.next)) := by
    refine h.goes hp ⟨fun hc => absurd hcmd hc, fun hr => absurd h.silent hr⟩ (fun _ => h.silent)
      hset.1 hset.2 ?_ fun c hc => by cases hc
    -- the first process is nobody's child
    rintro ⟨m, x, hx, hnum⟩
    have hlt := h.forest.older 0 m ((h.forest.holds m x hx).spawning 0 hnum).1
    exact absurd hlt (Nat.not_lt_zero m)
  have hother : ∀ n, (s.goto 0 (.handling s.next)).Part n → n = 0 := by
    intro n hn
    by_contra hne
    exact hnone n ((part_put_of_ne hne).mp hn)
  exact {
    hbase with
    path := OnePath.single hother
    root := by
      intro _ n _ hrests
      have hself : ((s.goto 0 (.handling s.next)).stations 0).ctl = .handling s.next := by
        rw [Turns.goto, Turns.put_self]
      rcases hrests with hr | hr <;> rw [hself] at hr <;> cases hr
    lines := by
      intro n line hlive hline
      by_cases heq : n = 0
      · subst heq
        rw [show (s.goto 0 (.handling s.next)).stations 0 = _ from Turns.put_self] at hline
        rcases hline with hline | hline
        · cases hline
          exact ⟨Nat.lt_succ_self _, h.past⟩
        · exact absurd hline (by simp [hcmd])
      · rw [show (s.goto 0 (.handling s.next)).stations n = _ from Turns.put_of_ne heq] at hline
        refine absurd (hnone n) (not_not.mpr (.inl ⟨hlive, ?_⟩))
        rcases hline with hline | hline
        · exact .inl (by rw [hline]; rintro (hr | hr) <;> cases hr)
        · exact .inr (List.ne_nil_of_mem hline)
    past := fun x hx => Nat.lt_succ_of_lt (h.past x hx)
    order := h.order }

theorem TurnAt.busy_of_handling {ctl : TurnAt} (h : ctl = .handling line) : ¬ ctl.Rests := by
  rw [h]
  rintro (hr | hr) <;> cases hr

/-- The line of a process that is about to run its command is in no other process. -/
theorem TurnInv.parseCommand (h : TurnInv s) (hp : s.forest.procs p = some pr)
    (hctl : (s.stations p).ctl = .handling line) :
    TurnInv { s.goto p (.running line) with ran := s.ran ++ [(p, line)] } := by
  have hbusy := TurnAt.busy_of_handling hctl
  have hfree := not_waits (s := s) (p := p) (by simp [hctl]) (by simp [hctl])
  have hset := h.settled hp (by simp [hctl]) (by simp [hctl])
  have hgoto : TurnInv (s.goto p (.running line)) := by
    refine h.goto hp hbusy hfree hset.1 hset.2 (fun c hc => by cases hc) (fun l hl => by cases hl)
      (.inl fun hf => ?_)
    rcases hf.2 with hs | hr
    · rw [hctl] at hs
      cases hs
    · exact hbusy hr
  have hline := h.lines p line (by simp [hp]) (.inl hctl)
  have hpart : s.Part p := .inl ⟨by simp [hp], .inl hbusy⟩
  exact {
    toTurnBase := { hgoto.toTurnBase with }
    path := hgoto.path
    root := hgoto.root
    lines := by
      intro n l hlive hl
      exfalso
      by_cases heq : n = p
      · subst heq
        rw [show (s.goto n (.running line)).stations n = _ from Turns.put_self] at hl
        rcases hl with hl | hl
        · cases hl
        · rw [((h.sane n).of_busy hbusy).1] at hl
          exact absurd hl List.not_mem_nil
      · rw [show (s.goto p (.running line)).stations n = _ from Turns.put_of_ne heq] at hl
        -- it would have a turn of its own
        rcases hl with hl | hl
        · refine heq (h.unique (.inl ⟨hlive, .inl (TurnAt.busy_of_handling hl)⟩) hpart ?_ hfree)
          exact not_waits (by simp [hl]) (by simp [hl])
        · have hcmd := List.ne_nil_of_mem hl
          refine heq (h.unique (.inl ⟨hlive, .inr hcmd⟩) hpart ?_ hfree)
          rcases ((h.sane n).cmd hcmd).1 with hr | hr <;>
            exact not_waits (by simp [hr]) (by simp [hr])
    past := by
      intro x hx
      rcases List.mem_append.mp hx with hx | hx
      · exact h.past x hx
      · rw [List.mem_singleton.mp hx]
        exact hline.1
    order := by
      refine List.pairwise_append.mpr ⟨h.order, List.pairwise_singleton _ _, ?_⟩
      intro x hx y hy
      rw [List.mem_singleton.mp hy]
      exact hline.2 x hx }

/-- The turn goes on to a child. -/
theorem TurnInv.childSend (h : TurnInv s) (hp : s.forest.procs p = some pr)
    (hctl : (s.stations p).ctl = .handling line) (hown : s.forest.owner n = some p)
    (hlive : s.forest.procs n ≠ none) :
    TurnInv ((s.goto p (.waiting n)).put n
      { s.stations n with cmd := (s.stations n).cmd ++ [line] }) := by
  have hlt : p < n := h.forest.older n p hown
  have hnp : n ≠ p := Nat.ne_of_gt hlt
  have hn0 : n ≠ 0 := Nat.ne_of_gt (Nat.lt_of_le_of_lt (Nat.zero_le p) hlt)
  have hbusy := TurnAt.busy_of_handling hctl
  have hfree := not_waits (s := s) (p := p) (by simp [hctl]) (by simp [hctl])
  have hset := h.settled hp (by simp [hctl]) (by simp [hctl])
  have hpart : s.Part p := .inl ⟨by simp [hp], .inl hbusy⟩
  -- the child does not take part yet
  have hout : ¬ s.Part n :=
    h.path.none_below hpart hfree ((Below.refl _ p).child hown) (Ne.symm hnp)
  have hrests : (s.stations n).ctl.Rests := by
    by_contra hr
    exact hout (.inl ⟨hlive, .inl hr⟩)
  have hcmd : (s.stations n).cmd = [] := by
    by_contra hc
    exact hout (.inl ⟨hlive, .inr hc⟩)
  have hresp : (s.stations n).resp = 0 := by
    by_contra hr
    exact hout (.inr ⟨hr, p, hown, by simp [hp]⟩)
  have hmaking : ∀ m x, s.forest.procs m = some x → x.stage.num ≠ some n := by
    intro m x hx hnum
    have hmp : m = p :=
      Option.some.inj ((((h.forest.holds m x hx).spawning n hnum).1).symm.trans hown)
    rcases (h.making m x n hx hnum).1 with ⟨l, hl⟩
    rw [hmp, hctl] at hl
    cases hl
  have hstart : (s.stations n).ctl ≠ .starting := by rcases hrests with hr | hr <;> simp [hr]
  have hrun : ∀ l, (s.stations n).ctl ≠ .running l := by rcases hrests with hr | hr <;> simp [hr]
  have hwait : ∀ d, (s.stations n).ctl ≠ .waiting d := by rcases hrests with hr | hr <;> simp [hr]
  have hgoto : TurnBase (s.goto p (.waiting n)) := by
    refine h.goes hp ((h.sane p).goto hbusy _) ?_ hset.1 hset.2 ?_ ?_
    · rintro rfl
      exact h.silent
    · intro _ hf
      rcases hf.2 with hs | hr
      · rw [hctl] at hs
        cases hs
      · exact absurd hr hbusy
    · intro c hc
      cases hc
      exact hown
  have hgn : (s.goto p (.waiting n)).stations n = s.stations n := Turns.put_of_ne hnp
  have hbase : TurnBase ((s.goto p (.waiting n)).put n
      { s.stations n with cmd := (s.stations n).cmd ++ [line] }) := by
    refine hgoto.put (h.forest.old n p hown).2 ?_ (fun hz => absurd hz hn0) ?_ ?_ ?_ ?_ ?_
    · exact ⟨fun _ => ⟨hrests, hresp, line, by simp [hcmd]⟩, fun hr => absurd hresp hr⟩
    · exact fun x hx hb => absurd (h.born n x hx hb) hstart
    · intro x c hx hnum
      rcases (h.making n x c hx hnum).1 with ⟨l, hl⟩
      exact absurd hl (hrun l)
    · rintro ⟨m, x, hx, hnum⟩
      exact absurd hnum (hmaking m x hx)
    · exact fun m x hx hu => hmaking m x hx hu.num
    · exact fun c _ hc => absurd hc (hwait c)
  have hself : ((s.goto p (.waiting n)).put n
      { s.stations n with cmd := (s.stations n).cmd ++ [line] }).stations p =
        { s.stations p with ctl := .waiting n } := by
    rw [Turns.put_of_ne (Ne.symm hnp)]
    exact Turns.put_self
  have hpart' : ∀ b, ((s.goto p (.waiting n)).put n
      { s.stations n with cmd := (s.stations n).cmd ++ [line] }).Part b → s.Part b ∨ b = n := by
    intro b hb
    by_cases hbn : b = n
    · exact .inr hbn
    · by_cases hbp : b = p
      · exact .inl (hbp ▸ hpart)
      · exact .inl ((part_put_of_ne hbp).mp ((part_put_of_ne hbn).mp hb))
  exact {
    toTurnBase := hbase
    path := by
      refine h.path.pass hpart hfree hown hpart' ?_ h.anti ?_
      · exact .inl ⟨fun hnone => (by cases hp.symm.trans hnone), by rw [hself]⟩
      · intro b d hw
        by_cases hbn : b = n
        · exact absurd (hbn ▸ hw) (not_waits hwait hrun d)
        · by_cases hbp : b = p
          · exact absurd (hbp ▸ hw) (hfree d)
          · exact (waits_put_of_ne hbn).mpr ((waits_put_of_ne hbp).mpr hw)
    root := by
      intro hroot b _
      by_cases hz : 0 = p
      · rw [hz, hself]
        rintro (hr | hr) <;> cases hr
      · rw [Turns.put_of_ne (Ne.symm hn0), show (s.goto p (.waiting n)).stations 0 = s.stations 0 from
          Turns.put_of_ne hz]
        exact h.root hroot p hpart
    lines := by
      intro b l hb hl
      by_cases hbn : b = n
      · rw [hbn, Turns.put_self] at hl
        rcases hl with hl | hl
        · exact absurd hrests (TurnAt.busy_of_handling hl)
        · rw [hcmd] at hl
          rw [List.mem_singleton.mp hl]
          exact h.lines p line (by simp [hp]) (.inl hctl)
      · by_cases hbp : b = p
        · rw [hbp, hself] at hl
          rcases hl with hl | hl
          · cases hl
          · exact h.lines p l (by simp [hp]) (.inr hl)
        · rw [Turns.put_of_ne hbn, show (s.goto p (.waiting n)).stations b = s.stations b from
            Turns.put_of_ne hbp] at hl
          exact h.lines b l hb hl
    past := h.past
    order := h.order }

/-- A response is read: the child rests, and nobody below it takes part. -/
theorem TurnInv.woken (h : TurnInv s) (hp : s.forest.procs p = some pr)
    (hctl : (s.stations p).ctl = .waiting n) (hresp : (s.stations n).resp ≠ 0) :
    TurnInv ((s.goto p .answering).put n
      { s.stations n with resp := (s.stations n).resp - 1 }) := by
  have hown := h.awaits p n (by simp [hp]) hctl
  have hlt : p < n := h.forest.older n p hown
  have hnp : n ≠ p := Nat.ne_of_gt hlt
  have hbusy : ¬ (s.stations p).ctl.Rests := by
    rw [hctl]
    rintro (hr | hr) <;> cases hr
  have hset := h.settled hp (by simp [hctl]) (by simp [hctl])
  rcases (h.sane n).resp hresp with ⟨hrests, hone⟩
  have hcmd : (s.stations n).cmd = [] := by
    by_contra hc
    exact hresp ((h.sane n).cmd hc).2.1
  have hfree : ∀ c, ¬ s.Waits n c := by
    rcases hrests with hr | hr <;> exact not_waits (by simp [hr]) (by simp [hr])
  have hpart : s.Part n := .inr ⟨hresp, p, hown, by simp [hp]⟩
  have hgoto : TurnBase (s.goto p .answering) := by
    refine h.goes hp ((h.sane p).goto hbusy _) ?_ hset.1 hset.2 ?_ fun c hc => by cases hc
    · rintro rfl
      exact h.silent
    · intro _ hf
      rcases hf.2 with hs | hr
      · rw [hctl] at hs
        cases hs
      · exact absurd hr hbusy
  have hgn : (s.goto p .answering).stations n = s.stations n := Turns.put_of_ne hnp
  have hself : ((s.goto p .answering).put n
      { s.stations n with resp := (s.stations n).resp - 1 }).stations p =
        { s.stations p with ctl := .answering } := by
    rw [Turns.put_of_ne (Ne.symm hnp)]
    exact Turns.put_self
  refine h.wakes (p := p) (c := n) (by simp [hp]) hctl ?_ rfl ?_ (by rw [hself]) ?_ ?_ rfl rfl
  · refine hgoto.put (h.forest.old n p hown).2 ?_ ?_ ?_ ?_ ?_ ?_ ?_
    · exact ⟨fun hc => absurd hcmd hc, fun hr => absurd hr (by simp [hone])⟩
    · rintro rfl
      exact absurd hlt (Nat.not_lt_zero p)
    · intro x hx hb
      exact h.born n x hx hb
    · intro x c hx hnum
      exact (h.making n x c hx hnum).1
    · exact fun _ hf => ⟨hcmd, hgn ▸ hf.2⟩
    · intro m x hx hu
      have hempty := (h.making m x n hx hu.num).2.2.2 hu
      rw [hempty] at hresp
      exact hresp rfl
    · exact fun c hc hw => h.awaits n c hc hw
  · intro b hbp
    by_cases hbn : b = n
    · subst hbn
      rw [Turns.put_self]
      exact ⟨rfl, rfl, fun _ => hresp⟩
    · rw [Turns.put_of_ne hbn, show (s.goto p .answering).stations b = s.stations b from
        Turns.put_of_ne hbp]
      exact ⟨rfl, rfl, id⟩
  · rw [hself]
    exact ((h.sane p).of_busy hbusy).1
  · intro b hbelow hb
    by_cases hbn : b = n
    · subst hbn
      rw [Turns.Part, Turns.put_self] at hb
      rcases hb with ⟨-, hr | hc⟩ | ⟨hr, -⟩
      · exact hr hrests
      · exact hc hcmd
      · exact hr (by simp [hone])
    · have hbp : b ≠ p := by
        rintro rfl
        exact absurd (hbelow.le h.forest.older) (Nat.not_le_of_lt hlt)
      exact h.path.none_below hpart hfree hbelow (Ne.symm hbn)
        ((part_put_of_ne hbp).mp ((part_put_of_ne hbn).mp hb))

/-- End of file: nobody below the child is left. -/
theorem TurnInv.eof (h : TurnInv s) (hp : s.forest.procs p = some pr)
    (hctl : (s.stations p).ctl = .waiting n) (hresp : (s.stations n).resp = 0)
    (hnone : ∀ q qr, s.forest.procs q = some qr → ¬ Held qr.fds (.respWrite n)) :
    TurnInv (s.goto p .answering) := by
  have hown := h.awaits p n (by simp [hp]) hctl
  have hlt : p < n := h.forest.older n p hown
  have hbusy : ¬ (s.stations p).ctl.Rests := by
    rw [hctl]
    rintro (hr | hr) <;> cases hr
  have hset := h.settled hp (by simp [hctl]) (by simp [hctl])
  have hdead : ∀ q, Below s.forest.owner n q → s.forest.procs q = none := by
    intro q hbelow
    by_contra hq
    rcases Option.ne_none_iff_exists'.mp hq with ⟨qr, hqr⟩
    exact hnone q qr hqr ((h.forest.holds q qr hqr).carries n hbelow (by simp [hown]))
  have hself : (s.goto p .answering).stations p = { s.stations p with ctl := .answering } :=
    Turns.put_self
  refine h.wakes (p := p) (c := n) (by simp [hp]) hctl ?_ rfl ?_ (by rw [hself]) ?_ ?_ rfl rfl
  · refine h.goes hp ((h.sane p).goto hbusy _) ?_ hset.1 hset.2 ?_ fun c hc => by cases hc
    · rintro rfl
      exact h.silent
    · intro _ hf
      rcases hf.2 with hs | hr
      · rw [hctl] at hs
        cases hs
      · exact absurd hr hbusy
  · intro b hbp
    rw [show (s.goto p .answering).stations b = s.stations b from Turns.put_of_ne hbp]
    exact ⟨rfl, rfl, id⟩
  · rw [hself]
    exact ((h.sane p).of_busy hbusy).1
  · intro b hbelow hb
    have hbp : b ≠ p := by
      rintro rfl
      exact absurd (hbelow.le h.forest.older) (Nat.not_le_of_lt hlt)
    rcases (part_put_of_ne hbp).mp hb with ⟨hlive, -⟩ | ⟨hr, g, hg, hglive⟩
    · exact hlive (hdead b hbelow)
    · rcases below_iff.mp hbelow with heq | ⟨g', hg', hbelow'⟩
      · exact hr (heq ▸ hresp)
      · rw [hg, Option.some.injEq] at hg'
        exact hglive (hdead g (hg' ▸ hbelow'))

end Memtoy
