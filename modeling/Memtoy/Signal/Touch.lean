import Memtoy.Lib.Trans
import Memtoy.Segment.Range

/-!
# Signal.Touch — faults while memory is touched

`touch_memory` saves a jump buffer, sets `sigjmp`, accesses a page and clears
`sigjmp` again, once for each page; `signal_handler` jumps to the buffer when a
fault finds `sigjmp` set. The steps below are the single assignments of either,
and a signal can be delivered between any two of them, except within the handler:
it runs with all signals blocked (`sigfillset(&act.sa_mask)`).

The invariant `SigInv` ties the flag to the iteration that set it; from it follows
that the jump never leaves the iteration it was saved in (`fault_jump_safe`).
-/

namespace Memtoy

open Trans

/-! ## State -/

/-- `signals_to_handle[]` -/
inductive Sig where
  | sigint
  | sigquit
  | sigsegv
  | sigbus
  | sigusr1
  | sigusr2
deriving DecidableEq, Repr

/-- `case SIGSEGV: case SIGBUS:` -/
def Sig.isFault (sig : Sig) : Bool := sig = .sigsegv ∨ sig = .sigbus

/-- `case SIGINT: case SIGQUIT:` -/
def Sig.isIgnored (sig : Sig) : Bool := sig = .sigint ∨ sig = .sigquit

/-- The local variables of `touch_memory`'s loop. -/
structure TouchFrame where
  pp : Word
  memend : Word
  longsInPage : Word
deriving DecidableEq, Repr

/-- `memend = memp + memlen/sizeof(unsigned long); pp = memp` -/
def TouchFrame.start (memp memlen pagesize : Word) : TouchFrame where
  pp := memp
  memend := memp + memlen / sizeofLong * sizeofLong
  longsInPage := pagesize / sizeofLong

/-- `pp += longs_in_page` -/
def TouchFrame.next (f : TouchFrame) : TouchFrame :=
  { f with pp := f.pp + f.longsInPage * sizeofLong }

/-- One iteration of the loop; no two have the same number. -/
structure Iteration where
  number : Nat
  frame : TouchFrame
deriving DecidableEq, Repr

/-- The statement of the loop body that comes next. -/
inductive BodyAt where
  /-- At `sigsetjmp(gcp->sigjmp_env, true)`. -/
  | setjmp
  /-- It has returned zero: at `gcp->sigjmp = true`. -/
  | arm
  | access
  /-- At `gcp->sigjmp = false`. -/
  | disarm
  /-- `sigsetjmp` has returned again: at `show_siginfo()`. -/
  | recover
  /-- At `gcp->siginfo != NULL`. -/
  | check
deriving DecidableEq, Repr

/-- Where the program is. -/
inductive MainAt where
  | outside
  /-- In a `reset_signal()` outside `touch_memory`, at `glctx.sigjmp = false`. -/
  | resetting
  /-- At `pp < memend`. -/
  | loopTest (frame : TouchFrame)
  | body (it : Iteration) (next : BodyAt)
  /-- In the `reset_signal()` before a `break`. -/
  | breakInfo
  | breakJmp
deriving DecidableEq, Repr

/-- Where `signal_handler` is. -/
inductive SigHandlerAt where
  | entered
  /-- At `switch (sig)`. -/
  | dispatch
  /-- At `siglongjmp(gcp->sigjmp_env, 1)`. -/
  | jump
  /-- In `die()`. -/
  | dying
deriving DecidableEq, Repr

/-- What the program and the handler share. -/
structure SigState where
  main : MainAt
  handler : Option (Sig × SigHandlerAt)
  /-- `gcp->siginfo`, with the signal's number only. -/
  siginfo : Option Sig
  sigjmp : Bool
  /-- The iteration whose context is in `gcp->sigjmp_env`. -/
  sigjmpEnv : Option Iteration
  /-- The number of iterations begun. -/
  count : Nat
deriving DecidableEq, Repr

/-- `touch_memory` is executing. -/
def MainAt.inTouch : MainAt → Bool
  | .outside | .resetting => false
  | _ => true

/-- The iteration has executed `sigjmp = true`, and not yet `sigjmp = false`. -/
def MainAt.Armed (m : MainAt) (it : Iteration) : Prop :=
  m = .body it .access ∨ m = .body it .disarm

/-! ## Steps -/

/-- The steps of the program, with no handler running; the delivery of a signal; and
the steps of the handler. A fault is a delivery at the access that faults. -/
inductive SigStep : SigState → SigState → Prop where
  -- outside touch_memory
  | resetInfo {s : SigState} : s.handler = none → s.main = .outside →
      SigStep s { s with siginfo := none, main := .resetting }
  | resetJmp {s : SigState} : s.handler = none → s.main = .resetting →
      SigStep s { s with sigjmp := false, main := .outside }
  | touch {s : SigState} (memp memlen pagesize : Word) : s.handler = none → s.main = .outside →
      SigStep s { s with main := .loopTest (.start memp memlen pagesize) }
  -- the loop of touch_memory
  | iterate {s : SigState} {f : TouchFrame} : s.handler = none → s.main = .loopTest f →
      f.pp < f.memend →
      SigStep s { s with main := .body ⟨s.count, f⟩ .setjmp, count := s.count + 1 }
  | finish {s : SigState} {f : TouchFrame} : s.handler = none → s.main = .loopTest f →
      ¬ f.pp < f.memend → SigStep s { s with main := .outside }
  | setjmp {s : SigState} {it : Iteration} : s.handler = none → s.main = .body it .setjmp →
      SigStep s { s with sigjmpEnv := some it, main := .body it .arm }
  | arm {s : SigState} {it : Iteration} : s.handler = none → s.main = .body it .arm →
      SigStep s { s with sigjmp := true, main := .body it .access }
  | access {s : SigState} {it : Iteration} : s.handler = none → s.main = .body it .access →
      SigStep s { s with main := .body it .disarm }
  | disarm {s : SigState} {it : Iteration} : s.handler = none → s.main = .body it .disarm →
      SigStep s { s with sigjmp := false, main := .body it .check }
  | again {s : SigState} {it : Iteration} : s.handler = none → s.main = .body it .check →
      s.siginfo = none → SigStep s { s with main := .loopTest it.frame.next }
  | signalled {s : SigState} {it : Iteration} : s.handler = none → s.main = .body it .check →
      s.siginfo ≠ none → SigStep s { s with main := .breakInfo }
  | recover {s : SigState} {it : Iteration} : s.handler = none → s.main = .body it .recover →
      SigStep s { s with main := .breakInfo }
  | breakInfo {s : SigState} : s.handler = none → s.main = .breakInfo →
      SigStep s { s with siginfo := none, main := .breakJmp }
  | breakJmp {s : SigState} : s.handler = none → s.main = .breakJmp →
      SigStep s { s with sigjmp := false, main := .outside }
  -- signals
  | deliver {s : SigState} (sig : Sig) : s.handler = none →
      SigStep s { s with handler := some (sig, .entered) }
  | save {s : SigState} {sig : Sig} : s.handler = some (sig, .entered) →
      SigStep s { s with siginfo := some sig, handler := some (sig, .dispatch) }
  | clear {s : SigState} {sig : Sig} : s.handler = some (sig, .dispatch) → sig.isFault = true →
      s.sigjmp = true → SigStep s { s with sigjmp := false, handler := some (sig, .jump) }
  | notArmed {s : SigState} {sig : Sig} : s.handler = some (sig, .dispatch) → sig.isFault = true →
      s.sigjmp = false → SigStep s { s with handler := some (sig, .dying) }
  | jump {s : SigState} {sig : Sig} {it : Iteration} : s.handler = some (sig, .jump) →
      s.sigjmpEnv = some it → SigStep s { s with handler := none, main := .body it .recover }
  | returns {s : SigState} {sig : Sig} : s.handler = some (sig, .dispatch) →
      sig.isIgnored = true → SigStep s { s with handler := none }
  | unexpected {s : SigState} {sig : Sig} : s.handler = some (sig, .dispatch) →
      sig.isFault = false → sig.isIgnored = false →
      SigStep s { s with handler := some (sig, .dying) }

/-- From `set_signals()` on, with the context zeroed by `init_glctx`. -/
def sigStart : SigState where
  main := .outside
  handler := none
  siginfo := none
  sigjmp := false
  sigjmpEnv := none
  count := 0

def sigSpec : Spec SigState where
  Init := fun s => s = sigStart
  Next := SigStep

/-! ## Invariant -/

/-- The iteration has executed `sigsetjmp`, and not yet `sigjmp = false`. -/
def MainAt.Saved (m : MainAt) (it : Iteration) : Prop := m = .body it .arm ∨ m.Armed it

structure SigInv (s : SigState) : Prop where
  /-- The jump buffer is the one of the iteration that is about to use it. -/
  buffer : ∀ it, s.main.Saved it → s.sigjmpEnv = some it
  /-- The flag is set within one iteration only. -/
  flag : s.sigjmp = true → ∃ it, s.main.Armed it
  /-- On its way to the jump the handler has cleared the flag that iteration set. -/
  jumping : ∀ sig, s.handler = some (sig, .jump) → s.sigjmp = false ∧ ∃ it, s.main.Armed it

theorem sigStart_inv : SigInv sigStart where
  buffer := by
    rintro it (h | h | h) <;> cases h
  flag := by
    intro h
    cases h
  jumping := by
    intro sig h
    cases h

/-- The flag is clear while no iteration is armed. -/
theorem SigInv.flag_clear {s : SigState} (h : SigInv s) (hmain : ∀ it, ¬ s.main.Armed it) :
    s.sigjmp = false := by
  by_contra hc
  obtain ⟨it, harmed⟩ := h.flag (by simpa using hc)
  exact hmain it harmed

/-- With no handler running and the flag clear, only the jump buffer matters. -/
theorem SigInv.of_clear {s : SigState} (hhandler : s.handler = none) (hflag : s.sigjmp = false)
    (hbuffer : ∀ it, s.main.Saved it → s.sigjmpEnv = some it) : SigInv s := by
  refine ⟨hbuffer, ?_, ?_⟩
  · intro hset
    rw [hflag] at hset
    cases hset
  · intro sig hjump
    rw [hhandler] at hjump
    cases hjump

/-- The handler runs on top of the program, which stays where it is. -/
theorem SigInv.of_handler {s s' : SigState} (h : SigInv s) (hmain : s'.main = s.main)
    (henv : s'.sigjmpEnv = s.sigjmpEnv) (hflag : s'.sigjmp = s.sigjmp)
    (hno : ∀ sig, s'.handler ≠ some (sig, .jump)) : SigInv s' := by
  refine ⟨?_, ?_, fun sig hjump => absurd hjump (hno sig)⟩
  · rw [hmain, henv]
    exact h.buffer
  · rw [hmain, hflag]
    exact h.flag

/-- Every step of the program, every delivery and every step of the handler keeps the
invariant. -/
theorem SigStep.inv {s s' : SigState} (hstep : SigStep s s') (h : SigInv s) : SigInv s' := by
  cases hstep with
  | resetInfo hh hm | resetJmp hh hm | touch _ _ _ hh hm | finish hh hm _ | disarm hh hm
  | breakInfo hh hm | breakJmp hh hm | again hh hm _ | signalled hh hm _ | recover hh hm
  | iterate hh hm _ =>
      -- where the step ends nothing is saved, and the flag is clear or cleared
      refine .of_clear hh ?_ ?_
      · first
          | rfl
          | refine h.flag_clear fun it harmed => ?_
            rcases harmed with hc | hc <;> rw [hm] at hc <;> cases hc
      · rintro it (hc | hc | hc) <;> cases hc
  | setjmp hh hm =>
      refine .of_clear hh ?_ ?_
      · refine h.flag_clear fun it harmed => ?_
        rcases harmed with hc | hc <;> rw [hm] at hc <;> cases hc
      · rintro it (hc | hc | hc) <;> cases hc
        rfl
  | @arm it hh hm =>
      have henv := h.buffer it (Or.inl hm)
      refine ⟨?_, fun _ => ⟨it, Or.inl rfl⟩, ?_⟩
      · rintro it' (hc | hc | hc) <;> cases hc
        exact henv
      · intro sig hc
        rw [hh] at hc
        cases hc
  | @access it hh hm =>
      have henv := h.buffer it (Or.inr (Or.inl hm))
      refine ⟨?_, fun _ => ⟨it, Or.inr rfl⟩, ?_⟩
      · rintro it' (hc | hc | hc) <;> cases hc
        exact henv
      · intro sig hc
        rw [hh] at hc
        cases hc
  | deliver sig hh =>
      refine h.of_handler rfl rfl rfl ?_
      intro sig' hc
      cases hc
  | save hh =>
      refine h.of_handler rfl rfl rfl ?_
      intro sig' hc
      cases hc
  | clear hh _ hset =>
      -- the flag that is cleared was set by an iteration that is still armed
      obtain ⟨it, harmed⟩ := h.flag hset
      refine ⟨h.buffer, ?_, fun _ _ => ⟨rfl, it, harmed⟩⟩
      intro hc
      cases hc
  | notArmed hh _ _ =>
      refine h.of_handler rfl rfl rfl ?_
      intro sig' hc
      cases hc
  | jump hh _ =>
      refine .of_clear rfl (h.jumping _ hh).1 ?_
      rintro it (hc | hc | hc) <;> cases hc
  | returns hh _ =>
      refine h.of_handler rfl rfl rfl ?_
      intro sig' hc
      cases hc
  | unexpected hh _ _ =>
      refine h.of_handler rfl rfl rfl ?_
      intro sig' hc
      cases hc

theorem reachable_sigInv {s : SigState} (h : sigSpec.Reachable s) : SigInv s := by
  refine Spec.invariant SigInv ?_ (fun _ _ hstep hs => SigStep.inv hstep hs) h
  rintro _ rfl
  exact sigStart_inv

/-! ## The jump -/

/-- What holds whenever the handler, or the program, is interrupted. -/
structure JumpLaw (s : SigState) : Prop where
  /-- A handler at `siglongjmp` interrupted an armed iteration; the jump buffer is that
  iteration's, and the jump leads back into it. -/
  jumps : ∀ sig, s.handler = some (sig, .jump) → ∃ it, s.main.Armed it ∧ s.sigjmpEnv = some it ∧
    ∀ s', SigStep s s' → s'.main = .body it .recover ∧ s'.handler = none
  /-- Outside `touch_memory` the flag is clear, -/
  elsewhere : s.main.inTouch = false → s.sigjmp = false
  /-- and a fault ends in `die`. -/
  dies : s.main.inTouch = false → ∀ sig, sig.isFault = true →
    s.handler = some (sig, .dispatch) → ∀ s', SigStep s s' → s'.handler = some (sig, .dying)

theorem not_armed_of_not_inTouch {m : MainAt} (h : m.inTouch = false) (it : Iteration) :
    ¬ m.Armed it := by
  rintro (rfl | rfl) <;> cases h

/-- From the jump there is one step, to where the buffer says. -/
theorem SigStep.of_jump {s s' : SigState} {sig : Sig} {it : Iteration}
    (hhandler : s.handler = some (sig, .jump)) (henv : s.sigjmpEnv = some it)
    (hstep : SigStep s s') : s'.main = .body it .recover ∧ s'.handler = none := by
  cases hstep with
  | jump hh he =>
      rw [henv] at he
      cases he
      exact ⟨rfl, rfl⟩
  | _ => simp_all

/-- From the dispatch of a fault with the flag clear there is one step, to `die`. -/
theorem SigStep.of_fault {s s' : SigState} {sig : Sig} (hfault : sig.isFault = true)
    (hhandler : s.handler = some (sig, .dispatch)) (hflag : s.sigjmp = false)
    (hstep : SigStep s s') : s'.handler = some (sig, .dying) := by
  have hnot : sig.isIgnored = false := by
    cases sig <;> first | rfl | cases hfault
  cases hstep with
  | notArmed hh _ _ =>
      rw [hhandler] at hh
      cases hh
      rfl
  | _ => simp_all

/-- In every run, with signals between any two steps, the handler jumps only into the
iteration of `touch_memory` that set `sigjmp` and has not cleared it, with the buffer
of that iteration; outside `touch_memory` the flag is clear and a fault ends in `die`. -/
theorem fault_jump_safe {s : SigState} (h : sigSpec.Reachable s) : JumpLaw s := by
  have hinv := reachable_sigInv h
  have helse : s.main.inTouch = false → s.sigjmp = false :=
    fun hout => hinv.flag_clear (not_armed_of_not_inTouch hout)
  refine ⟨?_, helse, ?_⟩
  · intro sig hjump
    obtain ⟨-, it, harmed⟩ := hinv.jumping sig hjump
    have henv := hinv.buffer it (Or.inr harmed)
    exact ⟨it, harmed, henv, fun s' hstep => hstep.of_jump hjump henv⟩
  · intro hout sig hfault hdispatch s' hstep
    exact hstep.of_fault hfault hdispatch (helse hout)

/-- The first page of a range of one page. -/
def sampleIteration : Iteration := ⟨0, .start 0x10000#64 0x1000#64 0x1000#64⟩

/-- A fault at that page, when the handler is about to jump. -/
def sampleFault : SigState where
  main := .body sampleIteration .access
  handler := some (.sigsegv, .jump)
  siginfo := some .sigsegv
  sigjmp := false
  sigjmpEnv := some sampleIteration
  count := 1

theorem sampleFault_reachable : sigSpec.Reachable sampleFault := by
  have hstart : sigSpec.Reachable sigStart := .init rfl
  have htouch := hstart.step (.touch 0x10000#64 0x1000#64 0x1000#64 rfl rfl)
  have hbody := (htouch.step (.iterate rfl rfl (by decide))).step (.setjmp rfl rfl)
  have harmed := hbody.step (.arm rfl rfl)
  exact ((harmed.step (.deliver .sigsegv rfl)).step (.save rfl)).step (.clear rfl rfl rfl)

/-- The jump leads back into the iteration. -/
theorem fault_jump_safe_page : sampleFault.main.Armed sampleIteration ∧ JumpLaw sampleFault :=
  ⟨Or.inl rfl, fault_jump_safe sampleFault_reachable⟩

end Memtoy
