import Memtoy.Process.Turns

/-!
# Process.OneAtATime — the turns over whole runs

Processes come and go while a turn is under way. What holds the turns together is that
`child_wait` sees end of file only when nobody below the child is left: a child that is
killed leaves its parent waiting for the processes below it.
-/

namespace Memtoy

open Ancestry Baton Descriptors Trans

variable {s s' : Turns} {a : TurnAct} {p c n : Num} {pr pr' : PipeProc} {line : Nat} {f : Forest}

/-! ## Steps of the forest -/

theorem ProcStep.num (hstep : ProcStep f pr pr') (h : pr'.stage.num = some c) :
    pr.stage.num = some c := by
  cases hstep with
  | respPipe hs _ _ _ => rw [hs]; exact h
  | closeEnds hs => rw [hs]; exact h
  | openFile _ _ => exact h
  | closeFile _ _ _ => exact h
  | reap _ _ _ => exact h
  | _ => cases h

theorem ProcStep.born (hstep : ProcStep f pr pr') (h : pr'.stage.Born) : pr.stage.Born := by
  cases hstep with
  | openFile _ _ => exact h
  | closeFile _ _ _ => exact h
  | reap _ _ _ => exact h
  | _ => exact absurd h id

theorem ProcStep.made (hstep : ProcStep f pr pr')
    (hin : pr'.stage = pr.stage ∨ ∀ n cmd1 resp0, pr.stage ≠ .uninserted n cmd1 resp0) :
    pr'.stage.made = pr.stage.made := by
  rcases hin with heq | hin
  · rw [heq]
  · cases hstep with
    | insert hs => exact absurd hs (hin _ _ _)
    | openFile _ _ => rfl
    | closeFile _ _ _ => rfl
    | reap _ _ _ => rfl
    | respPipe hs _ _ _ => rw [hs]; rfl
    | respPipeFails hs => rw [hs]; rfl
    | forkFails hs => rw [hs]; rfl
    | closeEnds hs => rw [hs]; rfl
    | start hs => rw [hs]; rfl

/-- What a process of the new forest was in the old one. -/
structure PipeProc.Was (x x' : PipeProc) : Prop where
  born : x'.stage.Born → x.stage.Born
  num : ∀ c, x'.stage.num = some c → x.stage.num = some c
  unborn : ∀ c, x'.stage.Unborn c → x.stage.Unborn c
  made : x'.stage.made = x.stage.made

theorem PipeProc.Was.refl (x : PipeProc) : x.Was x := ⟨id, fun _ => id, fun _ => id, rfl⟩

/-- Processes end, or change without coming nearer to `child_wait`. -/
theorem TurnInv.forest_step (h : TurnInv s) (hinv : ForestInv f)
    (howner : f.owner = s.forest.owner) (hcount : f.count = s.forest.count)
    (hwas : ∀ n x', f.procs n = some x' → ∃ x, s.forest.procs n = some x ∧ x.Was x') :
    TurnInv { s with forest := f } := by
  have hlive : ∀ n, f.procs n ≠ none → s.forest.procs n ≠ none := by
    intro n hn
    rcases Option.ne_none_iff_exists'.mp hn with ⟨x', hx'⟩
    rcases hwas n x' hx' with ⟨x, hx, -⟩
    simp [hx]
  have hpart : ∀ n, Turns.Part { s with forest := f } n → s.Part n := by
    rintro n (⟨hn, hb⟩ | ⟨hr, g, hg, hgl⟩)
    · exact .inl ⟨hlive n hn, hb⟩
    · exact .inr ⟨hr, g, by rw [← howner]; exact hg, hlive g hgl⟩
  exact {
    forest := hinv
    sane := h.sane
    silent := h.silent
    unused := fun n hn => h.unused n (hcount ▸ hn)
    born := by
      intro p x' hp hb
      rcases hwas p x' hp with ⟨x, hx, hw⟩
      exact h.born p x hx (hw.born hb)
    making := by
      intro p x' c hp hnum
      rcases hwas p x' hp with ⟨x, hx, hw⟩
      rcases h.making p x c hx (hw.num c hnum) with ⟨hrun, hown, hfresh, hempty⟩
      exact ⟨hrun, fun m => by rw [show _ = s.forest.owner from howner]; exact hown m, hfresh,
        fun hu => hempty (hw.unborn c hu)⟩
    awaits := by
      intro p c hp hc
      rw [show _ = s.forest.owner from howner]
      exact h.awaits p c (hlive p hp) hc
    path := by
      rw [show _ = s.forest.owner from howner]
      refine h.path.shrink hpart fun p c hp hwait => ?_
      by_cases hpl : f.procs p = none
      · -- one that has ended takes part by its response only, and then it was at rest
        rcases hp with ⟨hp, -⟩ | ⟨hr, -⟩
        · exact absurd hpl hp
        · rcases ((h.sane p).resp hr).1 with hrest | hrest <;>
            exact absurd hwait (not_waits (by simp [hrest]) (by simp [hrest]) c)
      · rcases hwait with ⟨-, hc⟩ | ⟨line, x, hline, hx, hmade⟩
        · exact .inl ⟨hpl, hc⟩
        · rcases Option.ne_none_iff_exists'.mp hpl with ⟨x', hx'⟩
          rcases hwas p x' hx' with ⟨y, hy, hw⟩
          rw [hx, Option.some.injEq] at hy
          exact .inr ⟨line, x', hline, hx', by rw [hw.made, ← hy]; exact hmade⟩
    root := fun hroot n hn => h.root (hlive 0 hroot) n (hpart n hn)
    lines := fun n line hn hl => h.lines n line (hlive n hn) hl
    past := h.past
    order := h.order }

theorem TurnInv.own (h : TurnInv s) (hp : s.forest.procs p = some pr)
    (hproc : ProcStep s.forest pr pr')
    (hin : pr'.stage = pr.stage ∨ ∀ n cmd1 resp0, pr.stage ≠ .uninserted n cmd1 resp0) :
    TurnInv { s with forest := s.forest.set p pr' } := by
  refine h.forest_step ((PipeStep.own hp hproc).inv h.forest) rfl rfl fun n x' hx' => ?_
  rcases Forest.set_procs hx' with ⟨rfl, rfl⟩ | ⟨-, hx⟩
  · exact ⟨pr, hp, hproc.born, fun _ => hproc.num, fun _ => hproc.unborn, hproc.made hin⟩
  · exact ⟨x', hx, .refl x'⟩

theorem TurnInv.ends (h : TurnInv s) (hstep : PipeStep (.exit p) s.forest f ∨
    PipeStep (.killed p) s.forest f) : TurnInv { s with forest := f } := by
  have hremoved : f.procs = (s.forest.remove p).procs ∧ f.owner = s.forest.owner ∧
      f.count = s.forest.count ∧ ForestInv f := by
    rcases hstep with hstep | hstep
    · refine ⟨?_, ?_, ?_, hstep.inv h.forest⟩ <;> cases hstep <;> rfl
    · refine ⟨?_, ?_, ?_, hstep.inv h.forest⟩ <;> cases hstep <;> rfl
  refine h.forest_step hremoved.2.2.2 hremoved.2.1 hremoved.2.2.1 fun n x' hx' => ?_
  rw [hremoved.1] at hx'
  exact ⟨x', (Forest.remove_procs hx').2, .refl x'⟩

/-- A new number takes no part. -/
theorem TurnInv.spawn (h : TurnInv s) (hctl : (s.stations p).ctl = .running line)
    (hstep : PipeStep (.spawn p) s.forest f) : TurnInv { s with forest := f } := by
  have hinv := hstep.inv h.forest
  cases hstep with
  | spawn hp hstage hfree0 hfree1 hne =>
  rename_i pr cmd0 cmd1
  rcases h.forest.count_fresh with ⟨hnone, hfree, hfresh⟩
  have hplt := (h.forest.counted p pr hp).1
  have hempty := h.unused s.forest.count (Nat.le_refl _)
  have howner : ∀ n, n ≠ s.forest.count → (s.forest.number p).owner n = s.forest.owner n :=
    fun n hn => Forest.number_of_ne hn
  have hprocs : ∀ n x, ((s.forest.number p).set p { pr with
        fds := openFd (openFd pr.fds cmd0 (.cmdRead s.forest.count)) cmd1 (.cmdWrite s.forest.count)
        stage := .cmdPiped s.forest.count cmd0 cmd1 }).procs n = some x →
      n = p ∧ x.stage = .cmdPiped s.forest.count cmd0 cmd1 ∨ n ≠ p ∧ s.forest.procs n = some x := by
    intro n x hx
    rcases Forest.set_procs hx with ⟨hn, rfl⟩ | ⟨hn, hx⟩
    · exact .inl ⟨hn, rfl⟩
    · exact .inr ⟨hn, hx⟩
  have hlive : ∀ n, ((s.forest.number p).set p { pr with
        fds := openFd (openFd pr.fds cmd0 (.cmdRead s.forest.count)) cmd1 (.cmdWrite s.forest.count)
        stage := .cmdPiped s.forest.count cmd0 cmd1 }).procs n ≠ none → s.forest.procs n ≠ none := by
    intro n hn
    rcases Option.ne_none_iff_exists'.mp hn with ⟨x, hx⟩
    rcases hprocs n x hx with ⟨rfl, -⟩ | ⟨-, hx⟩
    · simp [hp]
    · simp [hx]
  have hpart : ∀ n, Turns.Part { s with forest := (s.forest.number p).set p { pr with
        fds := openFd (openFd pr.fds cmd0 (.cmdRead s.forest.count)) cmd1 (.cmdWrite s.forest.count)
        stage := .cmdPiped s.forest.count cmd0 cmd1 } } n → n ≠ s.forest.count ∧ s.Part n := by
    rintro n (⟨hn, hb⟩ | ⟨hr, g, hg, hgl⟩)
    · refine ⟨?_, .inl ⟨hlive n hn, hb⟩⟩
      rintro rfl
      exact hlive _ hn hfree
    · have hne : n ≠ s.forest.count := by
        rintro rfl
        exact hr (by rw [hempty]; rfl)
      exact ⟨hne, .inr ⟨hr, g, (howner n hne).symm.trans hg, hlive g hgl⟩⟩
  exact {
    forest := hinv
    sane := h.sane
    silent := h.silent
    unused := fun n hn => h.unused n (Nat.le_of_succ_le hn)
    born := by
      intro n x hx hb
      rcases hprocs n x hx with ⟨-, hs⟩ | ⟨-, hx⟩
      · rw [hs] at hb
        exact absurd hb id
      · exact h.born n x hx hb
    making := by
      intro n x c hx hnum
      rcases hprocs n x hx with ⟨rfl, hs⟩ | ⟨-, hx⟩
      · rw [hs] at hnum
        cases hnum
        refine ⟨⟨line, hctl⟩, fun m hm => ?_, ?_, fun _ => hempty⟩
        · by_cases hmc : m = s.forest.count
          · rw [hmc] at hm
            have heq : n = s.forest.count := Option.some.inj (Forest.number_self.symm.trans hm)
            exact absurd hplt (heq ▸ Nat.lt_irrefl _)
          · exact hfresh m ((howner m hmc).symm.trans hm)
        · show (s.stations s.forest.count).Fresh
          rw [hempty]
          exact ⟨rfl, .inr (.inl rfl)⟩
      · rcases h.making n x c hx hnum with ⟨hrun, hown, hf, hu⟩
        refine ⟨hrun, fun m hm => ?_, hf, hu⟩
        by_cases hmc : m = s.forest.count
        · -- a child that has not read a line makes no child
          rw [hmc] at hm
          have heq : p = c := Option.some.inj (Forest.number_self.symm.trans hm)
          rw [← heq] at hf
          rcases hf.2 with hs | hs | hs <;> rw [hctl] at hs <;> cases hs
        · exact hown m ((howner m hmc).symm.trans hm)
    awaits := by
      intro n c hn hc
      have hown := h.awaits n c (hlive n hn) hc
      refine (howner c ?_).trans hown
      rintro rfl
      rw [hnone] at hown
      cases hown
    path := by
      refine (h.path.shrink (fun n hn => hn.2)
        fun n c _ hw => hw).grow hfresh hnone (fun n hn => hn.1) (some p) |>.shrink hpart ?_
      intro n c hn hwait
      rcases hwait with ⟨hn', hc⟩ | ⟨l, x, hl, hx, hmade⟩
      · rcases hn with ⟨hn, -⟩ | ⟨hr, -⟩
        · exact .inl ⟨hn, hc⟩
        · rcases ((h.sane n).resp hr).1 with hs | hs <;> rw [hc] at hs <;> cases hs
      · by_cases heq : n = p
        · rw [heq, hp, Option.some.injEq] at hx
          rw [← hx, hstage] at hmade
          cases hmade
        · exact .inr ⟨l, x, hl, (Forest.set_of_ne heq).trans hx, hmade⟩
    root := fun hroot n hn => h.root (hlive 0 hroot) n (hpart n hn).2
    lines := fun n l hn hl => h.lines n l (hlive n hn) hl
    past := h.past
    order := h.order }

/-- The turn goes on to the child that is made; its parent is on its way to `child_wait`. -/
theorem TurnInv.fork (h : TurnInv s) (hstep : PipeStep (.fork p n) s.forest f) :
    TurnInv { s.goto n .starting with forest := f } := by
  have hinv := hstep.inv h.forest
  cases hstep with
  | fork hp hstage =>
  rename_i pr cmd0 cmd1 resp0 resp1
  rcases h.making p pr n hp (by rw [hstage]; rfl) with ⟨⟨line, hctl⟩, hchildless, -, hempty⟩
  have hst : s.stations n = .empty := hempty (by rw [hstage]; rfl)
  have hown := ((h.forest.holds p pr hp).spawning n (by rw [hstage]; rfl)).1
  have hold := h.forest.old n p hown
  have hnp : n ≠ p := Nat.ne_of_gt hold.1
  have hn0 : n ≠ 0 := Nat.ne_of_gt (Nat.lt_of_le_of_lt (Nat.zero_le p) hold.1)
  have hnone : s.forest.procs n = none := (h.forest.unborn p pr n hp (by rw [hstage]; rfl)).1
  have hfree : ∀ c, ¬ s.Waits p c := by
    rintro c (⟨-, hc⟩ | ⟨l, x, -, hx, hmade⟩)
    · rw [hctl] at hc
      cases hc
    · rw [hp, Option.some.injEq] at hx
      rw [← hx, hstage] at hmade
      cases hmade
  have hbusy : ¬ (s.stations p).ctl.Rests := by
    rw [hctl]
    rintro (hr | hr) <;> cases hr
  have hparent : s.Part p := .inl ⟨by simp [hp], .inl hbusy⟩
  have hself : (s.goto n .starting).stations n = ⟨.starting, [], 0⟩ := by
    rw [Turns.goto, Turns.put_self, hst]
    rfl
  have hother : ∀ b, b ≠ n → (s.goto n .starting).stations b = s.stations b :=
    fun b hb => Turns.put_of_ne hb
  have hprocs : ∀ b x, ((s.forest.set p { pr with stage := .forked n cmd0 cmd1 resp0 resp1 }).set n
        { pr with stage := .born cmd0 cmd1 resp0 resp1 }).procs b = some x →
      b = n ∧ x.stage = .born cmd0 cmd1 resp0 resp1 ∨
        b = p ∧ x.stage = .forked n cmd0 cmd1 resp0 resp1 ∨
        b ≠ n ∧ b ≠ p ∧ s.forest.procs b = some x := by
    intro b x hx
    rcases Forest.set_procs hx with ⟨hb, rfl⟩ | ⟨hb, hx⟩
    · exact .inl ⟨hb, rfl⟩
    · rcases Forest.set_procs hx with ⟨hbp, rfl⟩ | ⟨hbp, hx⟩
      · exact .inr (.inl ⟨hbp, rfl⟩)
      · exact .inr (.inr ⟨hb, hbp, hx⟩)
  have hlive : ∀ b, b ≠ n → ((s.forest.set p { pr with
        stage := .forked n cmd0 cmd1 resp0 resp1 }).set n
        { pr with stage := .born cmd0 cmd1 resp0 resp1 }).procs b ≠ none →
      s.forest.procs b ≠ none := by
    intro b hbn hb
    rcases Option.ne_none_iff_exists'.mp hb with ⟨x, hx⟩
    rcases hprocs b x hx with ⟨heq, -⟩ | ⟨rfl, -⟩ | ⟨-, -, hx⟩
    · exact absurd heq hbn
    · simp [hp]
    · simp [hx]
  have hpart : ∀ b, Turns.Part { s.goto n .starting with
        forest := ((s.forest.set p { pr with stage := .forked n cmd0 cmd1 resp0 resp1 }).set n
          { pr with stage := .born cmd0 cmd1 resp0 resp1 }) } b → s.Part b ∨ b = n := by
    intro b hb
    by_cases hbn : b = n
    · exact .inr hbn
    · refine .inl ?_
      rw [Turns.Part, hother b hbn] at hb
      rcases hb with ⟨hbl, hb⟩ | ⟨hr, g, hg, hgl⟩
      · exact .inl ⟨hlive b hbn hbl, hb⟩
      · refine .inr ⟨hr, g, hg, hlive g ?_ hgl⟩
        rintro rfl
        exact hchildless b hg
  exact {
    forest := hinv
    sane := by
      intro b
      by_cases hbn : b = n
      · rw [hbn, hself]
        exact ⟨fun hc => absurd rfl hc, fun hr => absurd rfl hr⟩
      · rw [hother b hbn]
        exact h.sane b
    silent := by
      rw [hother 0 (Ne.symm hn0)]
      exact h.silent
    unused := by
      intro b hb
      rw [hother b (Nat.ne_of_gt (Nat.lt_of_lt_of_le hold.2 hb))]
      exact h.unused b hb
    born := by
      intro b x hx hb
      rcases hprocs b x hx with ⟨rfl, -⟩ | ⟨-, hs⟩ | ⟨hbn, -, hx⟩
      · rw [hself]
      · rw [hs] at hb
        exact absurd hb id
      · rw [hother b hbn]
        exact h.born b x hx hb
    making := by
      intro b x c hx hnum
      rcases hprocs b x hx with ⟨-, hs⟩ | ⟨rfl, hs⟩ | ⟨hbn, hbp, hold'⟩
      · rw [hs] at hnum
        cases hnum
      · rw [hs] at hnum
        cases hnum
        refine ⟨⟨line, by rw [hother b (Ne.symm hnp)]; exact hctl⟩, hchildless, ?_, fun hu => ?_⟩
        · rw [hself]
          exact ⟨rfl, .inl rfl⟩
        · rw [hs] at hu
          exact absurd hu id
      · rcases h.making b x c hold' hnum with ⟨hrun, hown', hf, hu⟩
        have hcn : c ≠ n := by
          rintro rfl
          have hbp' := ((h.forest.holds b x hold').spawning c hnum).1
          exact hbp (Option.some.inj (hbp'.symm.trans hown))
        rw [hother b hbn, hother c hcn]
        exact ⟨hrun, hown', hf, hu⟩
    awaits := by
      intro b c hb hc
      by_cases hbn : b = n
      · rw [hbn, hself] at hc
        cases hc
      · rw [hother b hbn] at hc
        exact h.awaits b c (hlive b hbn hb) hc
    path := by
      refine h.path.pass hparent hfree hown hpart ?_ h.anti ?_
      · refine .inr ⟨line, _, ?_, (Forest.set_of_ne (Ne.symm hnp)).trans Forest.set_self, rfl⟩
        rw [hother p (Ne.symm hnp)]
        exact hctl
      · intro b d hw
        by_cases hbn : b = n
        · rw [hbn] at hw
          rcases hw with ⟨hl, -⟩ | ⟨l, x, -, hx, -⟩
          · exact absurd hnone hl
          · rw [hnone] at hx
            cases hx
        · by_cases hbp : b = p
          · exact absurd (hbp ▸ hw) (hfree d)
          · rw [Turns.Waits, hother b hbn]
            rcases hw with ⟨hl, hc⟩ | ⟨l, x, hl, hx, hmade⟩
            · refine .inl ⟨?_, hc⟩
              rwa [Forest.set_of_ne hbn, Forest.set_of_ne hbp]
            · refine .inr ⟨l, x, hl, ?_, hmade⟩
              rw [Forest.set_of_ne hbn, Forest.set_of_ne hbp, hx]
    root := by
      intro hroot b hb
      rw [hother 0 (Ne.symm hn0)]
      exact h.root (hlive 0 (Ne.symm hn0) hroot) p hparent
    lines := by
      intro b l hb hl
      by_cases hbn : b = n
      · rw [hbn, hself] at hl
        rcases hl with hl | hl
        · cases hl
        · exact absurd hl List.not_mem_nil
      · rw [hother b hbn] at hl
        exact h.lines b l (hlive b hbn hb) hl
    past := h.past
    order := h.order }

/-- What led to `child_wait` becomes `child_wait`. -/
theorem TurnInv.insert (h : TurnInv s) {cmd1 resp0 : Fd} (hp : s.forest.procs p = some pr)
    (hstage : pr.stage = .uninserted n cmd1 resp0) (hproc : ProcStep s.forest pr pr')
    (hready : pr'.stage = .ready) :
    TurnInv { s.goto p (.waiting n) with forest := s.forest.set p pr' } := by
  have hinv := (PipeStep.own hp hproc).inv h.forest
  rcases h.making p pr n hp (by rw [hstage]; rfl) with ⟨⟨line, hctl⟩, -, -, -⟩
  have hown := ((h.forest.holds p pr hp).spawning n (by rw [hstage]; rfl)).1
  have hbusy : ¬ (s.stations p).ctl.Rests := by
    rw [hctl]
    rintro (hr | hr) <;> cases hr
  have hself : (s.goto p (.waiting n)).stations p = { s.stations p with ctl := .waiting n } :=
    Turns.put_self
  have hother : ∀ b, b ≠ p → (s.goto p (.waiting n)).stations b = s.stations b :=
    fun b hb => Turns.put_of_ne hb
  have hlive : ∀ b, (s.forest.set p pr').procs b ≠ none → s.forest.procs b ≠ none := by
    intro b hb
    by_cases hbp : b = p
    · simp [hbp, hp]
    · rwa [Forest.set_of_ne hbp] at hb
  have hpart : ∀ b, Turns.Part { s.goto p (.waiting n) with forest := s.forest.set p pr' } b →
      s.Part b := by
    intro b hb
    by_cases hbp : b = p
    · exact .inl ⟨by simp [hbp, hp], .inl (hbp ▸ hbusy)⟩
    · rw [Turns.Part, hother b hbp] at hb
      rcases hb with ⟨hbl, hb⟩ | ⟨hr, g, hg, hgl⟩
      · exact .inl ⟨hlive b hbl, hb⟩
      · exact .inr ⟨hr, g, hg, hlive g hgl⟩
  exact {
    forest := hinv
    sane := by
      intro b
      by_cases hbp : b = p
      · rw [hbp, hself]
        exact (h.sane p).goto hbusy _
      · rw [hother b hbp]
        exact h.sane b
    silent := by
      by_cases hp0 : p = 0
      · subst hp0
        rw [hself]
        exact h.silent
      · rw [hother 0 (Ne.symm hp0)]
        exact h.silent
    unused := by
      intro b hb
      rw [hother b (Nat.ne_of_gt (Nat.lt_of_lt_of_le (h.forest.counted p pr hp).1 hb))]
      exact h.unused b hb
    born := by
      intro b x hx hb
      rcases Forest.set_procs hx with ⟨-, rfl⟩ | ⟨hbp, hx'⟩
      · rw [hready] at hb
        exact absurd hb id
      · rw [hother b hbp]
        exact h.born b x hx' hb
    making := by
      intro b x c hx hnum
      rcases Forest.set_procs hx with ⟨-, rfl⟩ | ⟨hbp, hx'⟩
      · rw [hready] at hnum
        cases hnum
      · rcases h.making b x c hx' hnum with ⟨hrun, hown', hf, hu⟩
        have hcp : c ≠ p := by
          rintro rfl
          rcases hf.2 with hs | hs | hs <;> rw [hctl] at hs <;> cases hs
        rw [hother b hbp, hother c hcp]
        exact ⟨hrun, hown', hf, hu⟩
    awaits := by
      intro b c hb hc
      by_cases hbp : b = p
      · rw [hbp, hself, TurnAt.waiting.injEq] at hc
        rw [hbp, ← hc]
        exact hown
      · rw [hother b hbp] at hc
        exact h.awaits b c (hlive b hb) hc
    path := by
      refine h.path.shrink hpart fun b c _ hw => ?_
      by_cases hbp : b = p
      · subst hbp
        rcases hw with ⟨-, hc⟩ | ⟨l, x, -, hx, hmade⟩
        · rw [hctl] at hc
          cases hc
        · rw [hp, Option.some.injEq] at hx
          rw [← hx, hstage] at hmade
          cases hmade
          exact .inl ⟨by simp [Forest.set_self], by rw [hself]⟩
      · rw [Turns.Waits, hother b hbp, Forest.set_of_ne hbp]
        exact hw
    root := by
      intro hroot b hb
      by_cases hp0 : p = 0
      · subst hp0
        rw [hself]
        rintro (hr | hr) <;> cases hr
      · rw [hother 0 (Ne.symm hp0)]
        exact h.root (hlive 0 hroot) b (hpart b hb)
    lines := by
      intro b l hb hl
      by_cases hbp : b = p
      · rw [hbp, hself] at hl
        rcases hl with hl | hl
        · cases hl
        · exact h.lines p l (by simp [hp]) (.inr hl)
      · rw [hother b hbp] at hl
        exact h.lines b l (hlive b hb) hl
    past := h.past
    order := h.order }

/-! ## Runs -/

theorem TurnAt.busy {ctl : TurnAt} (hloop : ctl ≠ .loop) (hexit : ctl ≠ .exiting) :
    ¬ ctl.Rests := by
  rintro (hr | hr)
  · exact hloop hr
  · exact hexit hr

/-- What one step keeps, unless a wait is interrupted. -/
theorem TurnStep.inv (hstep : TurnStep a s s') (hint : ∀ p, a ≠ .interrupted p) (h : TurnInv s) :
    TurnInv s' := by
  have hlive : ∀ {p}, s.forest.procs p ≠ none → ∃ pr, s.forest.procs p = some pr :=
    fun hp => Option.ne_none_iff_exists'.mp hp
  cases hstep with
  | readline hp hctl =>
      rcases hlive hp with ⟨pr, hpr⟩
      exact h.readline hpr hctl
  | readlineNi hp hctl hcmd =>
      rcases hlive hp with ⟨pr, hpr⟩
      exact h.readlineNi hpr hctl hcmd
  | skip hp hctl =>
      rcases hlive hp with ⟨pr, hpr⟩
      have hset := h.settled hpr (by simp [hctl]) (by simp [hctl])
      exact h.goto hpr (TurnAt.busy_of_handling hctl) (not_waits (by simp [hctl]) (by simp [hctl]))
        hset.1 hset.2 (by simp) (by simp) (.inl fun hf => by
          rcases hf.2 with hs | hr
          · rw [hctl] at hs
            cases hs
          · exact TurnAt.busy_of_handling hctl hr)
  | childSend hp hctl hmem hc =>
      have hset := h.settled hp (by simp [hctl]) (by simp [hctl])
      exact h.childSend hp hctl ((h.forest.holds _ _ hp).kids hset.1 _ hmem) hc
  | parseCommand hp hctl =>
      rcases hlive hp with ⟨pr, hpr⟩
      exact h.parseCommand hpr hctl
  | returns hp hctl hready =>
      exact h.goto hp (TurnAt.busy (by simp [hctl]) (by simp [hctl]))
        (not_waits_of_ready hp hready (by simp [hctl])) (by rw [hready]; exact id)
        (by rw [hready]; rfl) (by simp) (by simp) (.inl fun hf => by
          rcases hf.2 with hs | hs | hs <;> rw [hctl] at hs <;> cases hs)
  | quit hp hzero hctl hready =>
      exact h.respond hp hzero (TurnAt.busy (by simp [hctl]) (by simp [hctl]))
        (not_waits_of_ready hp hready (by simp [hctl])) (by rw [hready]; exact id)
        (by rw [hready]; rfl) (.inr rfl)
  | respond hp hzero hctl =>
      rcases hlive hp with ⟨pr, hpr⟩
      have hset := h.settled hpr (by simp [hctl]) (by simp [hctl])
      exact h.respond hpr hzero (TurnAt.busy (by simp [hctl]) (by simp [hctl]))
        (not_waits (by simp [hctl]) (by simp [hctl])) hset.1 hset.2 (.inl rfl)
  | again hp hctl =>
      rcases hlive hp with ⟨pr, hpr⟩
      have hset := h.settled hpr (by simp [hctl]) (by simp [hctl])
      exact h.goto hpr (TurnAt.busy (by simp [hctl]) (by simp [hctl]))
        (not_waits (by simp [hctl]) (by simp [hctl])) hset.1 hset.2 (by simp) (by simp)
        (.inr (.inl rfl))
  | own hp hproc hin => exact h.own hp hproc hin
  | spawn hctl hspawn => exact h.spawn hctl hspawn
  | fork hfork => exact h.fork hfork
  | insert hp hstage hproc hready => exact h.insert hp hstage hproc hready
  | started hp hzero hready hctl =>
      exact h.respond hp hzero (TurnAt.busy (by simp [hctl]) (by simp [hctl]))
        (not_waits (by simp [hctl]) (by simp [hctl])) (by rw [hready]; exact id)
        (by rw [hready]; rfl) (.inl rfl)
  | woken hp hctl hresp =>
      rcases hlive hp with ⟨pr, hpr⟩
      exact h.woken hpr hctl hresp
  | eof hp hctl hresp hnone =>
      rcases hlive hp with ⟨pr, hpr⟩
      exact h.eof hpr hctl hresp hnone
  | interrupted _ _ => exact absurd rfl (hint _)
  | exit hend => exact h.ends (.inl hend)
  | killed hend => exact h.ends (.inr hend)

theorem firstTurns_inv (inherited : Fd → Bool) : TurnInv (firstTurns inherited) := by
  have hroot : ∀ p pr, (firstForest inherited).procs p = some pr →
      p = 0 ∧ pr = firstProc inherited := by
    intro p pr hp
    by_cases hzero : p = 0
    · subst hzero
      exact ⟨rfl, (Option.some.inj hp).symm⟩
    · simp [firstForest, Function.update_of_ne hzero] at hp
  have hpart : ∀ n, ¬ (firstTurns inherited).Part n := by
    rintro n (⟨-, hc | hc⟩ | ⟨hr, -⟩)
    · exact hc (.inl rfl)
    · exact hc rfl
    · exact hr rfl
  exact {
    forest := firstForest_inv inherited
    sane := fun _ => ⟨fun hc => absurd rfl hc, fun hr => absurd rfl hr⟩
    silent := rfl
    unused := fun _ _ => rfl
    born := by
      intro p pr hp hb
      rcases hroot p pr hp with ⟨-, rfl⟩
      exact absurd hb id
    making := by
      intro p pr c hp hnum
      rcases hroot p pr hp with ⟨-, rfl⟩
      cases hnum
    awaits := fun _ _ _ hc => by cases hc
    path := OnePath.single (a := 0) fun n hn => absurd hn (hpart n)
    root := fun _ n hn => absurd hn (hpart n)
    lines := by
      rintro n l - (hl | hl)
      · cases hl
      · exact absurd hl List.not_mem_nil
    past := fun _ hx => absurd hx List.not_mem_nil
    order := List.Pairwise.nil }

/-- What every run keeps in which no wait is interrupted. -/
theorem reachable_turnInv (h : turnSpec.Reachable s) : TurnInv s := by
  refine turnSpec.invariant TurnInv ?_ ?_ h
  · rintro _ ⟨inherited, rfl⟩
    exact firstTurns_inv inherited
  · rintro t t' ⟨a, hint, hstep⟩ hinv
    exact hstep.inv hint hinv

/-- The process has a line, or runs its command. -/
def TurnAt.OnLine (ctl : TurnAt) (line : Nat) : Prop := ctl = .handling line ∨ ctl = .running line

/-- Of two processes on one path, the upper one is not on a line. -/
theorem TurnInv.not_above (h : TurnInv s) {q : Num} {k l : Nat} (hp : s.Part p) (hq : s.Part q)
    (hpl : (s.stations p).ctl.OnLine k) (hql : (s.stations q).ctl.OnLine l)
    (hbelow : Below s.forest.owner p q) : p = q := by
  by_contra hne
  rcases h.path.down p q hp hq hne hbelow with ⟨c, hc, hcq, hwait⟩
  rcases hwait with ⟨-, hctl⟩ | ⟨m, pr, hctl, hpr, hmade⟩
  · rcases hpl with hpl | hpl <;> rw [hpl] at hctl <;> cases hctl
  · -- a child on its way to its loop has no line, and no children
    have hnum : pr.stage.num = some c := by
      cases hs : pr.stage <;> rw [hs] at hmade <;> first | exact hmade | cases hmade
    rcases h.making p pr c hpr hnum with ⟨-, hchildless, hfresh, -⟩
    have heq : q = c := eq_of_below_fresh hchildless hcq
    rw [← heq] at hfresh
    rcases hfresh.2 with hs | hs | hs <;> rcases hql with hql | hql <;> rw [hs] at hql <;> cases hql

/-- A child is made and gets a command; the first process waits for it. -/
theorem exists_turn : ∃ s, turnSpec.Reachable s ∧ s.forest.procs 0 ≠ none ∧
    s.forest.procs 1 ≠ none ∧ (s.stations 0).ctl = .waiting 1 ∧
    (s.stations 1).ctl = .running 1 ∧ s.ran = [(0, 0), (1, 1)] := by
  have go : ∀ {s s' : Turns}, turnSpec.Reachable s → TurnStep .other s s' →
      turnSpec.Reachable s' := fun h hstep => h.step ⟨_, fun _ => by simp, hstep⟩
  have h := Spec.Reachable.init (S := turnSpec) ⟨fun _ => false, rfl⟩
  -- child a
  have h := go h (.readline (by decide) rfl)
  have h := go h (@TurnStep.parseCommand _ 0 0 (by decide) rfl)
  have h := go h (.spawn rfl (@PipeStep.spawn _ 0 _ 3 4 rfl rfl rfl rfl (by decide)))
  have h := go h (@TurnStep.own _ 0 _ _ rfl
    (@ProcStep.respPipe _ 1 _ 3 4 5 6 rfl rfl rfl (by decide))
    (.inr fun _ _ _ hs => by cases hs))
  have h := go h (.fork (@PipeStep.fork _ 0 1 _ 3 4 5 6 rfl rfl))
  have h := go h (@TurnStep.own _ 0 _ _ rfl (@ProcStep.closeEnds _ 1 _ 3 4 5 6 rfl)
    (.inr fun _ _ _ hs => by cases hs))
  have h := go h (@TurnStep.insert _ 0 1 _ _ 4 5 rfl rfl (@ProcStep.insert _ 1 _ 4 5 rfl) rfl)
  have h := go h (@TurnStep.own _ 1 _ _ rfl (@ProcStep.start _ _ 3 4 5 6 rfl)
    (.inr fun _ _ _ hs => by cases hs))
  have h := go h (@TurnStep.started _ 1 _ rfl (by decide) rfl rfl)
  have h := go h (@TurnStep.woken _ 0 1 (by decide) rfl (by decide))
  have h := go h (.again (by decide) rfl)
  -- a command for it
  have h := go h (.readline (by decide) rfl)
  have h := go h (@TurnStep.childSend _ 0 _ 1 ⟨1, 4, 5⟩ rfl rfl (by decide) (by decide))
  have h := go h (@TurnStep.readlineNi _ 1 1 [] (by decide) rfl rfl)
  have h := go h (@TurnStep.parseCommand _ 1 1 (by decide) rfl)
  exact ⟨_, h, by decide, by decide, rfl, rfl, rfl⟩
end Memtoy
