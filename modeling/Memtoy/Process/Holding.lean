import Mathlib.Data.List.Nodup
import Memtoy.Process.Pipes

/-!
# Process.Holding — what each process of the tree holds open

The invariant behind the pipes: for every process, which ends its descriptor table can
refer to and which it must. A process changes only its own table, so that what one step
keeps is a matter of one process, except when a number is given out and at the fork.
-/

namespace Memtoy

open Ancestry Descriptors Trans

/-! ## What a process holds -/

/-- Standard input of a process that is in its loop. -/
def stdinEnd (p : Num) : FileEnd := if p = 0 then .other else .cmdRead p

/-- The child a `child_spawn` of this process is making. -/
def SpawnStage.num : SpawnStage → Option Num
  | .cmdPiped n _ _ | .bothPiped n _ _ _ _ | .forked n _ _ _ _ | .uninserted n _ _ => some n
  | .ready | .born _ _ _ _ => none

/-- The ends of the new pipes, by their descriptors. -/
def SpawnStage.ends (p : Num) : SpawnStage → List (Fd × FileEnd)
  | .ready => []
  | .cmdPiped n cmd0 cmd1 => [(cmd0, .cmdRead n), (cmd1, .cmdWrite n)]
  | .bothPiped n cmd0 cmd1 resp0 resp1 | .forked n cmd0 cmd1 resp0 resp1 =>
      [(cmd0, .cmdRead n), (cmd1, .cmdWrite n), (resp0, .respRead n), (resp1, .respWrite n)]
  | .uninserted n cmd1 resp0 => [(cmd1, .cmdWrite n), (resp0, .respRead n)]
  | .born cmd0 cmd1 resp0 resp1 =>
      [(cmd0, .cmdRead p), (cmd1, .cmdWrite p), (resp0, .respRead p), (resp1, .respWrite p)]

def SpawnStage.Has (p : Num) (stage : SpawnStage) (e : FileEnd) : Prop :=
  ∃ fd, (fd, e) ∈ stage.ends p

/-- What the table of a process can refer to, and what it must. A child keeps what it
inherits: the write ends to the children its parent had before it, and the write ends of
the response pipes above it. -/
structure TableInv (owner : Num → Option Num) (p : Num) (stage : SpawnStage)
    (t : Table FileEnd) : Prop where
  once : ∀ e, e ≠ .other → Once t e
  known : ∀ e n, Held t e → e.num = some n → owner n ≠ none
  reads : ∀ n, Held t (.cmdRead n) →
    n = p ∨ stage.Has p (.cmdRead n) ∨ stage.Born ∧ owner p = some n
  writes : ∀ n, Held t (.cmdWrite n) →
    owner n = some p ∨ stage.Born ∧ n = p ∨ ∃ s, owner s = owner n ∧ n < s ∧ Below owner s p
  responds : ∀ n, Held t (.respWrite n) → Below owner n p ∨ stage.Has p (.respWrite n)
  carries : ∀ n, Below owner n p → owner n ≠ none → Held t (.respWrite n)

/-- The ends a process goes on using, by their descriptors. -/
inductive Kept (owner : Num → Option Num) (p : Num) (pr : PipeProc) : Fd → FileEnd → Prop where
  | stdin : ¬ pr.stage.Born → Kept owner p pr 0 (stdinEnd p)
  | inherited {g : Num} : pr.stage.Born → owner p = some g → Kept owner p pr 0 (stdinEnd g)
  | response {fd : Fd} : ¬ pr.stage.Born → pr.responseFd = some fd →
      Kept owner p pr fd (.respWrite p)
  | command {c : PipeChild} : c ∈ pr.children → Kept owner p pr c.cCfd (.cmdWrite c.num)
  | answer {c : PipeChild} : c ∈ pr.children → Kept owner p pr c.cRfd (.respRead c.num)

structure ProcInv (owner : Num → Option Num) (p : Num) (pr : PipeProc) : Prop
    extends TableInv owner p pr.stage pr.fds where
  kept : ∀ fd e, Kept owner p pr fd e → pr.fds fd = some e
  ends : ∀ x ∈ pr.stage.ends p, pr.fds x.1 = some x.2
  /-- The second pipe comes after the first. -/
  unmade : ∀ n cmd0 cmd1, pr.stage = .cmdPiped n cmd0 cmd1 → ¬ Held pr.fds (.respRead n)
  kids : ¬ pr.stage.Born → ∀ c ∈ pr.children, owner c.num = some p
  elders : pr.stage.Born → ∀ c ∈ pr.children, owner c.num = owner p ∧ c.num < p
  distinct : (pr.children.map (·.num)).Nodup
  spawning : ∀ n, pr.stage.num = some n →
    owner n = some p ∧ (∀ m, owner m = some p → m ≤ n) ∧ ∀ c ∈ pr.children, c.num ≠ n
  answering : ¬ pr.stage.Born → p ≠ 0 → ∃ fd, pr.responseFd = some fd
  born : pr.stage.Born → owner p ≠ none

variable {owner : Num → Option Num} {p n : Num} {pr pr' : PipeProc} {stage stage' : SpawnStage}
  {t t' : Table FileEnd} {e : FileEnd} {fd : Fd} {es : List FileEnd}

/-! ## The table -/

/-- Closing descriptors keeps the bounds, and what is needed further on stays open. -/
theorem TableInv.closes (h : TableInv owner p stage t) (hc : Closes t t' es)
    (hborn : ¬ stage.Born)
    (hreads : ∀ n, stage.Has p (.cmdRead n) → .cmdRead n ∈ es ∨ stage'.Has p (.cmdRead n))
    (hresponds : ∀ n, stage.Has p (.respWrite n) → .respWrite n ∈ es ∨ stage'.Has p (.respWrite n))
    (hcarries : ∀ n, .respWrite n ∈ es → ¬ Below owner n p) : TableInv owner p stage' t' where
  once := fun e he => hc.once (h.once e he)
  known := fun e n hheld hnum => h.known e n (hc.held hheld) hnum
  reads := by
    intro n hheld
    rcases h.reads n (hc.held hheld) with heq | hhas | hb
    · exact .inl heq
    · rcases hreads n hhas with hes | hhas'
      · exact absurd hheld (hc.gone _ hes (h.once _ (by simp)))
      · exact .inr (.inl hhas')
    · exact absurd hb.1 hborn
  writes := by
    intro n hheld
    rcases h.writes n (hc.held hheld) with how | hb | hs
    · exact .inl how
    · exact absurd hb.1 hborn
    · exact .inr (.inr hs)
  responds := by
    intro n hheld
    rcases h.responds n (hc.held hheld) with hbelow | hhas
    · exact .inl hbelow
    · rcases hresponds n hhas with hes | hhas'
      · exact absurd hheld (hc.gone _ hes (h.once _ (by simp)))
      · exact .inr hhas'
  carries := by
    intro n hbelow hn
    exact hc.still (h.carries n hbelow hn) fun hes => hcarries n hes hbelow

/-- A new end of a pipe for a child of this process. -/
theorem TableInv.opened (h : TableInv owner p stage t) (hfree : t fd = none) (hnew : ¬ Held t e)
    (hnum : e.num = some n) (hn : owner n = some p) (hhas : stage.Has p e) :
    TableInv owner p stage (openFd t fd e) where
  once := fun e' he' => (h.once e' he').opened fun heq => heq ▸ hnew
  known := by
    intro e' n' hheld hnum'
    rcases held_openFd hheld with rfl | hheld
    · rw [hnum, Option.some.injEq] at hnum'
      simp [← hnum', hn]
    · exact h.known e' n' hheld hnum'
  reads := by
    intro n' hheld
    rcases held_openFd hheld with heq | hheld
    · exact .inr (.inl (heq ▸ hhas))
    · exact h.reads n' hheld
  writes := by
    intro n' hheld
    rcases held_openFd hheld with heq | hheld
    · rw [← heq, FileEnd.num, Option.some.injEq] at hnum
      exact .inl (hnum ▸ hn)
    · exact h.writes n' hheld
  responds := by
    intro n' hheld
    rcases held_openFd hheld with heq | hheld
    · exact .inr (heq ▸ hhas)
    · exact h.responds n' hheld
  carries := fun n' hbelow hn' => (h.carries n' hbelow hn').opened hfree

/-- A file of the segment layer. -/
theorem TableInv.openOther (h : TableInv owner p stage t) (hfree : t fd = none) :
    TableInv owner p stage (openFd t fd .other) := by
  have hheld : ∀ e, e ≠ .other → Held (openFd t fd .other) e → Held t e := by
    intro e he hheld
    exact (held_openFd hheld).resolve_left he
  exact {
    once := fun e he => (h.once e he).opened fun heq => absurd heq he
    known := by
      intro e n hopen hnum
      refine h.known e n (hheld e ?_ hopen) hnum
      intro heq
      rw [heq] at hnum
      cases hnum
    reads := fun n hopen => h.reads n (hheld _ (by simp) hopen)
    writes := fun n hopen => h.writes n (hheld _ (by simp) hopen)
    responds := fun n hopen => h.responds n (hheld _ (by simp) hopen)
    carries := fun n hbelow hn => (h.carries n hbelow hn).opened hfree }

/-- Only what a stage says of the ends held matters. -/
theorem TableInv.staged (h : TableInv owner p stage t) (hborn : ¬ stage.Born)
    (hhas : ∀ e, stage.Has p e → stage'.Has p e) : TableInv owner p stage' t :=
  h.closes (Closes.refl t) hborn (fun _ hn => .inr (hhas _ hn)) (fun _ hn => .inr (hhas _ hn))
    fun _ hes => absurd hes List.not_mem_nil

/-! ## The records -/

theorem SpawnStage.not_born (hnum : stage.num = some n) : ¬ stage.Born := by
  cases stage <;> first | exact id | cases hnum

/-- The ends a process goes on using are not those of the child it is making. -/
theorem ProcInv.apart (h : ProcInv owner p pr) (hold : ∀ n g, owner n = some g → g < n)
    (hkept : Kept owner p pr fd e) (hnum : pr.stage.num = some n) : e.num ≠ some n := by
  have hspawn := h.spawning n hnum
  have hlt := hold n p hspawn.1
  cases hkept with
  | stdin hb =>
      intro heq
      rw [stdinEnd] at heq
      split at heq
      · cases heq
      · rw [FileEnd.num, Option.some.injEq] at heq
        exact absurd heq (Nat.ne_of_lt hlt)
  | inherited hb _ => exact absurd hb (SpawnStage.not_born hnum)
  | response hb hfd =>
      intro heq
      rw [FileEnd.num, Option.some.injEq] at heq
      exact absurd heq (Nat.ne_of_lt hlt)
  | command hc =>
      intro heq
      rw [FileEnd.num, Option.some.injEq] at heq
      exact hspawn.2.2 _ hc heq
  | answer hc =>
      intro heq
      rw [FileEnd.num, Option.some.injEq] at heq
      exact hspawn.2.2 _ hc heq

/-- What is kept depends on the records and on whether the process has come to its loop. -/
theorem Kept.congr (h : Kept owner p pr' fd e) (hborn : ¬ pr.stage.Born) (hborn' : ¬ pr'.stage.Born)
    (hchildren : ∀ c ∈ pr'.children, c ∈ pr.children) (hresp : pr'.responseFd = pr.responseFd) :
    Kept owner p pr fd e := by
  cases h with
  | stdin hb => exact .stdin hborn
  | inherited hb hg => exact absurd hb hborn'
  | response hb hfd => exact .response hborn (hresp ▸ hfd)
  | command hc => exact .command (hchildren _ hc)
  | answer hc => exact .answer (hchildren _ hc)

/-! ## The steps of one process -/

/-- A settled process that closes descriptors and goes on at another stage. -/
theorem ProcInv.closes (h : ProcInv owner p pr) {cs : List PipeChild} (hc : Closes pr.fds t es)
    (hborn : ¬ pr.stage.Born) (hborn' : ¬ stage'.Born)
    (hreads : ∀ n, pr.stage.Has p (.cmdRead n) → .cmdRead n ∈ es ∨ stage'.Has p (.cmdRead n))
    (hresponds : ∀ n, pr.stage.Has p (.respWrite n) →
      .respWrite n ∈ es ∨ stage'.Has p (.respWrite n))
    (hcarries : ∀ n, .respWrite n ∈ es → ¬ Below owner n p) (hcs : cs.Sublist pr.children)
    (hkept : ∀ fd e, Kept owner p { pr with fds := t, children := cs, stage := stage' } fd e →
      t fd = some e)
    (hends : ∀ x ∈ stage'.ends p, x ∈ pr.stage.ends p ∧ x.2 ∉ es)
    (hpiped : ∀ n cmd0 cmd1, stage' = .cmdPiped n cmd0 cmd1 → pr.stage = .cmdPiped n cmd0 cmd1)
    (hnum : ∀ n, stage'.num = some n → pr.stage.num = some n) :
    ProcInv owner p { pr with fds := t, children := cs, stage := stage' } where
  toTableInv := h.toTableInv.closes hc hborn hreads hresponds hcarries
  kept := hkept
  ends := fun x hx => hc.keeps x.1 x.2 (h.ends x (hends x hx).1) (hends x hx).2
  unmade := fun n cmd0 cmd1 hstage hheld =>
    h.unmade n cmd0 cmd1 (hpiped n cmd0 cmd1 hstage) (hc.held hheld)
  kids := fun _ c hmem => h.kids hborn c (hcs.subset hmem)
  elders := fun hb => absurd hb hborn'
  distinct := (hcs.map _).nodup h.distinct
  spawning := by
    intro n hn
    rcases h.spawning n (hnum n hn) with ⟨how, hlast, hne⟩
    exact ⟨how, hlast, fun c hmem => hne c (hcs.subset hmem)⟩
  answering := fun _ hp => h.answering hborn hp
  born := fun hb => absurd hb hborn'

/-- A settled process that closes ends of the pipes it is making. -/
theorem ProcInv.closesEnds (h : ProcInv owner p pr) (hold : ∀ n g, owner n = some g → g < n)
    (hnum : pr.stage.num = some n) (hc : Closes pr.fds t es) (hes : ∀ e ∈ es, e.num = some n)
    (hreads : ∀ n, pr.stage.Has p (.cmdRead n) → .cmdRead n ∈ es ∨ stage'.Has p (.cmdRead n))
    (hresponds : ∀ n, pr.stage.Has p (.respWrite n) →
      .respWrite n ∈ es ∨ stage'.Has p (.respWrite n))
    (hends : ∀ x ∈ stage'.ends p, x ∈ pr.stage.ends p ∧ x.2 ∉ es)
    (hpiped : ∀ n cmd0 cmd1, stage' ≠ .cmdPiped n cmd0 cmd1)
    (hnum' : ∀ n, stage'.num = some n → pr.stage.num = some n) (hborn' : ¬ stage'.Born) :
    ProcInv owner p { pr with fds := t, stage := stage' } := by
  have hborn := SpawnStage.not_born hnum
  refine h.closes hc hborn hborn' hreads hresponds ?_ (List.Sublist.refl _) ?_ hends
    (fun n cmd0 cmd1 hstage => absurd hstage (hpiped n cmd0 cmd1)) hnum'
  · -- what is above this process is older than the child
    intro m hm hbelow
    have heq := hes _ hm
    rw [FileEnd.num, Option.some.injEq] at heq
    have hle := hbelow.le hold
    have hlt := hold n p (h.spawning n hnum).1
    exact absurd hle (Nat.not_le_of_lt (heq ▸ hlt))
  · intro fd e hk
    have hk' : Kept owner p pr fd e := hk.congr hborn hborn' (fun _ hmem => hmem) rfl
    exact hc.keeps fd e (h.kept fd e hk') fun hmem => h.apart hold hk' hnum (hes e hmem)

/-- The ends of the new pipes in a settled process are those of the child it is making. -/
theorem SpawnStage.num_of_ends {x : Fd × FileEnd} (hx : x ∈ stage.ends p) (hborn : ¬ stage.Born) :
    ∃ n, stage.num = some n ∧ x.2.num = some n := by
  cases stage with
  | born _ _ _ _ => exact absurd trivial hborn
  | ready => exact absurd hx List.not_mem_nil
  | _ =>
      simp only [SpawnStage.ends, List.mem_cons, List.not_mem_nil, or_false] at hx
      rcases hx with rfl | rfl | rfl | rfl <;> exact ⟨_, rfl, rfl⟩

/-- Those of a process that has just been born are its own. -/
theorem SpawnStage.num_of_ends_born {x : Fd × FileEnd} (hx : x ∈ stage.ends p)
    (hborn : stage.Born) : x.2.num = some p := by
  cases stage with
  | born _ _ _ _ =>
      simp only [SpawnStage.ends, List.mem_cons, List.not_mem_nil, or_false] at hx
      rcases hx with rfl | rfl | rfl | rfl <;> rfl
  | _ => exact absurd hborn id

theorem ProcInv.reap (h : ProcInv owner p pr) {c : PipeChild} (hborn : ¬ pr.stage.Born)
    (hmem : c ∈ pr.children) :
    ProcInv owner p { pr with
      fds := closeFd (closeFd pr.fds c.cCfd) c.cRfd, children := pr.children.erase c } := by
  have hc := Closes.two (h.kept _ _ (.command hmem)) (h.kept _ _ (.answer hmem)) (by simp)
  refine h.closes hc hborn hborn (fun _ hhas => .inr hhas)
    (fun _ hhas => .inr hhas) (by simp) List.erase_sublist ?_ ?_ (fun _ _ _ hstage => hstage)
    fun _ hnum => hnum
  · intro fd e hk
    refine hc.keeps fd e
      (h.kept fd e (hk.congr hborn hborn (fun _ => List.mem_of_mem_erase) rfl)) ?_
    -- no other record is of the same child
    have hother : ∀ c' ∈ pr.children.erase c, c'.num ≠ c.num := by
      intro c' hc' heq
      rcases (h.distinct.of_map _).mem_erase_iff.mp hc' with ⟨hne, hmem'⟩
      exact hne (List.inj_on_of_nodup_map h.distinct hmem' hmem heq)
    cases hk with
    | stdin _ => rw [stdinEnd]; split <;> simp
    | inherited hb _ => exact absurd hb hborn
    | response _ _ => simp
    | command hc' => simpa using hother _ hc'
    | answer hc' => simpa using hother _ hc'
  · intro x hx
    refine ⟨hx, fun hes => ?_⟩
    rcases SpawnStage.num_of_ends hx hborn with ⟨n, hn, hxn⟩
    have hne := (h.spawning n hn).2.2 c hmem
    rcases List.mem_cons.mp hes with heq | hes
    · rw [heq, FileEnd.num, Option.some.injEq] at hxn
      exact hne hxn
    · rw [List.mem_singleton.mp hes, FileEnd.num, Option.some.injEq] at hxn
      exact hne hxn

theorem ProcInv.insert (h : ProcInv owner p pr) {cmd1 resp0 : Fd}
    (hstage : pr.stage = .uninserted n cmd1 resp0) :
    ProcInv owner p { pr with
      children := pr.children ++ [⟨n, cmd1, resp0⟩], stage := .ready } := by
  have hborn : ¬ pr.stage.Born := by rw [hstage]; exact id
  have hspawn := h.spawning n (by rw [hstage]; rfl)
  have hends := h.ends
  rw [hstage] at hends
  have hkids : ∀ c ∈ pr.children ++ [⟨n, cmd1, resp0⟩], c ∈ pr.children ∨ c = ⟨n, cmd1, resp0⟩ := by
    simp
  exact {
    toTableInv := by
      refine h.toTableInv.closes (Closes.refl _) hborn ?_ ?_ (by simp)
      all_goals simp [hstage, SpawnStage.Has, SpawnStage.ends]
    kept := by
      intro fd e hk
      cases hk with
      | stdin hb => exact h.kept _ _ (.stdin hborn)
      | inherited hb hg => exact absurd hb id
      | response hb hfd => exact h.kept _ _ (.response hborn hfd)
      | command hmem =>
          rcases hkids _ hmem with hmem | rfl
          · exact h.kept _ _ (.command hmem)
          · exact hends (cmd1, .cmdWrite n) (by simp [SpawnStage.ends])
      | answer hmem =>
          rcases hkids _ hmem with hmem | rfl
          · exact h.kept _ _ (.answer hmem)
          · exact hends (resp0, .respRead n) (by simp [SpawnStage.ends])
    ends := fun x hx => absurd hx List.not_mem_nil
    unmade := fun _ _ _ hs => by cases hs
    kids := by
      intro _ c hmem
      rcases hkids c hmem with hmem | rfl
      · exact h.kids hborn c hmem
      · exact hspawn.1
    elders := fun hb => absurd hb id
    distinct := by
      rw [List.map_append]
      refine h.distinct.append (List.nodup_singleton _) ?_
      intro m hm hn
      rcases List.mem_map.mp hm with ⟨c, hmem, hcm⟩
      exact hspawn.2.2 c hmem (hcm.trans (List.mem_singleton.mp hn))
    spawning := fun _ hs => by cases hs
    answering := fun _ hp => h.answering hborn hp
    born := fun hb => absurd hb id }

/-- Whatever free descriptors become files, nothing that is used goes on elsewhere. -/
theorem ProcInv.respPipe (h : ProcInv owner p pr) (hold : ∀ n g, owner n = some g → g < n)
    {cmd0 cmd1 resp0 resp1 : Fd} (hstage : pr.stage = .cmdPiped n cmd0 cmd1)
    (hfree0 : pr.fds resp0 = none) (hfree1 : pr.fds resp1 = none) (hne : resp0 ≠ resp1) :
    ProcInv owner p { pr with
      fds := openFd (openFd pr.fds resp0 (.respRead n)) resp1 (.respWrite n)
      stage := .bothPiped n cmd0 cmd1 resp0 resp1 } := by
  have hborn : ¬ pr.stage.Born := by rw [hstage]; exact id
  have hspawn := h.spawning n (by rw [hstage]; rfl)
  have hnew : ¬ Held (openFd pr.fds resp0 (.respRead n)) (.respWrite n) := by
    intro hheld
    rcases h.responds n ((held_openFd hheld).resolve_left (by simp)) with hbelow | hhas
    · exact absurd (hbelow.le hold) (Nat.not_le_of_lt (hold n p hspawn.1))
    · simp [hstage, SpawnStage.Has, SpawnStage.ends] at hhas
  have hfree : openFd pr.fds resp0 (.respRead n) resp1 = none := by
    rw [openFd_of_ne hne.symm, hfree1]
  have hkeeps : ∀ fd e, pr.fds fd = some e →
      openFd (openFd pr.fds resp0 (.respRead n)) resp1 (.respWrite n) fd = some e :=
    fun fd e hfd => openFd_keeps hfree (openFd_keeps hfree0 hfd)
  exact {
    toTableInv := by
      have hstaged : TableInv owner p (.bothPiped n cmd0 cmd1 resp0 resp1) pr.fds :=
        h.toTableInv.staged hborn fun e hhas => by
          simp only [hstage, SpawnStage.Has, SpawnStage.ends] at hhas ⊢
          rcases hhas with ⟨fd, hfd⟩
          rcases List.mem_pair.mp hfd with hfd | hfd <;> exact ⟨fd, by simp [hfd]⟩
      have hread := hstaged.opened hfree0 (h.unmade n cmd0 cmd1 hstage) rfl hspawn.1
        ⟨resp0, by simp [SpawnStage.ends]⟩
      exact hread.opened hfree hnew rfl hspawn.1 ⟨resp1, by simp [SpawnStage.ends]⟩
    kept := fun fd e hk =>
      hkeeps fd e (h.kept fd e (hk.congr hborn id (fun _ hmem => hmem) rfl))
    ends := by
      intro x hx
      have hends := h.ends
      rw [hstage] at hends
      simp only [SpawnStage.ends, List.mem_cons, List.not_mem_nil, or_false] at hx
      rcases hx with rfl | rfl | rfl | rfl
      · exact hkeeps _ _ (hends (cmd0, .cmdRead n) (by simp [SpawnStage.ends]))
      · exact hkeeps _ _ (hends (cmd1, .cmdWrite n) (by simp [SpawnStage.ends]))
      · exact openFd_keeps hfree openFd_self
      · exact openFd_self
    unmade := fun _ _ _ hs => by cases hs
    kids := fun _ => h.kids hborn
    elders := fun hb => absurd hb id
    distinct := h.distinct
    spawning := by
      intro m hm
      refine h.spawning m ?_
      rw [hstage]
      exact hm
    answering := fun _ => h.answering hborn
    born := fun hb => absurd hb id }

theorem ProcInv.openFile (h : ProcInv owner p pr) (hstage : pr.stage = .ready)
    (hfree : pr.fds fd = none) : ProcInv owner p { pr with fds := openFd pr.fds fd .other } where
  toTableInv := h.toTableInv.openOther hfree
  kept := fun fd' e hk =>
    openFd_keeps hfree (h.kept fd' e (by cases hk <;> constructor <;> assumption))
  ends := fun x hx => openFd_keeps hfree (h.ends x hx)
  unmade := fun n cmd0 cmd1 hs => by rw [hstage] at hs; cases hs
  kids := h.kids
  elders := h.elders
  distinct := h.distinct
  spawning := h.spawning
  answering := h.answering
  born := h.born

/-- Standard input is no file of the segment layer. -/
theorem ProcInv.closeFile (h : ProcInv owner p pr) (hstage : pr.stage = .ready)
    (hfd : pr.fds fd = some .other) (hne : fd ≠ 0) :
    ProcInv owner p { pr with fds := closeFd pr.fds fd } := by
  have hborn : ¬ pr.stage.Born := by rw [hstage]; exact id
  have hc := (Closes.refl pr.fds).close hfd
  refine h.closes hc hborn hborn (fun _ hhas => .inr hhas)
    (fun _ hhas => .inr hhas) (by simp) (List.Sublist.refl _) ?_ ?_ (fun _ _ _ hs => hs)
    fun _ hnum => hnum
  · intro fd' e hk
    have hk' : pr.fds fd' = some e := h.kept fd' e (hk.congr hborn hborn (fun _ hmem => hmem) rfl)
    cases hk with
    | stdin _ => rw [closeFd_of_ne hne.symm, hk']
    | inherited hb _ => exact absurd hb hborn
    | response _ _ => exact hc.keeps _ _ hk' (by simp)
    | command _ => exact hc.keeps _ _ hk' (by simp)
    | answer _ => exact hc.keeps _ _ hk' (by simp)
  · intro x hx
    rw [hstage] at hx
    exact absurd hx List.not_mem_nil

/-- The child comes to its loop with its own ends and what is above it. -/
theorem ProcInv.start (h : ProcInv owner p pr) (hold : ∀ n g, owner n = some g → g < n)
    {cmd0 cmd1 resp0 resp1 : Fd} (hstage : pr.stage = .born cmd0 cmd1 resp0 resp1) :
    ProcInv owner p
      { fds := closeFd (closeFd (closeFd (dup2 pr.fds cmd0 0) cmd0) cmd1) resp0
        children := []
        responseFd := some resp1
        stage := .ready } := by
  have hb : pr.stage.Born := by rw [hstage]; trivial
  rcases Option.ne_none_iff_exists'.mp (h.born hb) with ⟨g, hg⟩
  have hp : p ≠ 0 := Nat.ne_of_gt (Nat.lt_of_le_of_lt (Nat.zero_le g) (hold p g hg))
  have hgp : g ≠ p := Nat.ne_of_lt (hold p g hg)
  have hends := h.ends
  rw [hstage] at hends
  have hcmd0 := hends (cmd0, .cmdRead p) (by simp [SpawnStage.ends])
  have hstdin := h.kept 0 (stdinEnd g) (.inherited hb hg)
  have hother : ∀ e : FileEnd, e.num = some p → e ≠ stdinEnd g := by
    intro e he heq
    rw [heq, stdinEnd] at he
    split at he
    · cases he
    · exact hgp (Option.some.inj he)
  have hzero : 0 ≠ cmd0 := by
    intro heq
    rw [← heq, hstdin] at hcmd0
    exact hother (.cmdRead p) rfl (Option.some.inj hcmd0).symm
  -- the command pipe is moved to standard input; two more descriptors are closed
  have hmoved : closeFd (dup2 pr.fds cmd0 0) cmd0 0 = some (.cmdRead p) := move_self hzero hcmd0
  have hkeeps : ∀ fd (e : FileEnd), pr.fds fd = some e → e.num = some p → e ≠ .cmdRead p →
      closeFd (dup2 pr.fds cmd0 0) cmd0 fd = some e :=
    fun fd e hfd hnum hne => move_keeps hcmd0 hstdin hfd hne (hother e hnum)
  have hc := Closes.two
    (hkeeps cmd1 (.cmdWrite p) (hends (cmd1, .cmdWrite p) (by simp [SpawnStage.ends])) rfl (by simp))
    (hkeeps resp0 (.respRead p) (hends (resp0, .respRead p) (by simp [SpawnStage.ends])) rfl
      (by simp)) (by simp)
  have hheld : ∀ e, Held (closeFd (closeFd (closeFd (dup2 pr.fds cmd0 0) cmd0) cmd1) resp0) e →
      Held pr.fds e := fun e hopen => held_move (hc.held hopen)
  exact {
    once := fun e he => hc.once (h.once e he).moved
    known := fun e n hopen => h.known e n (hheld e hopen)
    reads := by
      intro n hopen
      rcases h.reads n (hheld _ hopen) with heq | hhas | ⟨-, how⟩
      · exact .inl heq
      · simp only [hstage, SpawnStage.Has, SpawnStage.ends, List.mem_cons, Prod.mk.injEq,
          FileEnd.cmdRead.injEq, List.not_mem_nil, reduceCtorEq, and_false, or_false,
          exists_eq_left] at hhas
        exact .inl hhas
      · -- the parent's standard input is gone
        rw [hg, Option.some.injEq] at how
        subst how
        have hg0 : g ≠ 0 := by
          intro hzero
          have hroot := h.known _ g (hheld _ hopen) rfl
          rcases Option.ne_none_iff_exists'.mp hroot with ⟨g', hg'⟩
          exact Nat.not_lt_zero g' (hzero ▸ hold g g' hg')
        rw [stdinEnd, if_neg hg0] at hstdin
        exact absurd (hc.held hopen)
          ((h.once _ (by simp)).not_held_move hcmd0 hstdin (by simpa using hgp))
    writes := by
      intro n hopen
      rcases h.writes n (hheld _ hopen) with how | ⟨-, heq⟩ | hs
      · exact .inl how
      · subst heq
        exact absurd hopen (hc.gone _ (by simp) (h.once _ (by simp)).moved)
      · exact .inr (.inr hs)
    responds := by
      intro n hopen
      rcases h.responds n (hheld _ hopen) with hbelow | hhas
      · exact .inl hbelow
      · simp only [hstage, SpawnStage.Has, SpawnStage.ends, List.mem_cons, Prod.mk.injEq,
          FileEnd.respWrite.injEq, List.not_mem_nil, reduceCtorEq, and_false, false_or, or_false,
          exists_eq_left] at hhas
        exact .inl (hhas ▸ Below.refl owner p)
    carries := by
      intro n hbelow hn
      have hopen := h.carries n hbelow hn
      refine hc.still (hopen.moved hzero hcmd0 hstdin ?_) (by simp)
      rw [stdinEnd]
      split <;> simp
    kept := by
      intro fd e hk
      cases hk with
      | stdin _ =>
          rw [stdinEnd, if_neg hp]
          exact hc.keeps 0 _ hmoved (by simp)
      | inherited hb' _ => exact absurd hb' id
      | response _ hfd =>
          cases hfd
          exact hc.keeps _ _ (hkeeps resp1 (.respWrite p)
            (hends (resp1, .respWrite p) (by simp [SpawnStage.ends])) rfl (by simp)) (by simp)
      | command hmem => exact absurd hmem List.not_mem_nil
      | answer hmem => exact absurd hmem List.not_mem_nil
    ends := fun x hx => absurd hx List.not_mem_nil
    unmade := fun _ _ _ hs => by cases hs
    kids := fun _ _ hmem => absurd hmem List.not_mem_nil
    elders := fun _ _ hmem => absurd hmem List.not_mem_nil
    distinct := List.nodup_nil
    spawning := fun _ hs => by cases hs
    answering := fun _ _ => ⟨resp1, rfl⟩
    born := fun hb' => absurd hb' id }

theorem ProcStep.inv {f : Forest} (hstep : ProcStep f pr pr')
    (hold : ∀ n g, owner n = some g → g < n) (h : ProcInv owner p pr) : ProcInv owner p pr' := by
  cases hstep with
  | respPipeFails hstage =>
      rename_i n cmd0 cmd1
      have hends := h.ends
      rw [hstage] at hends
      have hc := Closes.two (hends (cmd0, .cmdRead n) (by simp [SpawnStage.ends]))
        (hends (cmd1, .cmdWrite n) (by simp [SpawnStage.ends])) (by simp)
      refine h.closesEnds hold (n := n) (by rw [hstage]; rfl) hc ?_ ?_ ?_ ?_ ?_ ?_ ?_
      all_goals simp [hstage, SpawnStage.ends, SpawnStage.Has, SpawnStage.num, SpawnStage.Born,
        FileEnd.num]
  | forkFails hstage =>
      rename_i n cmd0 cmd1 resp0 resp1
      have hends := h.ends
      rw [hstage] at hends
      have hresp := Closes.two (hends (resp0, .respRead n) (by simp [SpawnStage.ends]))
        (hends (resp1, .respWrite n) (by simp [SpawnStage.ends])) (by simp)
      have hcmd0 := hresp.close (hresp.keeps cmd0 (.cmdRead n)
        (hends (cmd0, .cmdRead n) (by simp [SpawnStage.ends])) (by simp))
      have hc := hcmd0.close (hcmd0.keeps cmd1 (.cmdWrite n)
        (hends (cmd1, .cmdWrite n) (by simp [SpawnStage.ends])) (by simp))
      refine h.closesEnds hold (n := n) (by rw [hstage]; rfl) hc ?_ ?_ ?_ ?_ ?_ ?_ ?_
      all_goals simp [hstage, SpawnStage.ends, SpawnStage.Has, SpawnStage.num, SpawnStage.Born,
        FileEnd.num]
  | closeEnds hstage =>
      rename_i n cmd0 cmd1 resp0 resp1
      have hends := h.ends
      rw [hstage] at hends
      have hc := Closes.two (hends (cmd0, .cmdRead n) (by simp [SpawnStage.ends]))
        (hends (resp1, .respWrite n) (by simp [SpawnStage.ends])) (by simp)
      refine h.closesEnds hold (n := n) (by rw [hstage]; rfl) hc ?_ ?_ ?_ ?_ ?_ ?_ ?_
      all_goals simp [hstage, SpawnStage.ends, SpawnStage.Has, SpawnStage.num, SpawnStage.Born,
        FileEnd.num]
  | openFile hstage hfree => exact h.openFile hstage hfree
  | closeFile hstage hfd hne => exact h.closeFile hstage hfd hne
  | respPipe hstage hfree0 hfree1 hne => exact h.respPipe hold hstage hfree0 hfree1 hne
  | insert hstage => exact h.insert hstage
  | start hstage => exact h.start hold hstage
  | reap hborn hmem _ => exact h.reap hborn hmem

/-! ## Numbers and forks -/

/-- A number given to another `child_spawn` does not matter to this process. -/
theorem ProcInv.numbered (h : ProcInv owner p pr) {g : Num} (hn : owner n = none)
    (hfresh : ∀ m, owner m ≠ some n) (hp : p ≠ n) (hnum : p = g → pr.stage.num = none) :
    ProcInv (Function.update owner n (some g)) p pr := by
  have hsame : ∀ m, m ≠ n → Function.update owner n (some g) m = owner m :=
    fun m hm => Function.update_of_ne hm _ _
  have hknown : ∀ m, owner m ≠ none → m ≠ n := by
    intro m hm heq
    exact hm (heq ▸ hn)
  have hbelow : ∀ m, Below (Function.update owner n (some g)) m p ↔ Below owner m p :=
    fun m => below_update hfresh hp _
  exact {
    once := h.once
    known := by
      intro e m hheld hm
      rw [hsame m (hknown m (h.known e m hheld hm))]
      exact h.known e m hheld hm
    reads := by
      intro m hheld
      rw [hsame p hp]
      exact h.reads m hheld
    writes := by
      intro m hheld
      have hm := hknown m (h.known _ m hheld rfl)
      rw [hsame m hm]
      rcases h.writes m hheld with how | hb | ⟨s, hs, hlt, hsp⟩
      · exact .inl how
      · exact .inr (.inl hb)
      · refine .inr (.inr ⟨s, ?_, hlt, (hbelow s).mpr hsp⟩)
        rw [hsame s (hknown s (hs ▸ h.known _ m hheld rfl)), hs]
    responds := by
      intro m hheld
      rw [hbelow]
      exact h.responds m hheld
    carries := by
      intro m hm how
      rw [hbelow] at hm
      have hne : m ≠ n := fun heq => hp (eq_of_below_fresh hfresh (heq ▸ hm))
      rw [hsame m hne] at how
      exact h.carries m hm how
    kept := by
      intro fd e hk
      refine h.kept fd e ?_
      cases hk with
      | inherited hb hg => exact .inherited hb (by rwa [hsame p hp] at hg)
      | _ => constructor <;> assumption
    ends := h.ends
    unmade := h.unmade
    kids := by
      intro hb c hmem
      have hc := h.kids hb c hmem
      rw [hsame c.num (hknown c.num (by simp [hc])), hc]
    elders := by
      intro hb c hmem
      have hc := h.elders hb c hmem
      rw [hsame c.num (hknown c.num (hc.1 ▸ h.born hb)), hsame p hp]
      exact hc
    distinct := h.distinct
    spawning := by
      intro m hm
      rcases h.spawning m hm with ⟨how, hlast, hne⟩
      refine ⟨?_, ?_, hne⟩
      · rw [hsame m (hknown m (by simp [how])), how]
      · intro m' hm'
        by_cases heq : m' = n
        · -- the process that gets the number is at no other child
          rw [heq, Function.update_self, Option.some.injEq] at hm'
          rw [hnum hm'.symm] at hm
          cases hm
        · exact hlast m' (by rwa [hsame m' heq] at hm')
    answering := h.answering
    born := by
      intro hb
      rw [hsame p hp]
      exact h.born hb }

theorem ProcInv.spawn (h : ProcInv owner p pr) (hstage : pr.stage = .ready) {cmd0 cmd1 : Fd}
    (hn : owner n = some p) (hlast : ∀ m, owner m = some p → m ≤ n)
    (hnew : ∀ e : FileEnd, e.num = some n → ¬ Held pr.fds e)
    (hfree0 : pr.fds cmd0 = none) (hfree1 : pr.fds cmd1 = none) (hne : cmd0 ≠ cmd1) :
    ProcInv owner p { pr with
      fds := openFd (openFd pr.fds cmd0 (.cmdRead n)) cmd1 (.cmdWrite n)
      stage := .cmdPiped n cmd0 cmd1 } := by
  have hborn : ¬ pr.stage.Born := by rw [hstage]; exact id
  have hfree : openFd pr.fds cmd0 (.cmdRead n) cmd1 = none := by
    rw [openFd_of_ne hne.symm, hfree1]
  have hnew' : ∀ e : FileEnd, e.num = some n → e ≠ .cmdRead n →
      ¬ Held (openFd pr.fds cmd0 (.cmdRead n)) e :=
    fun e hnum hother hheld => hnew e hnum ((held_openFd hheld).resolve_left hother)
  have hkeeps : ∀ fd e, pr.fds fd = some e →
      openFd (openFd pr.fds cmd0 (.cmdRead n)) cmd1 (.cmdWrite n) fd = some e :=
    fun fd e hfd => openFd_keeps hfree (openFd_keeps hfree0 hfd)
  exact {
    toTableInv := by
      have hstaged : TableInv owner p (.cmdPiped n cmd0 cmd1) pr.fds :=
        h.toTableInv.staged hborn fun e hhas => by
          rw [hstage] at hhas
          exact absurd hhas.choose_spec List.not_mem_nil
      have hread := hstaged.opened hfree0 (hnew (.cmdRead n) rfl) rfl hn
        ⟨cmd0, by simp [SpawnStage.ends]⟩
      exact hread.opened hfree (hnew' (.cmdWrite n) rfl (by simp)) rfl hn
        ⟨cmd1, by simp [SpawnStage.ends]⟩
    kept := fun fd e hk =>
      hkeeps fd e (h.kept fd e (hk.congr hborn id (fun _ hmem => hmem) rfl))
    ends := by
      intro x hx
      rcases List.mem_pair.mp hx with rfl | rfl
      · exact openFd_keeps hfree openFd_self
      · exact openFd_self
    unmade := by
      intro m _ _ hs hheld
      cases hs
      exact hnew' (.respRead n) rfl (by simp) ((held_openFd hheld).resolve_left (by simp))
    kids := fun _ => h.kids hborn
    elders := fun hb => absurd hb id
    distinct := h.distinct
    spawning := by
      intro m hm
      cases hm
      refine ⟨hn, hlast, fun c hmem heq => ?_⟩
      exact hnew (.cmdWrite n) rfl ⟨c.cCfd, heq ▸ h.kept _ _ (.command hmem)⟩
    answering := fun _ => h.answering hborn
    born := fun hb => absurd hb id }

/-- The child has what its parent has at the fork. -/
theorem ProcInv.child (h : ProcInv owner p pr) {cmd0 cmd1 resp0 resp1 : Fd}
    (hstage : pr.stage = .bothPiped n cmd0 cmd1 resp0 resp1) :
    ProcInv owner n { pr with stage := .born cmd0 cmd1 resp0 resp1 } := by
  have hborn : ¬ pr.stage.Born := by rw [hstage]; exact id
  rcases h.spawning n (by rw [hstage]; rfl) with ⟨hn, hlast, hne⟩
  have hends := h.ends
  rw [hstage] at hends
  have hyounger : ∀ m, owner m = some p → m ≠ n → m < n :=
    fun m hm hmn => Nat.lt_of_le_of_ne (hlast m hm) hmn
  exact {
    once := h.once
    known := h.known
    reads := by
      intro m hheld
      rcases h.reads m hheld with heq | hhas | hb
      · exact .inr (.inr ⟨trivial, heq ▸ hn⟩)
      · rw [hstage] at hhas
        exact .inr (.inl hhas)
      · exact absurd hb.1 hborn
    writes := by
      intro m hheld
      rcases h.writes m hheld with how | hb | ⟨s, hs, hlt, hsp⟩
      · by_cases hmn : m = n
        · exact .inr (.inl ⟨trivial, hmn⟩)
        · -- the write end to an older child of the parent
          exact .inr (.inr ⟨n, hn.trans how.symm, hyounger m how hmn, Below.refl owner n⟩)
      · exact absurd hb.1 hborn
      · exact .inr (.inr ⟨s, hs, hlt, hsp.child hn⟩)
    responds := by
      intro m hheld
      rcases h.responds m hheld with hbelow | hhas
      · exact .inl (hbelow.child hn)
      · rw [hstage] at hhas
        exact .inr hhas
    carries := by
      intro m hbelow hm
      rcases below_iff.mp hbelow with heq | ⟨g, hg, hbelow'⟩
      · exact ⟨resp1, hends (resp1, .respWrite m) (by simp [SpawnStage.ends, heq])⟩
      · rw [hn, Option.some.injEq] at hg
        exact h.carries m (hg ▸ hbelow') hm
    kept := by
      intro fd e hk
      cases hk with
      | stdin hb => exact absurd trivial hb
      | inherited _ hg =>
          rw [hn, Option.some.injEq] at hg
          exact hg ▸ h.kept _ _ (.stdin hborn)
      | response hb _ => exact absurd trivial hb
      | command hmem => exact h.kept _ _ (.command hmem)
      | answer hmem => exact h.kept _ _ (.answer hmem)
    ends := hends
    unmade := fun _ _ _ hs => by cases hs
    kids := fun hb => absurd trivial hb
    elders := by
      intro _ c hmem
      have hc := h.kids hborn c hmem
      exact ⟨hc.trans hn.symm, hyounger c.num hc (hne c hmem)⟩
    distinct := h.distinct
    spawning := fun _ hs => by cases hs
    answering := fun hb => absurd trivial hb
    born := fun _ => by simp [hn] }

/-! ## The tree -/

/-- The child of this number is not there yet. -/
def SpawnStage.Unborn (n : Num) : SpawnStage → Prop
  | .cmdPiped m _ _ | .bothPiped m _ _ _ _ => m = n
  | _ => False

structure ForestInv (f : Forest) : Prop where
  root : 0 < f.count
  old : ∀ n g, f.owner n = some g → g < n ∧ n < f.count
  rooted : ∀ n, f.owner n ≠ none → Below f.owner 0 n
  counted : ∀ p pr, f.procs p = some pr → p < f.count ∧ (p ≠ 0 → f.owner p ≠ none)
  holds : ∀ p pr, f.procs p = some pr → ProcInv f.owner p pr
  unborn : ∀ p pr n, f.procs p = some pr → pr.stage.Unborn n →
    f.procs n = none ∧ ∀ m, f.owner m ≠ some n
  quits : ∀ x ∈ f.quits, f.owner x.2 = some x.1 ∨
    ∃ g, f.owner x.2 = some g ∧ f.owner x.1 = some g ∧ x.2 < x.1

variable {f f' : Forest} {a : PipeAct}

theorem SpawnStage.Unborn.num (h : stage.Unborn n) : stage.num = some n := by
  cases stage <;> first | exact congrArg some h | exact absurd h id

theorem ProcStep.unborn (hstep : ProcStep f pr pr') (h : pr'.stage.Unborn n) :
    pr.stage.Unborn n := by
  cases hstep with
  | respPipe hstage _ _ _ => rw [hstage]; exact h
  | openFile _ _ => exact h
  | closeFile _ _ _ => exact h
  | reap _ _ _ => exact h
  | _ => exact absurd h id

theorem Forest.set_procs {q : Num} {x : PipeProc} (hx : (f.set p pr').procs q = some x) :
    q = p ∧ x = pr' ∨ q ≠ p ∧ f.procs q = some x := by
  by_cases hq : q = p
  · rw [hq, Forest.set_self, Option.some.injEq] at hx
    exact .inl ⟨hq, hx.symm⟩
  · rw [Forest.set_of_ne hq] at hx
    exact .inr ⟨hq, hx⟩

theorem Forest.remove_procs {q : Num} {x : PipeProc} (hx : (f.remove p).procs q = some x) :
    q ≠ p ∧ f.procs q = some x := by
  by_cases hq : q = p
  · rw [hq, Forest.remove_self] at hx
    cases hx
  · rw [Forest.remove_of_ne hq] at hx
    exact ⟨hq, hx⟩

namespace ForestInv

theorem older (h : ForestInv f) (n g : Num) (hn : f.owner n = some g) : g < n := (h.old n g hn).1

theorem below_root (h : ForestInv f) (hp : f.procs p = some pr) : Below f.owner 0 p := by
  by_cases hzero : p = 0
  · rw [hzero]
    exact Below.refl f.owner 0
  · exact h.rooted p ((h.counted p pr hp).2 hzero)

theorem count_fresh (h : ForestInv f) :
    f.owner f.count = none ∧ f.procs f.count = none ∧ ∀ m, f.owner m ≠ some f.count := by
  refine ⟨?_, ?_, ?_⟩
  · rcases hown : f.owner f.count with _ | g
    · rfl
    · exact absurd (h.old _ g hown).2 (Nat.lt_irrefl _)
  · rcases hproc : f.procs f.count with _ | x
    · rfl
    · exact absurd (h.counted _ x hproc).1 (Nat.lt_irrefl _)
  · intro m hm
    have hlt := h.old m _ hm
    exact absurd (Nat.lt_trans hlt.1 hlt.2) (Nat.lt_irrefl _)

/-- One process changes, and with it the child it is making. -/
theorem set (h : ForestInv f) (hp : f.procs p = some pr) (hinv : ProcInv f.owner p pr')
    (hunborn : ∀ n, pr'.stage.Unborn n → f.procs n = none ∧ ∀ m, f.owner m ≠ some n) :
    ForestInv (f.set p pr') where
  root := h.root
  old := h.old
  rooted := h.rooted
  counted := by
    intro q x hx
    rcases Forest.set_procs hx with ⟨rfl, -⟩ | ⟨-, hx⟩
    · exact h.counted q pr hp
    · exact h.counted q x hx
  holds := by
    intro q x hx
    rcases Forest.set_procs hx with ⟨rfl, rfl⟩ | ⟨-, hx⟩
    · exact hinv
    · exact h.holds q x hx
  unborn := by
    intro q x n hx hn
    have hnone : f.procs n = none ∧ ∀ m, f.owner m ≠ some n := by
      rcases Forest.set_procs hx with ⟨rfl, rfl⟩ | ⟨-, hx⟩
      · exact hunborn n hn
      · exact h.unborn q x n hx hn
    refine ⟨?_, hnone.2⟩
    rw [Forest.set_of_ne, hnone.1]
    intro heq
    rw [heq, hp] at hnone
    cases hnone.1
  quits := h.quits

theorem remove (h : ForestInv f) (p : Num) : ForestInv (f.remove p) where
  root := h.root
  old := h.old
  rooted := h.rooted
  counted := fun q x hx => h.counted q x (Forest.remove_procs hx).2
  holds := fun q x hx => h.holds q x (Forest.remove_procs hx).2
  unborn := by
    intro q x n hx hn
    have hnone := h.unborn q x n (Forest.remove_procs hx).2 hn
    refine ⟨?_, hnone.2⟩
    by_cases heq : n = p
    · rw [heq, Forest.remove_self]
    · rw [Forest.remove_of_ne heq, hnone.1]
  quits := h.quits

theorem number (h : ForestInv f) (hp : f.procs p = some pr) (hstage : pr.stage = .ready) :
    ForestInv (f.number p) := by
  rcases h.count_fresh with ⟨hnone, hfree, hfresh⟩
  have hknown : ∀ m g, f.owner m = some g → (f.number p).owner m = some g := by
    intro m g hm
    rw [Forest.number_of_ne, hm]
    intro heq
    rw [heq, hnone] at hm
    cases hm
  have hcases : ∀ m g, (f.number p).owner m = some g →
      m = f.count ∧ g = p ∨ f.owner m = some g := by
    intro m g hm
    by_cases heq : m = f.count
    · rw [heq, Forest.number_self, Option.some.injEq] at hm
      exact .inl ⟨heq, hm.symm⟩
    · rw [Forest.number_of_ne heq] at hm
      exact .inr hm
  exact {
    root := Nat.succ_pos _
    old := by
      intro n g hn
      rcases hcases n g hn with ⟨rfl, rfl⟩ | hn
      · exact ⟨(h.counted g pr hp).1, Nat.lt_succ_self _⟩
      · exact ⟨(h.old n g hn).1, Nat.lt_succ_of_lt (h.old n g hn).2⟩
    rooted := by
      intro n hn
      have hp0 : Below f.owner 0 p := h.below_root hp
      by_cases heq : n = f.count
      · subst heq
        exact (below_update_self hfresh (Nat.ne_of_lt (h.counted p pr hp).1)).mpr (.inr hp0)
      · rw [Forest.number_of_ne heq] at hn
        exact (below_update hfresh heq _).mpr (h.rooted n hn)
    counted := by
      intro q x hx
      have hq := h.counted q x hx
      refine ⟨Nat.lt_succ_of_lt hq.1, fun hzero => ?_⟩
      rw [Forest.number_of_ne (Nat.ne_of_lt hq.1)]
      exact hq.2 hzero
    holds := by
      intro q x hx
      refine (h.holds q x hx).numbered hnone hfresh (Nat.ne_of_lt (h.counted q x hx).1) ?_
      intro heq
      have hsame : some x = some pr := hx.symm.trans (heq ▸ hp)
      rw [Option.some.inj hsame, hstage]
      rfl
    unborn := by
      intro q x n hx hn
      refine ⟨(h.unborn q x n hx hn).1, fun m hm => ?_⟩
      rcases hcases m n hm with ⟨-, rfl⟩ | hm
      · -- a process that runs has been born
        exact absurd (hp.symm.trans (h.unborn q x n hx hn).1) (by simp)
      · exact (h.unborn q x n hx hn).2 m hm
    quits := by
      intro x hx
      rcases h.quits x hx with hown | ⟨g, hown, hown', hlt⟩
      · exact .inl (hknown _ _ hown)
      · exact .inr ⟨g, hknown _ _ hown, hknown _ _ hown', hlt⟩ }

theorem spawn (h : ForestInv f) (hp : f.procs p = some pr) (hstage : pr.stage = .ready)
    {cmd0 cmd1 : Fd} (hfree0 : pr.fds cmd0 = none) (hfree1 : pr.fds cmd1 = none)
    (hne : cmd0 ≠ cmd1) :
    ForestInv ((f.number p).set p { pr with
        fds := openFd (openFd pr.fds cmd0 (.cmdRead f.count)) cmd1 (.cmdWrite f.count)
        stage := .cmdPiped f.count cmd0 cmd1 }) := by
  rcases h.count_fresh with ⟨hnone, hfree, hfresh⟩
  have hnum := h.number hp hstage
  refine hnum.set hp ?_ ?_
  · refine (hnum.holds p pr hp).spawn hstage Forest.number_self ?_ ?_ hfree0 hfree1 hne
    · exact fun m hm => Nat.le_of_lt_succ (hnum.old m p hm).2
    · exact fun e he hheld => (h.holds p pr hp).known e _ hheld he hnone
  · intro n hn
    have hcount : f.count = n := hn
    subst hcount
    refine ⟨hfree, fun m hm => ?_⟩
    by_cases heq : m = f.count
    · rw [heq, Forest.number_self, Option.some.injEq] at hm
      exact absurd (h.counted p pr hp).1 (hm ▸ Nat.lt_irrefl _)
    · rw [Forest.number_of_ne heq] at hm
      exact hfresh m hm

theorem fork (h : ForestInv f) (hp : f.procs p = some pr) {cmd0 cmd1 resp0 resp1 : Fd}
    (hstage : pr.stage = .bothPiped n cmd0 cmd1 resp0 resp1) :
    ForestInv ((f.set p { pr with stage := .forked n cmd0 cmd1 resp0 resp1 }).set n
      { pr with stage := .born cmd0 cmd1 resp0 resp1 }) := by
  have hinv := h.holds p pr hp
  have hnum : pr.stage.num = some n := by rw [hstage]; rfl
  have hspawn := hinv.spawning n hnum
  have hparent : ProcInv f.owner p { pr with stage := .forked n cmd0 cmd1 resp0 resp1 } := by
    refine hinv.closesEnds h.older hnum (Closes.refl _) ?_ ?_ ?_ ?_ ?_ ?_ ?_
    all_goals simp [hstage, SpawnStage.ends, SpawnStage.Has, SpawnStage.num, SpawnStage.Born]
  have hset := h.set hp hparent fun _ hn => absurd hn id
  have hlt := h.old n p hspawn.1
  exact {
    root := h.root
    old := h.old
    rooted := h.rooted
    counted := by
      intro q x hx
      rcases Forest.set_procs hx with ⟨rfl, -⟩ | ⟨-, hx⟩
      · exact ⟨hlt.2, fun _ hnone => by cases hspawn.1.symm.trans hnone⟩
      · exact hset.counted q x hx
    holds := by
      intro q x hx
      rcases Forest.set_procs hx with ⟨rfl, rfl⟩ | ⟨-, hx⟩
      · exact hinv.child hstage
      · exact hset.holds q x hx
    unborn := by
      intro q x m hx hm
      rcases Forest.set_procs hx with ⟨rfl, rfl⟩ | ⟨hqn, hx⟩
      · exact absurd hm id
      · have hnone := hset.unborn q x m hx hm
        refine ⟨?_, hnone.2⟩
        rw [Forest.set_of_ne, hnone.1]
        intro heq
        -- the number of a child belongs to one process only
        have howner := ((hset.holds q x hx).spawning m hm.num).1
        have hqp : q = p := by
          subst heq
          exact Option.some.inj (howner.symm.trans hspawn.1)
        rcases Forest.set_procs hx with ⟨-, rfl⟩ | ⟨hne, -⟩
        · exact hm
        · exact hne hqp
    quits := h.quits }

theorem exit (h : ForestInv f) (hp : f.procs p = some pr) :
    ForestInv { f.remove p with quits := f.quits ++ pr.children.map fun c => (p, c.num) } where
  root := h.root
  old := h.old
  rooted := h.rooted
  counted := (h.remove p).counted
  holds := (h.remove p).holds
  unborn := (h.remove p).unborn
  quits := by
    intro x hx
    rcases List.mem_append.mp hx with hx | hx
    · exact h.quits x hx
    · rcases List.mem_map.mp hx with ⟨c, hmem, rfl⟩
      have hinv := h.holds p pr hp
      by_cases hborn : pr.stage.Born
      · rcases Option.ne_none_iff_exists'.mp (hinv.born hborn) with ⟨g, hg⟩
        have hc := hinv.elders hborn c hmem
        exact .inr ⟨g, hc.1.trans hg, hg, hc.2⟩
      · exact .inl (hinv.kids hborn c hmem)

end ForestInv

/-- What one step keeps. -/
theorem PipeStep.inv (hstep : PipeStep a f f') (h : ForestInv f) : ForestInv f' := by
  cases hstep with
  | own hp hproc =>
      exact h.set hp (hproc.inv h.older (h.holds _ _ hp)) fun n hn =>
        h.unborn _ _ n hp (hproc.unborn hn)
  | spawn hp hstage hfree0 hfree1 hne => exact h.spawn hp hstage hfree0 hfree1 hne
  | fork hp hstage => exact h.fork hp hstage
  | exit hp => exact h.exit hp
  | killed hp => exact h.remove _

theorem firstForest_inv (inherited : Fd → Bool) : ForestInv (firstForest inherited) := by
  have hroot : ∀ p pr, (firstForest inherited).procs p = some pr →
      p = 0 ∧ pr = firstProc inherited := by
    intro p pr hp
    by_cases hzero : p = 0
    · subst hzero
      exact ⟨rfl, (Option.some.inj hp).symm⟩
    · simp [firstForest, Function.update_of_ne hzero] at hp
  have hheld : ∀ e, Held (firstProc inherited).fds e → e = .other := by
    intro e hheld
    rcases hheld with ⟨fd, hfd⟩
    simp only [firstProc] at hfd
    split at hfd
    · exact (Option.some.inj hfd).symm
    · cases hfd
  exact {
    root := Nat.one_pos
    old := fun n g hn => by cases hn
    rooted := fun n hn => absurd rfl hn
    counted := by
      intro p pr hp
      rcases hroot p pr hp with ⟨rfl, -⟩
      exact ⟨Nat.one_pos, fun hzero => absurd rfl hzero⟩
    holds := by
      intro p pr hp
      rcases hroot p pr hp with ⟨rfl, rfl⟩
      exact {
        once := fun e he fd _ hfd _ => absurd (hheld e ⟨fd, hfd⟩) he
        known := by
          intro e n hopen hnum
          rw [hheld e hopen] at hnum
          cases hnum
        reads := fun n hopen => by cases hheld _ hopen
        writes := fun n hopen => by cases hheld _ hopen
        responds := fun n hopen => by cases hheld _ hopen
        carries := fun n _ hn => absurd rfl hn
        kept := by
          intro fd e hk
          cases hk with
          | stdin _ => simp [firstProc, stdinEnd]
          | inherited hb _ => exact absurd hb id
          | response _ hfd => cases hfd
          | command hmem => exact absurd hmem List.not_mem_nil
          | answer hmem => exact absurd hmem List.not_mem_nil
        ends := fun x hx => absurd hx List.not_mem_nil
        unmade := fun _ _ _ hs => by cases hs
        kids := fun _ _ hmem => absurd hmem List.not_mem_nil
        elders := fun _ _ hmem => absurd hmem List.not_mem_nil
        distinct := List.nodup_nil
        spawning := fun _ hs => by cases hs
        answering := fun _ hzero => absurd rfl hzero
        born := fun hb => absurd hb id }
    unborn := by
      intro p pr n hp hn
      rcases hroot p pr hp with ⟨-, rfl⟩
      exact absurd hn id
    quits := fun x hx => absurd hx List.not_mem_nil }

/-- What every run keeps. -/
theorem reachable_forestInv (h : pipeSpec.Reachable f) : ForestInv f := by
  refine pipeSpec.invariant ForestInv ?_ ?_ h
  · rintro _ ⟨inherited, rfl⟩
    exact firstForest_inv inherited
  · rintro g g' ⟨a, hstep⟩ hinv
    exact hstep.inv hinv

end Memtoy
