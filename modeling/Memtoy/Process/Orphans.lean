import Mathlib.Algebra.BigOperators.Group.Finset.Basic
import Mathlib.Algebra.Order.BigOperators.Group.Finset
import Memtoy.Process.Holding

/-!
# Process.Orphans — who sees end of file

What the descriptors of the tree mean for its processes: only the child reads its command
pipe; `child_wait` sees end of file when all that is below the child has gone; and a
process whose parent has gone sees end of file on standard input when no younger orphan
holds the write end, so that a tree without its root comes to an end by itself.
-/

namespace Memtoy

open Ancestry Descriptors Trans

variable {f f' : Forest} {p q n : Num} {pr pr' qr : PipeProc}

/-! ## The ends that are used -/

/-- A root with two children in their loops; the second has the write end to the first. -/
theorem exists_siblings : ∃ f pr₀ pr₁ pr₂, pipeSpec.Reachable f ∧ f.procs 0 = some pr₀ ∧
    f.procs 1 = some pr₁ ∧ f.procs 2 = some pr₂ ∧ f.owner 1 = some 0 ∧
    pr₀.stage = .ready ∧ pr₀.children = [⟨1, 4, 5⟩, ⟨2, 6, 7⟩] ∧ pr₁.stage = .ready ∧
    pr₂.stage = .ready ∧ pr₂.fds 4 = some (.cmdWrite 1) := by
  have h := Spec.Reachable.init (S := pipeSpec) ⟨fun _ => false, rfl⟩
  -- the first child
  have h := h.step ⟨_, @PipeStep.spawn _ 0 _ 3 4 rfl rfl rfl rfl (by decide)⟩
  have h := h.step ⟨_, @PipeStep.own _ 0 _ _ rfl
    (@ProcStep.respPipe _ 1 _ 3 4 5 6 rfl rfl rfl (by decide))⟩
  have h := h.step ⟨_, @PipeStep.fork _ 0 1 _ 3 4 5 6 rfl rfl⟩
  have h := h.step ⟨_, @PipeStep.own _ 0 _ _ rfl (@ProcStep.closeEnds _ 1 _ 3 4 5 6 rfl)⟩
  have h := h.step ⟨_, @PipeStep.own _ 0 _ _ rfl (@ProcStep.insert _ 1 _ 4 5 rfl)⟩
  have h := h.step ⟨_, @PipeStep.own _ 1 _ _ rfl (@ProcStep.start _ _ 3 4 5 6 rfl)⟩
  -- the second
  have h := h.step ⟨_, @PipeStep.spawn _ 0 _ 3 6 rfl rfl rfl rfl (by decide)⟩
  have h := h.step ⟨_, @PipeStep.own _ 0 _ _ rfl
    (@ProcStep.respPipe _ 2 _ 3 6 7 8 rfl rfl rfl (by decide))⟩
  have h := h.step ⟨_, @PipeStep.fork _ 0 2 _ 3 6 7 8 rfl rfl⟩
  have h := h.step ⟨_, @PipeStep.own _ 0 _ _ rfl (@ProcStep.closeEnds _ 2 _ 3 6 7 8 rfl)⟩
  have h := h.step ⟨_, @PipeStep.own _ 0 _ _ rfl (@ProcStep.insert _ 2 _ 6 7 rfl)⟩
  have h := h.step ⟨_, @PipeStep.own _ 2 _ _ rfl (@ProcStep.start _ _ 3 6 7 8 rfl)⟩
  exact ⟨_, _, _, _, h, rfl, rfl, rfl, rfl, rfl, rfl, rfl, rfl, rfl⟩
/-- A process in its loop reads its own command pipe and answers on its own response pipe;
its records name the pipes of its own children. The command pipe has no other reader, but
for the parent that has not closed its end yet and for children that have not either. -/
theorem process_descriptors (h : pipeSpec.Reachable f) (hp : f.procs p = some pr)
    (hborn : ¬ pr.stage.Born) :
    (p ≠ 0 → pr.fds 0 = some (.cmdRead p) ∧
      ∃ fd, pr.responseFd = some fd ∧ pr.fds fd = some (.respWrite p)) ∧
    (∀ c ∈ pr.children, f.owner c.num = some p ∧ pr.fds c.cCfd = some (.cmdWrite c.num) ∧
      pr.fds c.cRfd = some (.respRead c.num)) ∧
    ∀ q qr, f.procs q = some qr → Held qr.fds (.cmdRead p) →
      q = p ∨ f.owner p = some q ∧ qr.stage.num = some p ∨ f.owner q = some p ∧ qr.stage.Born := by
  have hinv := reachable_forestInv h
  have hproc := hinv.holds p pr hp
  refine ⟨fun hzero => ⟨?_, ?_⟩, fun c hmem => ?_, fun q qr hq hheld => ?_⟩
  · have hstdin := hproc.kept _ _ (.stdin hborn)
    rwa [stdinEnd, if_neg hzero] at hstdin
  · rcases hproc.answering hborn hzero with ⟨fd, hfd⟩
    exact ⟨fd, hfd, hproc.kept _ _ (.response hborn hfd)⟩
  · exact ⟨hproc.kids hborn c hmem, hproc.kept _ _ (.command hmem), hproc.kept _ _ (.answer hmem)⟩
  · have hq' := hinv.holds q qr hq
    rcases hq'.reads p hheld with heq | ⟨fd, hends⟩ | ⟨hb, hown⟩
    · exact .inl heq.symm
    · by_cases hb : qr.stage.Born
      · exact .inl (Option.some.inj (SpawnStage.num_of_ends_born hends hb)).symm
      · rcases SpawnStage.num_of_ends hends hb with ⟨n, hn, hpn⟩
        cases hpn
        exact .inr (.inl ⟨(hq'.spawning _ hn).1, hn⟩)
    · exact .inr (.inr ⟨hown, hb⟩)

theorem process_descriptors_child : ∃ f pr, pipeSpec.Reachable f ∧ f.procs 1 = some pr ∧
    pr.fds 0 = some (.cmdRead 1) := by
  rcases exists_siblings with ⟨f, _, pr₁, _, h, _, hp, _, _, _, _, hstage, _⟩
  have hborn : ¬ pr₁.stage.Born := by rw [hstage]; exact id
  exact ⟨f, pr₁, h, hp, ((process_descriptors h hp hborn).1 (by decide)).1⟩

/-- `child_wait` sees end of file exactly when no process below the child is left. -/
theorem response_eof_iff (h : pipeSpec.Reachable f) (hp : f.procs p = some pr)
    (hborn : ¬ pr.stage.Born) {c : PipeChild} (hmem : c ∈ pr.children) :
    (∀ q qr, f.procs q = some qr → ¬ Held qr.fds (.respWrite c.num)) ↔
      ∀ q qr, f.procs q = some qr → ¬ Below f.owner c.num q := by
  have hinv := reachable_forestInv h
  have hown := (hinv.holds p pr hp).kids hborn c hmem
  refine forall_congr' fun q => forall_congr' fun qr => forall_congr' fun hq => not_congr ?_
  have hq' := hinv.holds q qr hq
  constructor
  · intro hheld
    rcases hq'.responds c.num hheld with hbelow | ⟨fd, hends⟩
    · exact hbelow
    · by_cases hb : qr.stage.Born
      · have heq : c.num = q := Option.some.inj (SpawnStage.num_of_ends_born hends hb)
        exact heq ▸ Below.refl _ _
      · -- a child in the list is not one that is being made
        rcases SpawnStage.num_of_ends hends hb with ⟨n, hn, hcn⟩
        cases hcn
        have hspawn := hq'.spawning _ hn
        have hqp : q = p := Option.some.inj (hspawn.1.symm.trans hown)
        subst hqp
        have hsame : qr = pr := Option.some.inj (hq.symm.trans hp)
        exact absurd rfl (hspawn.2.2 c (hsame ▸ hmem))
  · exact fun hbelow => hq'.carries c.num hbelow (by simp [hown])

theorem response_eof_iff_child : ∃ f pr, pipeSpec.Reachable f ∧ f.procs 1 = some pr ∧
    ¬ ∀ q qr, f.procs q = some qr → ¬ Held qr.fds (.respWrite 1) := by
  rcases exists_siblings with ⟨f, pr₀, pr₁, _, h, hroot, hp, _, _, hstage, hchildren, _, _⟩
  have hborn : ¬ pr₀.stage.Born := by rw [hstage]; exact id
  have hmem : (⟨1, 4, 5⟩ : PipeChild) ∈ pr₀.children := by simp [hchildren]
  refine ⟨f, pr₁, h, hp, fun hnone => ?_⟩
  exact (response_eof_iff h hroot hborn hmem).mp hnone 1 pr₁ hp (Below.refl f.owner 1)

/-- A process that runs and whose parent does not. -/
def Orphan (f : Forest) (p : Num) : Prop :=
  f.procs p ≠ none ∧ ∃ g, f.owner p = some g ∧ f.procs g = none

/-- Who can still write to an orphan descends from a younger orphan. -/
theorem ForestInv.orphan_writer (h : ForestInv f) (horphan : Orphan f p) (hp : f.procs p = some pr)
    (hborn : ¬ pr.stage.Born) (hq : f.procs q = some qr) (hheld : Held qr.fds (.cmdWrite p)) :
    ∃ t, Orphan f t ∧ p < t ∧ Below f.owner t q := by
  rcases horphan with ⟨-, g, hg, hgone⟩
  rcases (h.holds q qr hq).writes p hheld with hown | ⟨hb, heq⟩ | ⟨s, hs, hlt, hsq⟩
  · -- the parent does not run
    rw [hg, Option.some.injEq] at hown
    rw [hown, hq] at hgone
    cases hgone
  · subst heq
    rw [hp, Option.some.injEq] at hq
    exact absurd (hq ▸ hb) hborn
  · have htop := exists_top (fun t => f.procs t ≠ none) hsq (by simp [hq]) fun g' hg' => by
      rw [hs, hg, Option.some.injEq] at hg'
      simp [← hg', hgone]
    rcases htop with ⟨t, hst, htq, hlive, hparent⟩
    have hpt : p < t := Nat.lt_of_lt_of_le hlt (hst.le h.older)
    rcases Option.ne_none_iff_exists'.mp hlive with ⟨tr, htr⟩
    have hzero : t ≠ 0 := Nat.ne_of_gt (Nat.lt_of_le_of_lt (Nat.zero_le p) hpt)
    rcases Option.ne_none_iff_exists'.mp ((h.counted t tr htr).2 hzero) with ⟨g', hg'⟩
    exact ⟨t, ⟨hlive, g', hg', not_not.mp (hparent g' hg')⟩, hpt, htq⟩

/-- The youngest of the orphans. -/
theorem ForestInv.exists_youngest (h : ForestInv f) (horphan : ∃ p, Orphan f p) :
    ∃ p, Orphan f p ∧ ∀ t, Orphan f t → t ≤ p := by
  classical
  rcases horphan with ⟨p, hp⟩
  have hbound : ∀ t, Orphan f t → t ≤ f.count := by
    intro t ht
    rcases Option.ne_none_iff_exists'.mp ht.1 with ⟨tr, htr⟩
    exact Nat.le_of_lt (h.counted t tr htr).1
  exact ⟨Nat.findGreatest (Orphan f) f.count, Nat.findGreatest_spec (hbound p hp) hp,
    fun t ht => Nat.le_findGreatest (hbound t ht) ht⟩

/-- Of the processes that run without a root, the oldest is an orphan. -/
theorem ForestInv.exists_orphan (h : ForestInv f) (hroot : f.procs 0 = none)
    (hlive : f.procs p ≠ none) : ∃ t, Orphan f t := by
  classical
  have hex : ∃ t, f.procs t ≠ none := ⟨p, hlive⟩
  have hfirst := Nat.find_spec hex
  rcases Option.ne_none_iff_exists'.mp hfirst with ⟨tr, htr⟩
  have hzero : Nat.find hex ≠ 0 := by
    intro heq
    rw [heq] at hfirst
    exact hfirst hroot
  rcases Option.ne_none_iff_exists'.mp ((h.counted _ tr htr).2 hzero) with ⟨g, hg⟩
  exact ⟨Nat.find hex, hfirst, g, hg, not_not.mp (Nat.find_min hex (h.older _ g hg))⟩

/-! ## The end of a tree without its root -/

/-- What goes on when nobody types a command: a `child_spawn` that has begun goes on, children
that have ended are reaped, and a process in its loop sees end of file when no write end of
its command pipe is open. -/
inductive Drains : Forest → Forest → Prop where
  | goesOn {f : Forest} {p : Num} {pr pr' : PipeProc} : f.procs p = some pr →
      ProcStep f pr pr' → (pr'.stage ≠ pr.stage ∨ pr'.children ≠ pr.children) →
      Drains f (f.set p pr')
  | fork {f f' : Forest} {p n : Num} : PipeStep (.fork p n) f f' → Drains f f'
  | eof {f f' : Forest} {p : Num} {pr : PipeProc} : f.procs p = some pr → pr.stage = .ready →
      (∀ q qr, f.procs q = some qr → ¬ Held qr.fds (.cmdWrite p)) → PipeStep (.exit p) f f' →
      Drains f f'

theorem Drains.step (h : Drains f f') : ∃ a, PipeStep a f f' := by
  cases h with
  | goesOn hp hproc _ => exact ⟨_, .own hp hproc⟩
  | fork hstep => exact ⟨_, hstep⟩
  | eof _ _ _ hstep => exact ⟨_, hstep⟩

/-- A bound on the steps left to a process, those of the child it is making included, which
starts with as many records. -/
def PipeProc.work (pr : PipeProc) : Nat :=
  match pr.stage with
  | .ready => 1 + pr.children.length
  | .uninserted _ _ _ => 3 + pr.children.length
  | .forked _ _ _ _ _ => 4 + pr.children.length
  | .born _ _ _ _ => 2 + pr.children.length
  | .bothPiped _ _ _ _ _ => 7 + 2 * pr.children.length
  | .cmdPiped _ _ _ => 8 + 2 * pr.children.length

def workOf (pr : Option PipeProc) : Nat := pr.elim 0 PipeProc.work

def Forest.work (f : Forest) : Nat := ∑ p ∈ Finset.range f.count, workOf (f.procs p)

/-- A process in the middle of `child_spawn` can go on. -/
theorem exists_goesOn (f : Forest) (hstage : pr.stage ≠ .ready) :
    ∃ pr', ProcStep f pr pr' ∧ pr'.stage ≠ pr.stage := by
  cases hs : pr.stage with
  | ready => exact absurd hs hstage
  | cmdPiped n cmd0 cmd1 => exact ⟨_, .respPipeFails hs, by simp⟩
  | bothPiped n cmd0 cmd1 resp0 resp1 => exact ⟨_, .forkFails hs, by simp⟩
  | forked n cmd0 cmd1 resp0 resp1 => exact ⟨_, .closeEnds hs, by simp⟩
  | uninserted n cmd1 resp0 => exact ⟨_, .insert hs, by simp⟩
  | born cmd0 cmd1 resp0 resp1 => exact ⟨_, .start hs, by simp⟩

theorem ProcStep.work (hstep : ProcStep f pr pr')
    (hne : pr'.stage ≠ pr.stage ∨ pr'.children ≠ pr.children) : pr'.work < pr.work := by
  cases hstep with
  | openFile _ _ => exact absurd hne (by simp)
  | closeFile _ _ _ => exact absurd hne (by simp)
  | reap hborn hmem _ =>
      have hlen := List.length_erase_of_mem hmem
      have hpos := List.length_pos_of_mem hmem
      cases hs : pr.stage <;> simp only [PipeProc.work, hs, hlen] <;> omega
  | respPipe hs _ _ _ => simp [PipeProc.work, hs]
  | respPipeFails hs => simp only [PipeProc.work, hs]; omega
  | forkFails hs => simp only [PipeProc.work, hs]; omega
  | closeEnds hs => simp [PipeProc.work, hs]
  | insert hs => simp only [PipeProc.work, hs, List.length_append, List.length_singleton]; omega
  | start hs => simp only [PipeProc.work, hs, List.length_nil]; omega

/-- The work of the tree, when one process changes. -/
theorem work_update (procs : Num → Option PipeProc) {count : Num} (hp : p < count)
    (o : Option PipeProc) :
    (∑ q ∈ Finset.range count, workOf (Function.update procs p o q)) + workOf (procs p) =
      (∑ q ∈ Finset.range count, workOf (procs q)) + workOf o := by
  have hmem := Finset.mem_range.mpr hp
  rw [← Finset.add_sum_erase _ _ hmem, ← Finset.add_sum_erase _ (fun q => workOf (procs q)) hmem,
    Function.update_self]
  have hrest : ∑ q ∈ (Finset.range count).erase p, workOf (Function.update procs p o q) =
      ∑ q ∈ (Finset.range count).erase p, workOf (procs q) :=
    Finset.sum_congr rfl fun q hq => by rw [Function.update_of_ne (Finset.ne_of_mem_erase hq)]
  rw [hrest, Nat.add_right_comm, Nat.add_comm (workOf o), Nat.add_right_comm,
    Nat.add_comm (workOf (procs p))]

theorem Forest.work_set (hp : f.procs p = some pr) (hcount : p < f.count) (pr' : PipeProc) :
    (f.set p pr').work + pr.work = f.work + pr'.work := by
  have h := work_update f.procs hcount (some pr')
  rwa [hp] at h

theorem Forest.work_add (hfree : f.procs p = none) (hcount : p < f.count) (pr : PipeProc) :
    (f.set p pr).work = f.work + pr.work := by
  have h := work_update f.procs hcount (some pr)
  rwa [hfree] at h

theorem Forest.work_remove (hp : f.procs p = some pr) (hcount : p < f.count) :
    (f.remove p).work + pr.work = f.work := by
  have h := work_update f.procs hcount none
  rwa [hp] at h

/-- Every step brings the tree nearer to its end. -/
theorem Drains.lower (hstep : Drains f f') (h : ForestInv f) : f'.work < f.work := by
  cases hstep with
  | goesOn hp hproc hne =>
      rename_i p pr pr'
      have hset := f.work_set hp (h.counted _ _ hp).1 pr'
      have hlt := hproc.work hne
      omega
  | fork hstep =>
      cases hstep with
      | fork hp hstage =>
          rename_i p n pr cmd0 cmd1 resp0 resp1
          have hspawn := (h.holds p pr hp).spawning n (by rw [hstage]; rfl)
          have hold := h.old n p hspawn.1
          have hparent := f.work_set hp (h.counted _ _ hp).1
            { pr with stage := .forked n cmd0 cmd1 resp0 resp1 }
          -- the child was not there
          have hfree : (f.set p { pr with stage := .forked n cmd0 cmd1 resp0 resp1 }).procs n =
              none := by
            rw [Forest.set_of_ne (Nat.ne_of_gt hold.1)]
            exact (h.unborn p pr n hp (by rw [hstage]; rfl)).1
          have hchild := Forest.work_add hfree hold.2
            { pr with stage := .born cmd0 cmd1 resp0 resp1 }
          simp only [PipeProc.work, hstage] at hparent hchild
          omega
  | eof hp hstage hnone hstep =>
      cases hstep with
      | exit hp' =>
          rename_i p pr pr'
          have hgone := f.work_remove hp (h.counted _ _ hp).1
          simp only [PipeProc.work, hstage] at hgone
          exact Nat.lt_of_lt_of_le (Nat.lt_add_of_pos_right (Nat.add_pos_left Nat.one_pos _))
            (Nat.le_of_eq hgone)

theorem Drains.rootless (hstep : Drains f f') (h : ForestInv f) (hroot : f.procs 0 = none) :
    f'.procs 0 = none := by
  cases hstep with
  | goesOn hp _ _ =>
      rw [Forest.set_of_ne, hroot]
      intro heq
      rw [← heq, hroot] at hp
      cases hp
  | fork hstep =>
      cases hstep with
      | fork hp hstage =>
          rename_i p n pr cmd0 cmd1 resp0 resp1
          have hspawn := (h.holds p pr hp).spawning n (by rw [hstage]; rfl)
          have hn : 0 ≠ n :=
            Nat.ne_of_lt (Nat.lt_of_le_of_lt (Nat.zero_le p) (h.older n p hspawn.1))
          rw [Forest.set_of_ne hn, Forest.set_of_ne, hroot]
          intro heq
          rw [← heq, hroot] at hp
          cases hp
  | eof hp _ _ hstep =>
      cases hstep with
      | exit hp' =>
          rename_i p pr pr'
          refine (Forest.remove_of_ne ?_).trans hroot
          intro heq
          rw [← heq, hroot] at hp
          cases hp

/-- Without a root there is always a step, as long as a process is left. -/
theorem ForestInv.drains (h : ForestInv f) (hroot : f.procs 0 = none) (hlive : f.procs p ≠ none) :
    ∃ f', Drains f f' := by
  by_cases hready : ∀ q qr, f.procs q = some qr → qr.stage = .ready
  · -- the youngest orphan sees end of file
    rcases h.exists_youngest (h.exists_orphan hroot hlive) with ⟨t, horphan, hyoungest⟩
    rcases Option.ne_none_iff_exists'.mp horphan.1 with ⟨tr, htr⟩
    have hborn : ¬ tr.stage.Born := by rw [hready t tr htr]; exact id
    refine ⟨_, .eof htr (hready t tr htr) (fun q qr hq hheld => ?_) (.exit htr)⟩
    rcases h.orphan_writer horphan htr hborn hq hheld with ⟨t', ht', hlt, -⟩
    exact absurd (hyoungest t' ht') (Nat.not_le_of_lt hlt)
  · simp only [not_forall] at hready
    rcases hready with ⟨q, qr, hq, hstage⟩
    rcases exists_goesOn f hstage with ⟨qr', hstep, hne⟩
    exact ⟨_, .goesOn hq hstep (.inl hne)⟩

/-- However the processes of a tree without its root are scheduled, with no signal and no
input they all come to an end: no run goes on for ever, and it stops only when no process
is left. -/
theorem tree_drains (h : pipeSpec.Reachable f) (hroot : f.procs 0 = none) :
    Acc (fun f' f => Drains f f') f ∧
      ∀ f', Relation.ReflTransGen Drains f f' → (∀ f'', ¬ Drains f' f'') →
        ∀ p, f'.procs p = none := by
  have hinv := reachable_forestInv h
  refine ⟨acc_of_measure ForestInv Forest.work (fun f f' hstep hf => ?_) hinv, ?_⟩
  · rcases hstep.step with ⟨a, ha⟩
    exact ⟨ha.inv hf, hstep.lower hf⟩
  · intro f' hrun hend p
    have hkept : ForestInv f' ∧ f'.procs 0 = none := by
      refine preserved_of_star (fun f => ForestInv f ∧ f.procs 0 = none) ?_ hrun ⟨hinv, hroot⟩
      intro f f' hstep hf
      rcases hstep.step with ⟨a, ha⟩
      exact ⟨ha.inv hf.1, hstep.rootless hf.1 hf.2⟩
    by_contra hlive
    rcases hkept.1.drains hkept.2 hlive with ⟨f'', hstep⟩
    exact hend f'' hstep

theorem tree_drains_siblings : ∃ f, pipeSpec.Reachable f ∧ f.procs 1 ≠ none ∧
    Acc (fun f' f => Drains f f') f := by
  rcases exists_siblings with ⟨f, pr₀, pr₁, _, h, hroot, hp, _⟩
  have hgone := h.step ⟨_, .killed hroot⟩
  have hp' : (f.remove 0).procs 1 = some pr₁ := (Forest.remove_of_ne (by decide)).trans hp
  exact ⟨f.remove 0, hgone, by simp [hp'], (tree_drains hgone Forest.remove_self).1⟩

end Memtoy
