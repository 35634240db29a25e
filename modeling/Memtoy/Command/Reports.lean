import Memtoy.Command.Answers
import Memtoy.Command.Handlers

/-!
# Command.Reports — a failed command is reported

`Cmd.Reports` is the weakest precondition of "it ends in a definite way, and with
`CMD_ERROR` if anything was complained about". There is one rule for each thing a
handler can do, each an equivalence, so that applying them to a handler's body leaves
exactly the condition under which the handler reports; the parsers come in through
`Honest`.
-/

namespace Memtoy

open CString

/-! ## The precondition -/

/-- It returns one of the two values, or it is `exit(0)` of `quit`. -/
def Ending.Definite (e : Ending) : Prop := e = .ret .success ∨ e = .ret .error ∨ e = .exit 0

/-- Ending `e` after the complaints `cs` is definite, and an error if there were any. -/
def Ending.Honours (e : Ending) (cs : List Complaint) : Prop :=
  e.Definite ∧ (cs ≠ [] → e = .ret .error)

@[simp] theorem honours_error (cs : List Complaint) : Ending.Honours (.ret .error) cs :=
  ⟨Or.inr (Or.inl rfl), fun _ => rfl⟩

@[simp] theorem honours_success {cs : List Complaint} :
    Ending.Honours (.ret .success) cs ↔ cs = [] := by
  constructor
  · rintro ⟨-, hcs⟩
    by_contra hne
    cases hcs hne
  · rintro rfl
    exact ⟨Or.inl rfl, fun hne => absurd rfl hne⟩

@[simp] theorem honours_exit {cs : List Complaint} : Ending.Honours (.exit 0) cs ↔ cs = [] := by
  constructor
  · rintro ⟨-, hcs⟩
    by_contra hne
    cases hcs hne
  · rintro rfl
    exact ⟨Or.inr (Or.inr rfl), fun hne => absurd rfl hne⟩

/-- Neither a value of nowhere nor an end that is none is definite. -/
theorem not_honours_garbage (cs : List Complaint) : ¬ Ending.Honours .garbage cs := by
  rintro ⟨hd | hd | hd, -⟩ <;> cases hd

theorem not_honours_crash (cs : List Complaint) : ¬ Ending.Honours .crash cs := by
  rintro ⟨hd | hd | hd, -⟩ <;> cases hd

theorem not_honours_hangs (cs : List Complaint) : ¬ Ending.Honours .hangs cs := by
  rintro ⟨hd | hd | hd, -⟩ <;> cases hd

attribute [simp] not_honours_garbage not_honours_crash not_honours_hangs

namespace Cmd

variable {α β : Type} {w : World} {s : Shell} {cs : List Complaint}

/-- After the complaints `cs`, `m` honours them and its own, or goes on with `Q`. -/
def Reports (m : Cmd α) (w : World) (s : Shell) (cs : List Complaint)
    (Q : α → Shell → List Complaint → Prop) : Prop :=
  match m w s with
  | ⟨.next a, s', cs'⟩ => Q a s' (cs ++ cs')
  | ⟨.stop e, _, cs'⟩ => e.Honours (cs ++ cs')

/-! ## Rules -/

@[simp] theorem reports_bind {m : Cmd α} {f : α → Cmd β}
    {Q : β → Shell → List Complaint → Prop} :
    Reports (m >>= f) w s cs Q ↔
      Reports m w s cs (fun a s' cs' => Reports (f a) w s' cs' Q) := by
  show Reports (andThen m f) w s cs Q ↔ _
  unfold Reports andThen
  rcases m w s with ⟨a | e, s', cs'⟩
  · rcases hf : f a w s' with ⟨b | e, s'', cs''⟩ <;> simp [hf, List.append_assoc]
  · exact Iff.rfl

@[simp] theorem reports_next {a : α} {Q : α → Shell → List Complaint → Prop} :
    Reports (next a) w s cs Q ↔ Q a s cs := by
  simp [Reports, next]

@[simp] theorem reports_pure {a : α} {Q : α → Shell → List Complaint → Prop} :
    Reports (pure a) w s cs Q ↔ Q a s cs := reports_next

@[simp] theorem reports_world {Q : World → Shell → List Complaint → Prop} :
    Reports world w s cs Q ↔ Q w s cs := by
  simp [Reports, world]

@[simp] theorem reports_shell {Q : Shell → Shell → List Complaint → Prop} :
    Reports shell w s cs Q ↔ Q s s cs := by
  simp [Reports, shell]

@[simp] theorem reports_setShell {s' : Shell} {Q : Unit → Shell → List Complaint → Prop} :
    Reports (setShell s') w s cs Q ↔ Q () s' cs := by
  simp [Reports, setShell]

@[simp] theorem reports_stop {e : Ending} {Q : α → Shell → List Complaint → Prop} :
    Reports (stop e) w s cs Q ↔ e.Honours cs := by
  simp [Reports, stop]

@[simp] theorem reports_cmdError {Q : α → Shell → List Complaint → Prop} :
    Reports cmdError w s cs Q := by
  rw [cmdError, reports_stop]
  exact honours_error cs

@[simp] theorem reports_complain {cs' : List Complaint} {Q : Unit → Shell → List Complaint → Prop} :
    Reports (complain cs') w s cs Q ↔ Q () s (cs ++ cs') := by
  simp [Reports, complain]

theorem reports_ite {P : Prop} [Decidable P] {m m' : Cmd α}
    {Q : α → Shell → List Complaint → Prop} :
    Reports (if P then m else m') w s cs Q ↔
      (P → Reports m w s cs Q) ∧ (¬ P → Reports m' w s cs Q) := by
  by_cases hP : P <;> simp [hP]

/-- A parser that is honest goes on without a complaint, or ends in `CMD_ERROR`. -/
theorem reports_orError {r : Option α × List Complaint} (hr : Honest r)
    {Q : α → Shell → List Complaint → Prop} :
    Reports (orError r) w s cs Q ↔ ∀ a, r.1 = some a → Q a s cs := by
  rcases r with ⟨_ | a, cs'⟩
  · simp [Reports, orError]
  · have hcs : cs' = [] := by
      by_contra hne
      cases hr hne
    simp [Reports, orError, hcs]

/-- A call of the segment API answers, and goes on with what it answered. -/
theorem reports_callSegment {op : Op} {hok : op.Ok} {Q : Bool → Shell → List Complaint → Prop} :
    Reports (callSegment op hok) w s cs Q ↔
      (op.answer s.table.g = .ok ∧ Q true { s with table := s.table.exec op hok } cs) ∨
        (op.answer s.table.g = .err ∧
          Q false { s with table := s.table.exec op hok } (cs ++ [.segErr])) := by
  unfold Reports callSegment
  cases op.answer s.table.g <;> simp

theorem reports_segment {op : Op} {hok : op.Ok} {Q : Unit → Shell → List Complaint → Prop} :
    Reports (segment op hok) w s cs Q ↔
      (op.answer s.table.g = .ok ∧ Q () { s with table := s.table.exec op hok } cs) ∨
        op.answer s.table.g = .err := by
  rw [segment, reports_bind, reports_callSegment]
  simp

/-- The end of a handler: nothing was complained about. -/
def Clean (_ : Unit) (_ : Shell) (cs : List Complaint) : Prop := cs = []

/-- The handler ends in a definite way, in `CMD_ERROR` if anything failed. -/
def Sound (m : Cmd Unit) (w : World) (s : Shell) : Prop := Reports m w s [] Clean

@[simp] theorem clean_iff {u : Unit} : Clean u s cs ↔ cs = [] := Iff.rfl

/-! ## The openings -/

theorem reports_required {args argName : CStr} {Q : Unit → Shell → List Complaint → Prop} :
    Reports (required args argName) w s cs Q ↔ (args ≠ [] → Q () s cs) := by
  rw [required, reports_bind, reports_shell, reports_orError (honest_requiredArg _ _ _)]
  by_cases hargs : args = []
  · simp [requiredArg, hargs]
  · simp [requiredArg, hargs, Unique.forall_iff]

/-- The first word of `args`, and what follows it. -/
def Word1 (args word rest : CStr) : Prop :=
  skipBlanks args ≠ [] ∧ nextToken (skipBlanks args) = (word, rest)

theorem reports_takeArg {args argName : CStr} {Q : CStr × CStr → Shell → List Complaint → Prop} :
    Reports (takeArg args argName) w s cs Q ↔
      ∀ word rest, Word1 args word rest → Q (word, rest) s cs := by
  simp only [takeArg, reports_bind, reports_required, reports_pure, Word1]
  constructor
  · rintro h word rest ⟨hne, heq⟩
    rw [← heq]
    exact h hne
  · intro h hne
    exact h _ _ ⟨hne, rfl⟩

theorem reports_takeRange {args : CStr} {Q : Range × CStr → Shell → List Complaint → Prop} :
    Reports (takeRange args) w s cs Q ↔
      ∀ r, (getRange s.table.g.pagesize args).1 = some r → Q r s cs := by
  rw [takeRange, reports_bind, reports_shell, reports_orError (honest_getRange _ _)]

theorem reports_needNuma {Q : Unit → Shell → List Complaint → Prop} :
    Reports needNuma w s cs Q ↔ (0 < s.numaMaxNode → Q () s cs) := by
  rw [needNuma, reports_bind, reports_shell, reports_orError (honest_numaSupported _)]
  by_cases hnuma : s.numaMaxNode ≤ 0
  · simp [numaSupported, hnuma]
  · simp [numaSupported, hnuma, Int.not_le.mp hnuma, Unique.forall_iff]

/-- `<size>` and what follows it. -/
def Sized (pagesize : Word) (args : CStr) (length : Word) (rest : CStr) : Prop :=
  args ≠ [] ∧ (nextToken args).2 = rest ∧
    (getScaledValue pagesize (nextToken args).1 "size".toList).1 = some length

theorem reports_takeSize {args : CStr} {Q : Word × CStr → Shell → List Complaint → Prop} :
    Reports (takeSize args) w s cs Q ↔
      ∀ length rest, Sized s.table.g.pagesize args length rest → Q (length, rest) s cs := by
  simp only [takeSize, reports_bind, reports_required, reports_shell, reports_pure,
    reports_orError (honest_getScaledValue _ _ _), Sized]
  constructor
  · rintro h length rest ⟨hne, rfl, hsize⟩
    exact h hne length hsize
  · intro h hne length hsize
    exact h length _ ⟨hne, rfl, hsize⟩

/-- A handler that ends with a call of the segment API. -/
theorem sound_segment {op : Op} {hok : op.Ok} :
    Reports (segment op hok) w s [] Clean ↔ (op.answer s.table.g).Returns := by
  rw [reports_segment]
  simp [SegAnswer.Returns]

end Cmd

theorem honest_getMemMask (args : CStr) : Honest (getMemMask args) := by
  simp only [getMemMask]
  split
  · apply Honest.refuses
  · apply Honest.silent

open Cmd

variable {w : World} {s : Shell}

/-! ## Handlers that always report -/

theorem sound_numaInfo (args : CStr) : Sound (numaInfo args) w s := by
  simp only [Sound, numaInfo, reports_bind, reports_needNuma, reports_world, reports_shell]
  intro _
  split
  · simp
  · simp

theorem sound_migrateProcess (args : CStr) : Sound (migrateProcess args) w s := by
  simp only [Sound, migrateProcess, takeFromNodes, reports_bind, reports_needNuma, reports_required,
    reports_world, reports_shell, reports_orError (honest_getIds _ _ _ _ _ _ _ _), getNodemask,
    reports_ite, reports_pure, reports_cmdError, reports_complain]
  simp

/-- A handler whose last step is a call without a page loop. -/
theorem sound_of_returns {op : Op} {hok : op.Ok} (hop : ¬ op.Loops) :
    Reports (segment op hok) w s [] Clean :=
  sound_segment.mpr (op.returns hop _)

theorem sound_showSeg (args : CStr) : Sound (showSeg args) w s := by
  simp only [Sound, showSeg, reports_ite, reports_pure, clean_iff]
  refine ⟨fun _ => trivial, fun _ => sound_of_returns (fun h => h)⟩

theorem sound_fileSeg (args : CStr) : Sound (fileSeg args) w s := by
  simp only [Sound, fileSeg, reports_bind, reports_takeArg, reports_takeRange]
  rintro pathname rest - ⟨range, rest'⟩ -
  simp only
  split
  · rw [reports_bind, reports_orError (honest_getShared _)]
    intro flags _
    rw [reports_bind, reports_world]
    exact sound_of_returns (fun h => h)
  · rw [reports_bind, reports_next, reports_bind, reports_world]
    exact sound_of_returns (fun h => h)

theorem sound_removeSeg (args : CStr) : Sound (removeSeg args) w s := by
  have hall : ∀ (names : List CStr) (s : Shell), Reports (removeAll names) w s [] Clean := by
    intro names
    induction names with
    | nil =>
        intro s
        rw [removeAll, reports_pure]
        rfl
    | cons name names ih =>
        intro s
        rw [removeAll, reports_bind, reports_segment]
        rcases (Op.remove name).returns (fun h => h) s.table.g with hok | herr
        · exact Or.inl ⟨hok, ih _⟩
        · exact Or.inr herr
  simp only [Sound, removeSeg, reports_bind, reports_required]
  intro _
  exact hall _ s

theorem sound_unmapSeg (args : CStr) : Sound (unmapSeg args) w s := by
  simp only [Sound, unmapSeg, takeSegName, reports_bind, reports_takeArg]
  rintro segname rest -
  exact sound_of_returns (fun h => h)

theorem sound_mapSeg (args : CStr) : Sound (mapSeg args) w s := by
  simp only [Sound, mapSeg, takeSegName, reports_bind, reports_takeArg, reports_takeRange]
  rintro segname rest - ⟨range, nextarg⟩ -
  simp only
  split
  · rw [reports_bind, reports_orError (honest_getShared _)]
    intro flags _
    rw [reports_bind, reports_world]
    exact sound_of_returns (fun h => h)
  · rw [reports_bind, reports_next, reports_bind, reports_world]
    exact sound_of_returns (fun h => h)

theorem sound_shmemSeg (args : CStr) : Sound (shmemSeg args) w s := by
  simp only [Sound, shmemSeg, takeSegName, reports_bind, reports_takeArg, reports_takeSize,
    reports_world]
  rintro segname rest - length rest' -
  exact sound_of_returns (fun h => h)

theorem honest_cpusArg (args : CStr) : Honest (cpusArg args) := by
  unfold cpusArg
  split
  · apply honest_getCpusetFromMask
  · apply honest_getCpusetFromIds

theorem sound_cpus (args : CStr) : Sound (cpus args) w s := by
  simp only [Sound, cpus, reports_ite, reports_bind, reports_pure, clean_iff,
    reports_orError (honest_cpusArg _)]
  simp

theorem sound_lockUnlock (lock shm : Bool) (args : CStr) : Sound (lockUnlock lock shm args) w s := by
  simp only [Sound, lockUnlock, takeSegName, reports_bind, reports_takeArg]
  rintro segname rest -
  cases shm with
  | true =>
      simp only [if_true, reports_bind, reports_next, reports_world]
      exact sound_of_returns (fun h => h)
  | false =>
      simp only [Bool.false_eq_true, if_false, reports_bind, reports_takeRange, reports_world]
      rintro ⟨range, rest'⟩ -
      exact sound_of_returns (fun h => h)

theorem sound_childSpawn (args : CStr) : Sound (childSpawn args) w s := by
  simp only [Sound, childSpawn, reports_bind, reports_takeArg, reports_world, reports_shell]
  rintro childName rest -
  split
  · simp
  · rw [reports_ite, reports_ite]
    refine ⟨fun _ => by simp, fun _ => ⟨fun _ => by simp, fun _ => ?_⟩⟩
    split <;> simp

theorem sound_childKick (args : CStr) : Sound (childKick args) w s := by
  simp only [Sound, childKick, reports_bind, reports_takeArg]
  rintro childName rest -
  rw [reports_ite]
  refine ⟨fun _ => by simp, fun _ => ?_⟩
  rw [reports_bind, reports_shell]
  split
  · simp
  · rw [reports_ite, reports_bind, reports_orError (honest_parseSignal _)]
    simp

theorem sound_snooze (args : CStr) : Sound (snooze args) w s := by
  simp only [Sound, snooze, reports_bind, reports_required, reports_ite]
  simp

theorem sound_helpMe (args : CStr) : Sound (helpMe args) w s := by
  simp only [Sound, helpMe, reports_bind, reports_world, reports_ite]
  simp

end Memtoy
