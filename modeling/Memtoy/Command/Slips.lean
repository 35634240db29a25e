import Memtoy.Command.Reports

/-!
# Command.Slips — the commands that lose an error

`Slips` lists, in terms of a command's arguments and of the state before it, when a
handler does not report: it overlooks an error, goes on with a value that has not been
set, or does not come back. On everything else every handler reports (`sound_iff`).
-/

namespace Memtoy

open CString Cmd

/-! ## The conditions -/

/-- An option of `anon` that is none: nothing but `=`, or `offset=` a name without a
segment. -/
def BadOption (g : Glctx) (tok : CStr) : Prop :=
  ¬ abbreviates tok wordShared ∧ ¬ abbreviates tok wordPrivate ∧
    match strtokR ['='] tok with
    | (none, _) => True
    | (some name, value) =>
        let len := (tok.takeWhile (· = '=')).length + name.length
        ¬ strncasecmpEq name "addr".toList len ∧ strncasecmpEq name "offset".toList len ∧
          g.NameFree value

/-- The flags that follow the policy of `mbind`, and where the nodes start. -/
def MbindMods (nextarg : CStr) (flags : Flags) (next : CStr) : Prop :=
  if (skipBlanks nextarg).head? = some '+' then
    (getMbindFlags (skipBlanks nextarg).tail).1 = some (flags, next)
  else flags = 0 ∧ next = nextarg

/-- `mems` gets as far as showing the memories. -/
def MemsAccepts (numaMaxNode : Int) (args : CStr) : Prop :=
  args ≠ [] → if startsWithHex args then (getMemMask args).1 = some ()
    else ∃ ids, (getNodemask numaMaxNode args).1 = some ids

/-- When a command loses an error. -/
inductive Slips (w : World) (s : Shell) : CmdFunc → CStr → Prop where
  /-- The result of `segment_mprotect` is not looked at. -/
  | mprotect {args name rest : CStr} : Word1 args name rest →
      MprotectFails w.kernel s.table.g name (getProt (tokens whitespace rest) 0) →
      Slips w s .mprotectSeg args
  /-- A variable that has not been set is returned. -/
  | option {args name rest rest' tok : CStr} {length : Word} : Word1 args name rest →
      Sized s.table.g.pagesize rest length rest' → tok ∈ tokens whitespace rest' →
      BadOption s.table.g tok → Slips w s .anonSeg args
  /-- `CMD_ERROR` is taken for a policy. -/
  | mbind {args name rest rest' next : CStr} {range : Range} {flags : Flags}
      {nodes : Option (List Int)} : 0 < s.numaMaxNode → Word1 args name rest →
      (getRange s.table.g.pagesize rest).1 = some (range, rest') → rest' ≠ [] →
      findPolicy rest' = none → MbindMods rest' flags next →
      (getArgNodemask s.cmdName s.numaMaxNode (skipBlanks next) cmdErrorValue).1 = some nodes →
      MbindSucceeds w.kernel s.table.g name range cmdErrorValue (nodes.map nodeBits) flags →
      Slips w s .mbindSeg args
  /-- `CMD_ERROR` is taken for a policy, and `nextarg` has not been set. -/
  | mpol {args : CStr} : skipBlanks args ≠ [] → findPolicy (skipBlanks args) = none →
      Slips w s .mpol args
  /-- `mems_allowed` is NULL. -/
  | mems {args : CStr} : s.numaMaxNode ≤ 0 → MemsAccepts s.numaMaxNode (skipBlanks args) →
      Slips w s .mems args
  /-- There is no page size to divide by. -/
  | touch {args name rest rest' : CStr} {range : Range} {write : Bool} : Word1 args name rest →
      (getRange s.table.g.pagesize rest).1 = some (range, rest') →
      (getAccess rest').1 = some write → TouchStuck s.table.g name write →
      Slips w s .touchSeg args
  | location {args name rest rest' : CStr} {range : Range} : 0 < s.numaMaxNode →
      Word1 args name rest → (getRange s.table.g.pagesize rest).1 = some (range, rest') →
      WhereStuck s.table.g name → Slips w s .whereSeg args

/-! ## The handlers that slip -/

variable {w : World} {s : Shell}

theorem sound_mprotectSeg (args : CStr) :
    Sound (mprotectSeg args) w s ↔ ¬ Slips w s .mprotectSeg args := by
  have hrep := reachable_repInv s.table.reachable
  simp only [Sound, mprotectSeg, takeSegName, reports_bind, reports_takeArg, reports_world]
  constructor
  · intro h hslips
    cases hslips with
    | mprotect hword hfails =>
        have hcall := h _ _ hword
        rw [reports_callSegment, (answer_mprotect w.kernel hrep _ _).mpr hfails] at hcall
        rcases hcall with ⟨hok, -⟩ | ⟨-, hclean⟩
        · cases hok
        · cases hclean
  · intro h name rest hword
    rw [reports_callSegment]
    rcases (Op.mprotect w.kernel name (getProt (tokens whitespace rest) 0)).returns
      (fun h => h) s.table.g with hok | herr
    · exact Or.inl ⟨hok, rfl⟩
    · exact absurd (.mprotect hword ((answer_mprotect w.kernel hrep name _).mp herr)) h

theorem sound_touchSeg (args : CStr) : Sound (touchSeg args) w s ↔ ¬ Slips w s .touchSeg args := by
  simp only [Sound, touchSeg, takeSegName, reports_bind, reports_takeArg, reports_takeRange,
    reports_orError (honest_getAccess _), reports_world]
  constructor
  · intro h hslips
    cases hslips with
    | touch hword hrange haccess hstuck =>
        have hret := sound_segment.mp (h _ _ hword _ hrange _ haccess)
        exact (touch_returns s.table.reachable _ _ _ _).mp hret hstuck
  · rintro h name rest hword ⟨range, rest'⟩ hrange write haccess
    refine sound_segment.mpr ((touch_returns s.table.reachable _ _ _ _).mpr ?_)
    exact fun hstuck => h (.touch hword hrange haccess hstuck)

theorem sound_whereSeg (args : CStr) : Sound (whereSeg args) w s ↔ ¬ Slips w s .whereSeg args := by
  simp only [Sound, whereSeg, takeSegName, reports_bind, reports_needNuma, reports_takeArg,
    reports_takeRange, reports_world]
  constructor
  · intro h hslips
    cases hslips with
    | location hnuma hword hrange hstuck =>
        have hret := sound_segment.mp (h hnuma _ _ hword _ hrange)
        exact (location_returns s.table.reachable _ _ _ _).mp hret hstuck
  · rintro h hnuma name rest hword ⟨range, rest'⟩ hrange
    refine sound_segment.mpr ((location_returns s.table.reachable _ _ _ _).mpr ?_)
    exact fun hstuck => h (.location hnuma hword hrange hstuck)

theorem sound_mpol (args : CStr) : Sound (mpol args) w s ↔ ¬ Slips w s .mpol args := by
  have hwith : ∀ policy nextarg, Reports (mpolWith policy nextarg) w s [] Clean := by
    intro policy nextarg
    simp only [mpolWith, reports_bind, reports_shell, reports_orError (honest_getArgNodemask _ _ _ _),
      reports_world, reports_ite]
    simp
  simp only [Sound, mpol, reports_ite]
  constructor
  · rintro ⟨-, h⟩ hslips
    cases hslips with
    | mpol hne hnone =>
        have hcrash := h hne
        rw [(getMbindPolicy_complains hnone).1] at hcrash
        simp [cmdErrorValue] at hcrash
  · intro h
    refine ⟨fun _ => by simp [showTaskPolicy, reports_ite], fun hne => ?_⟩
    rcases hfind : findPolicy (skipBlanks args) with _ | flag
    · exact absurd (.mpol hne hfind) h
    · have hpolicy : getMbindPolicy (skipBlanks args) =
          (flag, some ((skipBlanks args).dropWhile (· ∉ mbindReject)), []) := by
        simp only [getMbindPolicy, hfind]
      rw [hpolicy]
      simp only [reports_bind, reports_complain, reports_ite, reports_cmdError, List.append_nil]
      exact ⟨fun _ => trivial, fun _ => hwith _ _⟩

theorem reports_showMems : Reports showMems w s [] Clean ↔ 0 < s.numaMaxNode := by
  simp only [showMems, reports_bind, reports_shell, reports_ite, reports_complain]
  simp

theorem sound_mems (args : CStr) : Sound (mems args) w s ↔ ¬ Slips w s .mems args := by
  -- however it gets there, it ends with `show_mems`
  have hends : Sound (mems args) w s ↔
      (MemsAccepts s.numaMaxNode (skipBlanks args) → 0 < s.numaMaxNode) := by
    simp only [Sound, mems, reports_bind, reports_shell, reports_ite, getNodemask, MemsAccepts,
      reports_orError (honest_getMemMask _), reports_orError (honest_getIds _ _ _ _ _ _ _ _), reports_showMems]
    by_cases hnil : skipBlanks args = []
    · simp [hnil]
    · by_cases hhex : startsWithHex (skipBlanks args) = true
      · simp [hnil, hhex, Unique.forall_iff]
      · simp [hnil, hhex]
  rw [hends]
  constructor
  · intro h hslips
    cases hslips with
    | mems hnuma haccepts =>
        have hpos := h haccepts
        omega
  · intro h haccepts
    by_contra hnuma
    exact h (.mems (by omega) haccepts)

/-- `mbind_seg` from the policy on. -/
theorem reports_mbindWith {segname nextarg : CStr} {range : Range} {policy : Int}
    {cs : List Complaint} : Reports (mbindWith segname range policy nextarg) w s cs Clean ↔
      ∀ flags next nodes, MbindMods nextarg flags next →
        (getArgNodemask s.cmdName s.numaMaxNode (skipBlanks next) policy).1 = some nodes →
        MbindSucceeds w.kernel s.table.g segname range policy (nodes.map nodeBits) flags →
        cs = [] := by
  have hrep := reachable_repInv s.table.reachable
  have hcall : ∀ nodemask flags, Reports (segment (.mbind w.kernel segname range policy nodemask flags)
      (Op.ok_mbind _ _ _ _ _ _)) w s cs Clean ↔
        (MbindSucceeds w.kernel s.table.g segname range policy nodemask flags → cs = []) := by
    intro nodemask flags
    rw [reports_segment, answer_mbind _ hrep]
    have hret := (Op.mbind w.kernel segname range policy nodemask flags).returns (fun h => h)
      s.table.g
    rw [SegAnswer.Returns, answer_mbind _ hrep] at hret
    simp only [clean_iff]
    constructor
    · rintro (⟨-, hcs⟩ | herr) hsucc
      · exact hcs
      · rw [← answer_mbind _ hrep, herr] at hsucc
        cases hsucc
    · intro h
      rcases hret with hsucc | herr
      · exact Or.inl ⟨hsucc, h hsucc⟩
      · exact Or.inr herr
  simp only [mbindWith, MbindMods]
  by_cases hplus : (skipBlanks nextarg).head? = some '+'
  · simp only [hplus, if_true, reports_bind, reports_shell, reports_world, hcall,
      reports_orError (honest_getMbindFlags _), reports_orError (honest_getArgNodemask _ _ _ _)]
    constructor
    · intro h flags next nodes hflags hnodes hsucc
      exact h (flags, next) hflags nodes hnodes hsucc
    · rintro h ⟨flags, next⟩ hflags nodes hnodes hsucc
      exact h flags next nodes hflags hnodes hsucc
  · simp only [hplus, if_false, reports_bind, reports_next, reports_shell, reports_world, hcall,
      reports_orError (honest_getArgNodemask _ _ _ _)]
    constructor
    · rintro h flags next nodes ⟨rfl, rfl⟩ hnodes hsucc
      exact h nodes hnodes hsucc
    · intro h nodes hnodes hsucc
      exact h 0 nextarg nodes ⟨rfl, rfl⟩ hnodes hsucc

theorem sound_mbindSeg (args : CStr) : Sound (mbindSeg args) w s ↔ ¬ Slips w s .mbindSeg args := by
  simp only [Sound, mbindSeg, takeSegName, reports_bind, reports_needNuma, reports_takeArg,
    reports_takeRange, reports_required]
  constructor
  · intro h hslips
    cases hslips with
    | mbind hnuma hword hrange hne hnone hmods hnodes hsucc =>
        have hbad := h hnuma _ _ hword _ hrange hne
        rw [(getMbindPolicy_complains hnone).1] at hbad
        simp only [reports_complain, reports_ite] at hbad
        exact absurd (reports_mbindWith.mp (hbad.2 (by decide)) _ _ _ hmods hnodes hsucc) (by simp)
  · rintro h hnuma name rest hword ⟨range, rest'⟩ hrange hne
    rcases hfind : findPolicy rest' with _ | flag
    · rw [(getMbindPolicy_complains hfind).1]
      simp only [reports_complain, reports_ite]
      refine ⟨fun _ => by simp, fun _ => reports_mbindWith.mpr ?_⟩
      intro flags next nodes hmods hnodes hsucc
      exact absurd (.mbind hnuma hword hrange hne hfind hmods hnodes hsucc) h
    · have hpolicy : getMbindPolicy rest' =
          (flag, some (rest'.dropWhile (· ∉ mbindReject)), []) := by
        simp only [getMbindPolicy, hfind]
      rw [hpolicy]
      simp only [reports_complain, reports_ite, reports_cmdError, List.append_nil]
      exact ⟨fun _ => trivial, fun _ => reports_mbindWith.mpr fun _ _ _ _ _ _ => rfl⟩

/-! ## The options of `anon` -/

/-- The same names are free. -/
def SameNames (s s' : Shell) : Prop := ∀ name, s'.table.g.NameFree name ↔ s.table.g.NameFree name

theorem sameNames_get (s : Shell) (name : CStr) :
    SameNames s { s with table := s.table.exec (.get name) (Op.ok_get name) } :=
  fun _ => segmentGet_nameFree (reachable_repInv s.table.reachable) name

theorem reports_callSegmentRange {name : CStr} {cs : List Complaint}
    {Q : Option Range → Shell → List Complaint → Prop} :
    Reports (callSegmentRange name) w s cs Q ↔
      Q (segmentRange s.table.g name).1
        { s with table := s.table.exec (.get name) (Op.ok_get name) } cs := by
  simp [Reports, callSegmentRange]

theorem segmentRange_none {g : Glctx} (h : RepInv g) (name : CStr) :
    (segmentRange g name).1 = none ↔ g.NameFree name := by
  rw [← answer_get h]
  simp only [segmentRange]
  rcases segmentGet g name with ⟨_ | segp, g₁⟩ <;> simp

/-- An option ends the command without a result, or the loop goes on in a state with the
same names. -/
theorem anonOption_cases (tok : CStr) (range : Range) (segflag : SegFlags) (w : World) (s : Shell) :
    (BadOption s.table.g tok ∧
      ∀ cs Q, ¬ Reports (anonOption tok range segflag) w s cs Q) ∨
    (¬ BadOption s.table.g tok ∧ ∃ a s', SameNames s s' ∧
      ∀ cs Q, Reports (anonOption tok range segflag) w s cs Q ↔ Q a s' cs) := by
  have hrep := reachable_repInv s.table.reachable
  have hsame : SameNames s s := fun _ => Iff.rfl
  unfold anonOption BadOption
  by_cases hshared : abbreviates tok wordShared
  · refine Or.inr ⟨fun h => h.1 hshared, (range, flagsShared), s, hsame, fun cs Q => ?_⟩
    rw [if_pos hshared, reports_pure]
  · rw [if_neg hshared]
    by_cases hprivate : abbreviates tok wordPrivate
    · refine Or.inr ⟨fun h => h.2.1 hprivate, (range, flagsPrivate), s, hsame, fun cs Q => ?_⟩
      rw [if_pos hprivate, reports_pure]
    · rw [if_neg hprivate]
      rcases strtokR ['='] tok with ⟨_ | name, value⟩
      · exact Or.inl ⟨⟨hshared, hprivate, trivial⟩, fun cs Q => by simp⟩
      · simp only
        generalize (tok.takeWhile (· = '=')).length + name.length = len
        by_cases haddr : strncasecmpEq name "addr".toList len
        · refine Or.inr ⟨fun h => h.2.2.1 haddr,
            ({ range with offset := (strtol value 16).1 }, segflag), s, hsame, fun cs Q => ?_⟩
          rw [if_pos haddr, reports_pure]
        · rw [if_neg haddr]
          by_cases hoffset : strncasecmpEq name "offset".toList len
          · -- the segment is looked up in any case
            have hnone := segmentRange_none hrep value
            simp only [if_pos hoffset, reports_bind, reports_callSegmentRange]
            generalize (segmentRange s.table.g value).1 = found at hnone ⊢
            rcases found with _ | segrange
            · exact Or.inl ⟨⟨hshared, hprivate, haddr, hoffset, hnone.mp rfl⟩, fun cs Q => by simp⟩
            · refine Or.inr ⟨?_, ({ range with offset := segrange.offset + segrange.length }, segflag),
                _, sameNames_get s value, fun cs Q => reports_pure⟩
              intro h
              cases hnone.mpr h.2.2.2.2
          · refine Or.inr ⟨fun h => hoffset h.2.2.2.1, (range, segflag), s, hsame, fun cs Q => ?_⟩
            rw [if_neg hoffset, reports_pure]

theorem BadOption.congr {s s' : Shell} (h : SameNames s s') (tok : CStr) :
    BadOption s'.table.g tok ↔ BadOption s.table.g tok := by
  unfold BadOption
  rcases strtokR ['='] tok with ⟨_ | name, value⟩
  · exact Iff.rfl
  · simp only [h value]

/-- The loop gets to its end when there is no bad option; `Q` is kept by any lookup. -/
theorem reports_anonOptions {cs : List Complaint} {Q : Range × SegFlags → Shell → List Complaint → Prop}
    (hQ : ∀ a s, Q a s cs) (toks : List CStr) :
    ∀ (range : Range) (segflag : SegFlags) (s : Shell),
      Reports (anonOptions toks range segflag) w s cs Q ↔
        ∀ tok ∈ toks, ¬ BadOption s.table.g tok := by
  induction toks with
  | nil =>
      intro range segflag s
      rw [anonOptions, reports_pure]
      simp [hQ]
  | cons tok toks ih =>
      intro range segflag s
      rw [anonOptions, reports_bind, List.forall_mem_cons]
      rcases anonOption_cases tok range segflag w s with ⟨hbad, hno⟩ | ⟨hgood, a, s', hsame, hgo⟩
      · exact ⟨fun h => absurd h (hno _ _), fun h => absurd hbad h.1⟩
      · rw [hgo, ih a.1 a.2 s']
        simp only [BadOption.congr hsame]
        exact ⟨fun h => ⟨hgood, h⟩, fun h => h.2⟩

theorem sound_anonSeg (args : CStr) : Sound (anonSeg args) w s ↔ ¬ Slips w s .anonSeg args := by
  simp only [Sound, anonSeg, takeSegName, reports_bind, reports_takeArg, reports_takeSize,
    reports_world]
  -- the registration returns whatever the options were
  have hQ : ∀ (segname : CStr) (a : Range × SegFlags) (s : Shell),
      Reports (segment (.register w.kernel .segtAnon segname a.1 a.2.1)
        (Op.ok_register _ _ _ _ (by decide) a.2.2)) w s [] Clean :=
    fun _ _ _ => sound_of_returns (fun h => h)
  constructor
  · intro h hslips
    cases hslips with
    | option hword hsized htok hbad =>
        exact (reports_anonOptions (hQ _) _ _ _ _).mp (h _ _ hword _ _ hsized) _ htok hbad
  · intro h name rest hword length rest' hsized
    refine (reports_anonOptions (hQ name) _ _ _ _).mpr ?_
    intro tok htok hbad
    exact h (.option hword hsized htok hbad)

/-! ## All handlers -/

/-- A handler reports what fails exactly when the command is none of the listed ones. -/
theorem sound_iff (f : CmdFunc) (args : CStr) : Sound (f.run args) w s ↔ ¬ Slips w s f args := by
  have hnone : ∀ {f : CmdFunc}, Sound (f.run args) w s → (¬ Slips w s f args) →
      (Sound (f.run args) w s ↔ ¬ Slips w s f args) := fun h h' => ⟨fun _ => h', fun _ => h⟩
  cases f with
  | mprotectSeg => exact sound_mprotectSeg args
  | touchSeg => exact sound_touchSeg args
  | whereSeg => exact sound_whereSeg args
  | mpol => exact sound_mpol args
  | mems => exact sound_mems args
  | mbindSeg => exact sound_mbindSeg args
  | anonSeg => exact sound_anonSeg args
  | helpMe => exact hnone (sound_helpMe args) (by rintro ⟨⟩)
  | quit => exact hnone (by simp [Sound, CmdFunc.run, quit]) (by rintro ⟨⟩)
  | showPid => exact hnone (by simp [Sound, CmdFunc.run, showPid]) (by rintro ⟨⟩)
  | pauseMe => exact hnone (by simp [Sound, CmdFunc.run, pauseMe]) (by rintro ⟨⟩)
  | numaInfo => exact hnone (sound_numaInfo args) (by rintro ⟨⟩)
  | migrateProcess => exact hnone (sound_migrateProcess args) (by rintro ⟨⟩)
  | showSeg => exact hnone (sound_showSeg args) (by rintro ⟨⟩)
  | fileSeg => exact hnone (sound_fileSeg args) (by rintro ⟨⟩)
  | shmemSeg => exact hnone (sound_shmemSeg args) (by rintro ⟨⟩)
  | removeSeg => exact hnone (sound_removeSeg args) (by rintro ⟨⟩)
  | mapSeg => exact hnone (sound_mapSeg args) (by rintro ⟨⟩)
  | unmapSeg => exact hnone (sound_unmapSeg args) (by rintro ⟨⟩)
  | lockSeg | unlockSeg | shmLockSeg | shmUnlockSeg =>
      exact hnone (sound_lockUnlock _ _ args) (by rintro ⟨⟩)
  | cpus => exact hnone (sound_cpus args) (by rintro ⟨⟩)
  | childSpawn => exact hnone (sound_childSpawn args) (by rintro ⟨⟩)
  | childKick => exact hnone (sound_childKick args) (by rintro ⟨⟩)
  | snooze => exact hnone (sound_snooze args) (by rintro ⟨⟩)

end Memtoy
