import Memtoy.Child.Bounds
import Memtoy.Command.Batch
import Memtoy.Command.Goes

/-!
# Command.Spawned — how spawned children are addressed

`child_spawn` takes its name up to a blank, `child_send` up to a blank or a slash, and a
name that starts with a question mark is no name for it. `spawned_addressable_iff` says
which children a line reaches, as long as they are in the list.
-/

namespace Memtoy

open CString Cmd

/-! ## Commands that leave the children alone -/

namespace Cmd

variable {α β : Type}

/-- However it ends, the list of children is what it was. -/
def KeepsChildren (m : Cmd α) : Prop := ∀ w s, Yields m w s fun _ s' => s'.children = s.children

theorem keeps_bind {m : Cmd α} {f : α → Cmd β} (hm : KeepsChildren m) (hf : ∀ a, KeepsChildren (f a)) :
    KeepsChildren (m >>= f) := by
  intro w s
  rw [yields_bind]
  have hshell := hm w s
  unfold Yields at hshell ⊢
  cases (m w s).flow with
  | next a => exact (hf a w (m w s).shell).trans hshell
  | stop e => exact hshell

theorem keeps_ite {P : Prop} [Decidable P] {m m' : Cmd α} (h : KeepsChildren m) (h' : KeepsChildren m') :
    KeepsChildren (if P then m else m') := by
  intro w s
  rw [yields_ite]
  exact ⟨fun _ => h w s, fun _ => h' w s⟩

theorem keeps_segment (op : Op) (hok : op.Ok) : KeepsChildren (segment op hok) := by
  intro w s
  simp [Cmd.segment]

end Cmd

theorem keeps_numaInfo (args : CStr) : KeepsChildren (numaInfo args) := by
  intro w s
  simp only [numaInfo, needNuma, yields_bind, yields_shell, then_next, yields_orError, yields_world]
  refine ⟨fun _ _ => ?_, fun _ => rfl⟩
  cases (currentNodes w s.numaMaxNode).find? (! w.nodeSizeOk ·) <;> simp

theorem keeps_migrateProcess (args : CStr) : KeepsChildren (migrateProcess args) := by
  intro w s
  simp [migrateProcess, needNuma, takeFromNodes, yields_ite]

theorem keeps_showSeg (args : CStr) : KeepsChildren (showSeg args) := by
  intro w s
  simp [showSeg, Cmd.segment, yields_ite]

theorem keeps_anonOption (tok : CStr) (range : Range) (segflag : SegFlags) :
    KeepsChildren (anonOption tok range segflag) := by
  unfold anonOption
  apply keeps_ite
  · exact fun _ _ => rfl
  apply keeps_ite
  · exact fun _ _ => rfl
  -- a name=value argument; only `offset=` looks a segment up
  rcases strtokR ['='] tok with ⟨_ | name, value⟩
  · exact fun _ _ => rfl
  · apply keeps_ite
    · exact fun _ _ => rfl
    apply keeps_ite
    · intro w s
      cases hrange : (segmentRange s.table.g value).1 <;> simp [hrange]
    · exact fun _ _ => rfl

theorem keeps_anonOptions (toks : List CStr) :
    ∀ (range : Range) (segflag : SegFlags), KeepsChildren (anonOptions toks range segflag) := by
  induction toks with
  | nil => exact fun _ _ _ _ => rfl
  | cons tok toks ih =>
      intro range segflag
      exact keeps_bind (keeps_anonOption tok range segflag) fun r => ih r.1 r.2

theorem keeps_takeSegName (args : CStr) : KeepsChildren (takeSegName args) := by
  intro w s
  simp [takeSegName, takeArg]

theorem keeps_takeSize (args : CStr) : KeepsChildren (takeSize args) := by
  intro w s
  simp [takeSize]

theorem keeps_anonSeg (args : CStr) : KeepsChildren (anonSeg args) := by
  unfold anonSeg
  apply keeps_bind (keeps_takeSegName args)
  intro r
  apply keeps_bind (keeps_takeSize r.2)
  intro r'
  apply keeps_bind (keeps_anonOptions _ _ _)
  intro r'' w s
  simp [Cmd.segment]

theorem keeps_fileSeg (args : CStr) : KeepsChildren (fileSeg args) := by
  intro w s
  simp [fileSeg, takeArg, takeRange, Cmd.segment, yields_ite]

theorem keeps_removeAll (segnames : List CStr) : KeepsChildren (removeAll segnames) := by
  induction segnames with
  | nil => exact fun _ _ => rfl
  | cons segname segnames ih => exact keeps_bind (keeps_segment _ _) fun _ => ih

theorem keeps_removeSeg (args : CStr) : KeepsChildren (removeSeg args) := by
  apply keeps_bind
  · intro w s
    simp
  · exact fun _ => keeps_removeAll _

theorem keeps_mbindSeg (args : CStr) : KeepsChildren (mbindSeg args) := by
  intro w s
  simp [mbindSeg, mbindWith, needNuma, takeSegName, takeArg, takeRange, Cmd.segment, yields_ite]

theorem keeps_lockUnlock (lock shm : Bool) (args : CStr) : KeepsChildren (lockUnlock lock shm args) := by
  intro w s
  cases shm <;> simp [lockUnlock, takeSegName, takeArg, takeRange, Cmd.segment]

theorem keeps_cpus (args : CStr) : KeepsChildren (cpus args) := by
  intro w s
  simp [cpus, yields_ite]

theorem keeps_mems (args : CStr) : KeepsChildren (mems args) := by
  intro w s
  simp [mems, showMems, yields_ite]

theorem keeps_childKick (args : CStr) : KeepsChildren (childKick args) := by
  apply keeps_bind
  · intro w s
    simp [takeArg]
  · rintro ⟨childName, args⟩
    apply keeps_ite
    · exact fun _ _ => rfl
    · intro w s
      cases hfind : childFindByName s.children childName <;> simp [hfind, yields_ite]

theorem keeps_mpolWith (policy : Int) (nextarg : CStr) : KeepsChildren (mpolWith policy nextarg) := by
  intro w s
  simp [mpolWith, yields_ite]

theorem keeps_mpol (args : CStr) : KeepsChildren (mpol args) := by
  apply keeps_ite
  · intro w s
    simp [showTaskPolicy, yields_ite]
  · apply keeps_bind
    · exact fun _ _ => rfl
    · intro _
      apply keeps_ite
      · exact fun _ _ => rfl
      · -- without a policy there is no text to go on with
        cases findPolicy (skipBlanks args) with
        | none => exact fun _ _ => rfl
        | some policy => exact keeps_mpolWith policy _

/-- Of all commands, only `child` changes the list of children. -/
theorem keeps_run {f : CmdFunc} (hf : f ≠ .childSpawn) (args : CStr) : KeepsChildren (f.run args) := by
  cases f with
  | childSpawn => exact absurd rfl hf
  | numaInfo => exact keeps_numaInfo args
  | migrateProcess => exact keeps_migrateProcess args
  | showSeg => exact keeps_showSeg args
  | anonSeg => exact keeps_anonSeg args
  | fileSeg => exact keeps_fileSeg args
  | removeSeg => exact keeps_removeSeg args
  | mbindSeg => exact keeps_mbindSeg args
  | lockSeg => exact keeps_lockUnlock true false args
  | unlockSeg => exact keeps_lockUnlock false false args
  | shmLockSeg => exact keeps_lockUnlock true true args
  | shmUnlockSeg => exact keeps_lockUnlock false true args
  | cpus => exact keeps_cpus args
  | mems => exact keeps_mems args
  | childKick => exact keeps_childKick args
  | mpol => exact keeps_mpol args
  | quit => exact fun _ _ => rfl
  | showPid => exact fun _ _ => rfl
  | pauseMe => exact fun _ _ => rfl
  | helpMe =>
      intro w s
      simp [CmdFunc.run, helpMe, yields_ite]
  | shmemSeg =>
      intro w s
      simp [CmdFunc.run, shmemSeg, takeSegName, takeArg, takeSize, Cmd.segment]
  | mapSeg =>
      intro w s
      simp [CmdFunc.run, mapSeg, takeSegName, takeArg, takeRange, Cmd.segment, yields_ite]
  | unmapSeg =>
      intro w s
      simp [CmdFunc.run, unmapSeg, takeSegName, takeArg, Cmd.segment]
  | touchSeg =>
      intro w s
      simp [CmdFunc.run, touchSeg, takeSegName, takeArg, takeRange, Cmd.segment]
  | whereSeg =>
      intro w s
      simp [CmdFunc.run, whereSeg, needNuma, takeSegName, takeArg, takeRange, Cmd.segment]
  | snooze =>
      intro w s
      simp [CmdFunc.run, snooze, yields_ite]
  | mprotectSeg =>
      intro w s
      simp [CmdFunc.run, mprotectSeg, takeSegName, takeArg]

/-! ## `child_spawn` -/

/-- The name `child_spawn` takes. -/
def spawnedName (args : CStr) : CStr := (nextToken (skipBlanks args)).1

/-- A word between blanks. -/
structure IsWord (name : CStr) : Prop where
  ne_nil : name ≠ []
  no_blank : ∀ c ∈ name, c ∉ whitespace
  no_nul : nul ∉ name

theorem isWord_spawnedName {args : CStr} (hargs : nul ∉ args) (hne : skipBlanks args ≠ []) :
    IsWord (spawnedName args) := by
  have hhead := List.head?_dropWhile_not (fun c => decide (c ∈ whitespace)) args
  have hsub : ∀ c ∈ skipBlanks args, c ∈ args := fun c hc => (List.dropWhile_suffix _).subset hc
  have hskip : skipBlanks args = args.dropWhile (· ∈ whitespace) := rfl
  rw [← hskip] at hhead
  obtain ⟨c, s, hcons⟩ := List.exists_cons_of_ne_nil hne
  rw [hcons] at hhead hsub
  have hc : c ∉ whitespace := by simpa using hhead
  have hname : spawnedName args = (c :: s).takeWhile (· ∉ whitespace) := by
    show (strtokR whitespace (skipBlanks args)).1.getD [] = _
    rw [hcons, strtokR_some hc, Option.getD_some]
  rw [hname]
  refine ⟨by simp [hc], ?_, ?_⟩
  · intro x hx
    simpa using List.mem_takeWhile_imp hx
  · intro hnul
    exact hargs (hsub nul ((List.takeWhile_prefix _).subset hnul))

/-- There is a name, it is new, and a child with it has been put at the end of the list. -/
def Spawns (children : List Child) (args : CStr) (childpid : Pid) (children' : List Child) : Prop :=
  skipBlanks args ≠ [] ∧ childFindByName children (spawnedName args) = none ∧
    children' = children ++ [⟨spawnedName args, childpid⟩]

/-- A `child` command leaves the list of children as it is, or registers one. -/
theorem yields_childSpawn (args : CStr) (w : World) (s : Shell) :
    Yields (childSpawn args) w s fun _ s' => s'.children = s.children ∨
      ∃ childpid, Spawns s.children args childpid s'.children := by
  simp only [childSpawn, takeArg, yields_bind, yields_required, then_next, yields_pure, yields_world,
    yields_shell]
  refine ⟨fun hne => ?_, fun _ => Or.inl rfl⟩
  cases hfind : childFindByName s.children (nextToken (skipBlanks args)).1 with
  | some childp => simp
  | none =>
      -- both pipes, then the process
      simp only [yields_ite, yields_bind, yields_complain, then_next, yields_cmdError, true_or,
        implies_true, true_and]
      intro hcmd hresp
      cases w.fork with
      | none => simp
      | some childpid => exact Or.inr ⟨childpid, hne, hfind, rfl⟩

/-! ## The list of children -/

/-- What happens to the list of children: a command runs, whatever comes of it, or the
SIGCLD handler reaps some of them. -/
inductive ShellStep : Shell → Shell → Prop where
  | command {s : Shell} (w : World) (name : CStr) (f : CmdFunc) {args : CStr} : nul ∉ args →
      ShellStep s (callCommand name f args w s).shell
  | reap {s : Shell} (w : World) : ShellStep s (w.reap s)

/-- A run starts without children. -/
def shellSpec : Trans.Spec Shell where
  Init := fun s => s.children = []
  Next := ShellStep

/-- The names of the children are words, and distinct. -/
structure WellNamed (children : List Child) : Prop where
  distinct : (children.map Child.cName).Nodup
  word : ∀ childp ∈ children, IsWord childp.cName

theorem WellNamed.reap {s : Shell} (h : WellNamed s.children) (w : World) :
    WellNamed (w.reap s).children := by
  constructor
  · exact h.distinct.sublist (List.filter_sublist.map _)
  · intro childp hmem
    exact h.word childp (List.mem_filter.mp hmem).1

theorem WellNamed.insert {children : List Child} (h : WellNamed children) {childp : Child}
    (hword : IsWord childp.cName) (hnew : childFindByName children childp.cName = none) :
    WellNamed (children ++ [childp]) := by
  constructor
  · rw [List.map_append, List.map_singleton, ← List.concat_eq_append, List.nodup_concat]
    refine ⟨?_, h.distinct⟩
    intro hmem
    obtain ⟨c, hc, heq⟩ := List.mem_map.mp hmem
    have hne := List.find?_eq_none.mp hnew c hc
    simp [heq] at hne
  · intro c hc
    rcases List.mem_append.mp hc with hc | hc
    · exact h.word c hc
    · rw [List.mem_singleton.mp hc]
      exact hword

/-- The name of the command is not a child's. -/
theorem yields_callCommand {name : CStr} {f : CmdFunc} {args : CStr} {w : World} {s : Shell}
    {P : List Child → Prop} :
    Yields (callCommand name f args) w s (fun _ s' => P s'.children) ↔
      Yields (f.run args) w { s with cmdName := name } fun _ s' => P s'.children := by
  have hafter : Then (fun _ => do
      let s ← shell
      setShell { s with cmdName := [] }) w (fun _ s' => P s'.children) =
      fun (_ : Flow Unit) s' => P s'.children := by
    funext r s'
    cases r <;> rfl
  simp only [callCommand, yields_bind, yields_shell, then_next, yields_setShell]
  exact iff_of_eq (congrArg _ hafter)

/-- How a command changes the list of children. -/
theorem callCommand_children (name : CStr) (f : CmdFunc) (args : CStr) (w : World) (s : Shell) :
    (callCommand name f args w s).shell.children = s.children ∨
      ∃ childpid, Spawns s.children args childpid (callCommand name f args w s).shell.children := by
  apply (yields_callCommand (P := fun children =>
    children = s.children ∨ ∃ childpid, Spawns s.children args childpid children)).mpr
  by_cases hf : f = .childSpawn
  · rw [hf]
    exact yields_childSpawn args w { s with cmdName := name }
  · exact Or.inl (keeps_run hf args w { s with cmdName := name })

theorem reachable_wellNamed {s : Shell} (h : shellSpec.Reachable s) : WellNamed s.children := by
  refine Trans.Spec.invariant (fun s => WellNamed s.children) ?_ ?_ h
  · intro s hinit
    have hnil : s.children = [] := hinit
    rw [hnil]
    exact ⟨List.nodup_nil, fun _ hmem => by cases hmem⟩
  · intro s s' hstep hs
    cases hstep with
    | reap w => exact hs.reap w
    | @command w name f args hargs =>
        rcases callCommand_children name f args w s with hsame | ⟨childpid, hne, hnew, hadd⟩
        · rw [hsame]
          exact hs
        · rw [hadd]
          exact hs.insert (isWord_spawnedName hargs hne) hnew

/-! ## What a line resolves to -/

/-- A line for a child goes to it: `child_send` on the text behind the slash sends the
command to the child, and so does a pass of the loop, without the blanks at its end. -/
structure Directs (children : List Child) (childp : Child) : Prop where
  send : ∀ buf i cmd, Stands buf i (childp.cName ++ ' ' :: cmd) → cmd ≠ [] →
    (∀ c, cmd.head? = some c → c ∉ childDelim) →
    childSend children buf i = .wrote childp (cmd ++ ['\n'])
  line : ∀ cmd beyond, nul ∉ cmd → cmd ≠ [] → (∀ c, cmd.head? = some c → c ∉ childDelim) →
    processLine children ('/' :: (childp.cName ++ ' ' :: cmd) ++ nul :: beyond) =
      .forward (.wrote childp (trimmed cmd ++ ['\n']))

/-- A NUL over the byte that ends a span cuts the span off. -/
theorem strAt_set_cspn (buf : List Char) (i : Nat) (reject : List Char) :
    strAt (buf.set (i + strcspn buf i reject) nul) i = (strAt buf i).takeWhile (· ∉ reject) := by
  have hcut : ∀ l : List Char, cstr (l.set ((cstr l).takeWhile (· ∉ reject)).length nul) =
      (cstr l).takeWhile (· ∉ reject) := by
    intro l
    induction l with
    | nil => rfl
    | cons c l ih =>
        by_cases hc : c = nul
        · simp [cstr, hc]
        · have hcons : ∀ t, cstr (c :: t) = c :: cstr t := fun t => by simp [cstr, hc]
          rw [hcons]
          -- the NUL is written over the first byte to reject, or over the one at the end
          by_cases hstop : c ∈ reject
          · rw [List.takeWhile_cons_of_neg (by simpa using hstop)]
            simp [cstr]
          · rw [List.takeWhile_cons_of_pos (by simpa using hstop), List.length_cons, List.set_cons_succ,
              hcons, ih]
  rw [strAt, List.drop_set, if_neg (by omega), Nat.add_sub_cancel_left]
  exact hcut (buf.drop i)

/-- The child bytes are sent to has a name without separators, and not one of the form of
a question. -/
theorem childSend_name {children : List Child} {buf : List Char} {i : Nat} {childp : Child}
    {bytes : List Char} (h : childSend children buf i = .wrote childp bytes) :
    (∀ c ∈ childp.cName, c ∉ childDelim) ∧ childp.cName.head? ≠ some '?' := by
  simp only [childSend] at h
  split at h
  · cases h
  · next hbyte =>
    split at h
    · cases h
    · next found hfind =>
      cases h
      have hname : childp.cName = (strAt buf (i + strspn buf i childDelim)).takeWhile (· ∉ childDelim) := by
        rw [← strAt_set_cspn]
        simpa using List.find?_some hfind
      rw [hname]
      constructor
      · intro c hc
        simpa using List.mem_takeWhile_imp hc
      · -- its first byte is the one that was looked at
        intro hhead
        rw [byteAt_eq] at hbyte
        obtain ⟨t, ht⟩ := List.head?_eq_some_iff.mp hhead
        have hbegins := List.takeWhile_prefix (fun c => decide (c ∉ childDelim))
          (l := strAt buf (i + strspn buf i childDelim))
        rw [ht] at hbegins
        obtain ⟨u, hu⟩ := hbegins
        rw [← hu] at hbyte
        exact hbyte (Or.inr rfl)

/-- A child whose name can be addressed is. -/
theorem directs_of_addressable {children : List Child} {childp : Child} (h : WellNamed children)
    (hmem : childp ∈ children) (hname : Addressable childp.cName) : Directs children childp := by
  have hfind := childFindByName_of_mem h.distinct hmem
  have hsend : ∀ {buf i cmd}, Stands buf i (childp.cName ++ ' ' :: cmd) → cmd ≠ [] →
      (∀ c, cmd.head? = some c → c ∉ childDelim) →
      childSend children buf i = .wrote childp (cmd ++ ['\n']) := by
    intro buf i cmd hbuf hne hhead
    obtain ⟨c, cmd, rfl⟩ := List.exists_cons_of_ne_nil hne
    have hc : c ∉ whitespace := fun hblank => hhead c rfl (delim_of_blank hblank)
    rw [childSend_wrote hbuf hname (by decide) (fun heq => by cases heq) hfind,
      List.dropWhile_cons_of_pos (by decide), List.dropWhile_cons_of_neg (by simpa using hc)]
  constructor
  · exact fun buf i cmd => hsend
  · intro cmd beyond hnul hne hhead
    obtain ⟨c, cmd, rfl⟩ := List.exists_cons_of_ne_nil hne
    have hc : c ∉ whitespace := fun hblank => hhead c rfl (delim_of_blank hblank)
    have htext : nul ∉ childp.cName ++ ' ' :: c :: cmd := by
      simpa using ⟨(h.word childp hmem).no_nul, by decide, by simpa using hnul⟩
    have htrim : trimmed (childp.cName ++ ' ' :: c :: cmd) = childp.cName ++ ' ' :: c :: trimmed cmd := by
      have hjoin := trimmed_append_cons hc (childp.cName ++ [' ']) cmd
      rw [List.append_assoc, List.append_assoc] at hjoin
      exact hjoin
    have hcmd : trimmed (c :: cmd) = c :: trimmed cmd := trimmed_append_cons hc [] cmd
    have hkept : nul ∉ childp.cName ++ ' ' :: c :: trimmed cmd := by
      rw [← htrim]
      exact fun hmem => htext ((List.rdropWhile_prefix _ _).subset hmem)
    rw [processLine_slash children htext, lineSend_eq children htext, childSendT_fst, htrim, hcmd,
      hsend (stands_trimmed hkept _ _) (by simp) (by simpa using hhead c rfl)]

/-- A line for a child whose name has a slash in it, or starts with a question mark, does
not go to it. -/
theorem addressable_of_directs {children : List Child} {childp : Child}
    (h : IsWord childp.cName) (hdirects : Directs children childp) : Addressable childp.cName := by
  have hbuf : Stands (childp.cName ++ ' ' :: ['x'] ++ nul :: []) 0 (childp.cName ++ ' ' :: ['x']) := by
    apply Stands.of_append
    simpa using ⟨h.no_nul, by decide, by decide⟩
  have hhead : ∀ c, ['x'].head? = some c → c ∉ childDelim := by
    intro c hc
    cases hc
    decide
  have hsent := hdirects.send _ 0 ['x'] hbuf (by simp) hhead
  obtain ⟨hdelim, hquery⟩ := childSend_name hsent
  exact ⟨h.ne_nil, hdelim, hquery⟩

/-- Among words, those without a slash that do not start with a question mark. -/
theorem IsWord.addressable_iff {name : CStr} (h : IsWord name) :
    Addressable name ↔ '/' ∉ name ∧ name.head? ≠ some '?' := by
  constructor
  · intro hname
    exact ⟨fun hslash => hname.no_delim _ hslash (by decide), hname.no_query⟩
  · rintro ⟨hslash, hquery⟩
    refine ⟨h.ne_nil, fun c hc hdelim => ?_, hquery⟩
    rcases delim_cases hdelim with rfl | hblank
    · exact hslash hc
    · exact h.no_blank c hc hblank

/-- The child a command puts at the end of the list has the name `child_spawn` takes. -/
theorem spawned_name {w : World} {s s₁ : Shell} {name args : CStr} {childp : Child} {u : Unit}
    (hspawn : Goes (callCommand name .childSpawn args) w s u s₁)
    (hnew : s₁.children = s.children ++ [childp]) : childp.cName = spawnedName args := by
  obtain ⟨cs, heq⟩ := hspawn
  have hchildren := callCommand_children name .childSpawn args w s
  rw [heq] at hchildren
  rcases hchildren with hsame | ⟨childpid, -, -, hadd⟩
  · -- the list has grown
    have hlen := congrArg List.length (hsame.symm.trans hnew)
    simp at hlen
  · have hlast := (List.append_inj' (hnew.symm.trans hadd) rfl).2
    rw [(List.cons.inj hlast).1]

/-- As long as a child that was spawned is in the list, lines for it go to it exactly when
its name has no slash and does not start with a question mark. -/
theorem spawned_addressable_iff {w : World} {s s₁ s₂ : Shell} {name args : CStr} {childp : Child}
    (hs : shellSpec.Reachable s) (hargs : nul ∉ args)
    (hspawn : Goes (callCommand name .childSpawn args) w s () s₁)
    (hnew : s₁.children = s.children ++ [childp])
    (hlater : Relation.ReflTransGen ShellStep s₁ s₂) (hmem : childp ∈ s₂.children) :
    Directs s₂.children childp ↔
      '/' ∉ spawnedName args ∧ (spawnedName args).head? ≠ some '?' := by
  have hs₁ : shellSpec.Reachable s₁ := by
    obtain ⟨cs, heq⟩ := hspawn
    have hstep := ShellStep.command (s := s) w name .childSpawn hargs
    rw [heq] at hstep
    exact hs.step hstep
  have hs₂ : shellSpec.Reachable s₂ :=
    Trans.preserved_of_star _ (fun _ _ hstep h => h.step hstep) hlater hs₁
  have hnames := reachable_wellNamed hs₂
  have hword := hnames.word childp hmem
  rw [← spawned_name hspawn hnew, ← hword.addressable_iff]
  exact ⟨addressable_of_directs hword, directs_of_addressable hnames hmem⟩

/-- The state after `child args` from the start. -/
def afterChild (args : CStr) : Shell :=
  (callCommand "child".toList .childSpawn args sampleWorld sampleShell).shell

theorem spawned_addressable_iff_a :
    Directs (afterChild "a".toList).children ⟨"a".toList, 2⟩ ↔
      '/' ∉ spawnedName "a".toList ∧ (spawnedName "a".toList).head? ≠ some '?' := by
  have hinit : shellSpec.Reachable sampleShell := .init rfl
  have hspawn : Goes (callCommand "child".toList .childSpawn "a".toList) sampleWorld sampleShell ()
      (afterChild "a".toList) := ⟨[], rfl⟩
  exact spawned_addressable_iff hinit (by decide) hspawn rfl .refl (by decide)

/-- A child `a/b`, and one `?`: lines for the first are for a child `a`, lines for the
second list the children. -/
theorem spawned_unaddressable :
    (shellSpec.Reachable (afterChild "a/b".toList) ∧
      (afterChild "a/b".toList).children = [⟨"a/b".toList, 2⟩] ∧
      childSend (afterChild "a/b".toList).children (cmdBuffer "/a/b pid".toList) 1 =
        .noChild "a".toList ∧
      ¬ Directs (afterChild "a/b".toList).children ⟨"a/b".toList, 2⟩) ∧
    ((afterChild "?".toList).children = [⟨"?".toList, 2⟩] ∧
      childSend (afterChild "?".toList).children (cmdBuffer "/? pid".toList) 1 = .listed ∧
      ¬ Directs (afterChild "?".toList).children ⟨"?".toList, 2⟩) := by
  have hreach : ∀ args : CStr, nul ∉ args → shellSpec.Reachable (afterChild args) := by
    intro args hargs
    have hinit : shellSpec.Reachable sampleShell := .init rfl
    exact hinit.step (.command sampleWorld _ _ hargs)
  have hword : ∀ name : CStr, IsWord name → ¬ ('/' ∉ name ∧ name.head? ≠ some '?') →
      ∀ children, ¬ Directs children ⟨name, 2⟩ := by
    intro name hname hbad children hdirects
    exact hbad (hname.addressable_iff.mp (addressable_of_directs hname hdirects))
  refine ⟨⟨hreach _ (by decide), rfl, by decide, ?_⟩, rfl, by decide, ?_⟩
  · exact hword _ ⟨by decide, forall_mem_of_all rfl, by decide⟩ (by decide) _
  · exact hword _ ⟨by decide, forall_mem_of_all rfl, by decide⟩ (by decide) _

end Memtoy
