import Memtoy.Command.Batch
import Memtoy.Command.Spelling

/-!
# Command.Meaning — a command line does what it says

For every statement its handler makes the calls of `perform`, in the same state and with the
same arguments; from there to the line it is the search for the command (`findCommand_calls`)
and the trimming of blanks (`processLine_text`).
-/

namespace Memtoy

open CString Cmd

variable {w : World} {s : Shell} {args segname : CStr} {words words₁ words₂ : List CStr}

/-! ## The handlers -/

/-- What comes behind a range: nothing, or one word that is no number. -/
theorem noRange_optionally {α : Type} {spells : α → CStr → Prop} {option : Option α}
    (h : Optionally spells option words)
    (hspells : ∀ a word, spells a word → startsWithDigit word = false) : NoRange words := by
  cases option with
  | none =>
      rw [show words = [] from h]
      rintro word ⟨⟩
  | some a =>
      rcases h with ⟨word, hword, rfl⟩
      rintro word' ⟨⟩
      exact hspells a word hword

theorem noRange_nil : NoRange [] := by
  rintro word ⟨⟩

theorem unmapSeg_spelled (h : (Stmt.unmap segname).Spells words)
    (htext : Spaced whitespace (skipBlanks args) words) :
    unmapSeg args w s = (Stmt.unmap segname).perform w s := by
  rw [show words = [segname] from h] at htext
  rcases gives_takeSegName htext with ⟨rest, htake, -⟩
  rw [unmapSeg, htake.bind]
  rfl

theorem showSeg_spelled {name : Option CStr} (h : (Stmt.show name).Spells words)
    (htext : Spaced whitespace (skipBlanks args) words) :
    showSeg args w s = (Stmt.show name).perform w s := by
  cases name with
  | none =>
      rw [show words = [] from h] at htext
      rw [showSeg, htext.eq_nil]
      rfl
  | some segname =>
      rcases h with ⟨hplus, rfl⟩
      rcases nextToken_spaced htext with ⟨rest, htok, -⟩
      have hhead : (skipBlanks args).head? ≠ some '+' := by
        rw [htext.head.1]
        exact hplus
      rw [showSeg]
      simp only [htext.ne_nil, hhead, or_self, if_false, htok]
      rfl

theorem removeAll_eq : ∀ segnames : List CStr, removeAll segnames = removeEach segnames
  | [] => rfl
  | segname :: segnames => by
      rw [removeAll, removeEach]
      congr 1
      funext _
      exact removeAll_eq segnames

theorem removeSeg_spelled {segnames : List CStr} (h : (Stmt.remove segname segnames).Spells words)
    (htext : Spaced whitespace (skipBlanks args) words) :
    removeSeg args w s = (Stmt.remove segname segnames).perform w s := by
  rw [show words = segname :: segnames from h] at htext
  have htokens := htext.tokens_self
  rw [removeSeg, (gives_required htext.ne_nil _).bind, htokens, removeAll_eq]
  rfl

theorem lockUnlock_spelled {lock : Bool} {extent : Extent} (hextent : extent.Spells words₁)
    (hfits : extent.Fits s.table.g.pagesize)
    (htext : Spaced whitespace (skipBlanks args) (segname :: words₁)) :
    lockUnlock lock false args w s =
      segment (.lockUnlock w.kernel segname (extent.range s.table.g.pagesize) lock false)
        (Op.ok_lockUnlock _ _ _ _ _) w s := by
  rcases gives_takeSegName htext with ⟨rest, htake, hrest⟩
  rw [← List.append_nil words₁] at hrest
  rcases gives_takeRange (w := w) hextent hfits noRange_nil hrest with ⟨rest', hrange, -⟩
  rw [lockUnlock, htake.bind]
  simp only [Bool.false_eq_true, if_false]
  rw [hrange.bind]
  rfl

theorem lockUnlock_shm_spelled {lock : Bool}
    (htext : Spaced whitespace (skipBlanks args) [segname]) :
    lockUnlock lock true args w s =
      segment (.lockUnlock w.kernel segname ⟨0, 0, 0⟩ lock true) (Op.ok_lockUnlock _ _ _ _ _) w s := by
  rcases gives_takeSegName htext with ⟨rest, htake, -⟩
  rw [lockUnlock, htake.bind]
  rfl

theorem touchSeg_spelled {extent : Extent} {write : Option Bool}
    (h : (Stmt.touch segname extent write).Spells words)
    (hfits : extent.Fits s.table.g.pagesize)
    (htext : Spaced whitespace (skipBlanks args) words) :
    touchSeg args w s = (Stmt.touch segname extent write).perform w s := by
  rcases h with ⟨words₁, words₂, hextent, hwrite, rfl⟩
  rcases gives_takeSegName htext with ⟨rest, htake, hrest⟩
  have hno : NoRange words₂ := noRange_optionally hwrite fun _ _ hword => hword.no_digit
  rcases gives_takeRange (w := w) hextent hfits hno hrest with ⟨rest', hrange, hrest', -⟩
  have haccess : getAccess rest' = (some (write.getD false), []) := by
    cases write with
    | none =>
        rw [show words₂ = [] from hwrite] at hrest'
        rw [hrest'.eq_nil]
        rfl
    | some write =>
        rcases hwrite with ⟨word, hword, rfl⟩
        rw [hrest'.eq_single]
        exact getAccess_spelled hword
  rw [touchSeg, htake.bind]
  simp only []
  rw [hrange.bind]
  simp only []
  rw [(gives_orError haccess).bind]
  rfl

/-- The flags of a segment, of `dflt` when the line does not say. -/
theorem sharing_spelled {sharing : Option Sharing} {rest : CStr}
    (h : Optionally Sharing.Spells sharing words) (hrest : Spaced whitespace rest words)
    (dflt : SegFlags) (f : SegFlags → Cmd Unit) :
    (if rest ≠ [] then orError (getShared rest) >>= f else next dflt >>= f) w s =
      f ((sharing.map Sharing.flags).getD dflt) w s := by
  cases sharing with
  | none =>
      rw [show words = [] from h] at hrest
      rw [if_neg (not_not.mpr hrest.eq_nil), (gives_next dflt).bind]
      rfl
  | some how =>
      rcases h with ⟨word, hword, rfl⟩
      rw [if_pos hrest.ne_nil, hrest.eq_single, (gives_orError (getShared_spelled hword)).bind]
      rfl

theorem fileSeg_spelled {pathname : CStr} {extent : Extent} {sharing : Option Sharing}
    (h : (Stmt.file pathname extent sharing).Spells words)
    (hfits : extent.Fits s.table.g.pagesize)
    (htext : Spaced whitespace (skipBlanks args) words) :
    fileSeg args w s = (Stmt.file pathname extent sharing).perform w s := by
  rcases h with ⟨words₁, words₂, hextent, hsharing, rfl⟩
  rcases gives_takeArg htext _ with ⟨rest, htake, hrest⟩
  have hno : NoRange words₂ := noRange_optionally hsharing fun _ _ hword => hword.no_digit
  rcases gives_takeRange (w := w) hextent hfits hno hrest with ⟨rest', hrange, hrest', -⟩
  rw [fileSeg, htake.bind]
  simp only []
  rw [hrange.bind]
  exact sharing_spelled hsharing hrest' _ _

theorem mapSeg_spelled {extent : Extent} {sharing : Option Sharing}
    (h : (Stmt.map segname extent sharing).Spells words)
    (hfits : extent.Fits s.table.g.pagesize)
    (htext : Spaced whitespace (skipBlanks args) words) :
    mapSeg args w s = (Stmt.map segname extent sharing).perform w s := by
  rcases h with ⟨words₁, words₂, hextent, hsharing, rfl⟩
  rcases gives_takeSegName htext with ⟨rest, htake, hrest⟩
  have hno : NoRange words₂ := noRange_optionally hsharing fun _ _ hword => hword.no_digit
  rcases gives_takeRange (w := w) hextent hfits hno hrest with ⟨rest', hrange, hrest', hwhole⟩
  -- the registered range is used exactly where the line has none
  have hrangep : (if rest ≠ rest' then some (extent.range s.table.g.pagesize) else none) =
      if extent = .whole then none else some (extent.range s.table.g.pagesize) := by
    by_cases heq : extent = .whole
    · rw [if_neg (not_not.mpr (hwhole.mpr heq)), if_pos heq]
    · rw [if_pos (mt hwhole.mp heq), if_neg heq]
  rw [mapSeg, htake.bind]
  simp only []
  rw [hrange.bind]
  refine (sharing_spelled hsharing hrest' _ _).trans ?_
  exact segment_congr (congrArg (fun rangep => Op.map w.kernel segname rangep _) hrangep) _ _

theorem whereSeg_spelled {extent : Extent} (h : (Stmt.location segname extent).Spells words)
    (hnuma : 0 < s.numaMaxNode) (hfits : extent.Fits s.table.g.pagesize)
    (htext : Spaced whitespace (skipBlanks args) words) :
    whereSeg args w s = (Stmt.location segname extent).perform w s := by
  rcases h with ⟨words₁, hextent, rfl⟩
  rcases gives_takeSegName htext with ⟨rest, htake, hrest⟩
  rw [← List.append_nil words₁] at hrest
  rcases gives_takeRange (w := w) hextent hfits noRange_nil hrest with ⟨rest', hrange, -, hwhole⟩
  have hdefault : ∀ r r' : Range, (if rest = rest' then r else r') =
      if extent = .whole then r else r' := by
    intro r r'
    by_cases heq : extent = .whole
    · rw [if_pos (hwhole.mpr heq), if_pos heq]
    · rw [if_neg (mt hwhole.mp heq), if_neg heq]
  rw [whereSeg, (gives_needNuma hnuma).bind, htake.bind]
  simp only []
  rw [hrange.bind]
  exact segment_congr (congrArg (Op.location w.kernel w.signalAfter loopFuel segname)
    (hdefault _ _)) _ _

theorem anonSeg_spelled {size : Amount} {options : List AnonOption}
    (h : (Stmt.anon segname size options).Spells words) (hsize : size.Fits s.table.g.pagesize)
    (hfits : ∀ option ∈ options, option.Fits)
    (htext : Spaced whitespace (skipBlanks args) words) :
    anonSeg args w s = (Stmt.anon segname size options).perform w s := by
  rcases h with ⟨word, words', hword, hwords, rfl⟩
  rcases gives_takeSegName htext with ⟨rest, htake, hrest⟩
  rcases gives_takeSize (w := w) hword hsize hrest with ⟨rest', hlength, hrest'⟩
  have htokens := hrest'.tokens_self
  rw [anonSeg, htake.bind]
  simp only []
  rw [hlength.bind]
  simp only [htokens, anonOptions_spelled hwords hfits]
  exact bind_congr_at fun r s' => rfl

theorem shmemSeg_spelled {size : Amount} {huge : Bool}
    (h : (Stmt.shmem segname size huge).Spells words) (hsize : size.Fits s.table.g.pagesize)
    (htext : Spaced whitespace (skipBlanks args) words) :
    shmemSeg args w s = (Stmt.shmem segname size huge).perform w s := by
  rcases h with ⟨word, words', hword, hwords, rfl⟩
  rcases gives_takeSegName htext with ⟨rest, htake, hrest⟩
  rcases gives_takeSize (w := w) hword hsize hrest with ⟨rest', hlength, hrest'⟩
  have hhuge : (rest' ≠ [] ∧ abbreviates (nextToken rest').1 "huge".toList = true) ↔
      huge = true := by
    cases huge with
    | false =>
        rw [show words' = [] from hwords] at hrest'
        simp [hrest'.eq_nil]
    | true =>
        rcases hwords with ⟨word', hword', rfl⟩
        rcases nextToken_spaced hrest' with ⟨_, htok, -⟩
        rw [htok]
        exact iff_of_true ⟨hrest'.ne_nil, hword'.2⟩ rfl
  rw [shmemSeg, htake.bind]
  simp only []
  rw [hlength.bind]
  refine segment_congr (congrArg (fun flags : SegFlags =>
    Op.register w.kernel .segtShm segname ⟨0, size.value s.table.g.pagesize, 0⟩ flags.1) ?_) _ _
  by_cases hset : huge = true
  · rw [if_pos (hhuge.mpr hset), if_pos hset]
  · rw [if_neg (mt hhuge.mp hset), if_neg hset]

theorem mprotectSeg_spelled {prot : List ProtWord} (h : (Stmt.mprotect segname prot).Spells words)
    (htext : Spaced whitespace (skipBlanks args) words) :
    mprotectSeg args w s = (Stmt.mprotect segname prot).perform w s := by
  rcases h with ⟨words', hwords, rfl⟩
  rcases gives_takeSegName htext with ⟨rest, htake, hrest⟩
  have htokens := hrest.tokens_self
  have hprot : getProt (tokens whitespace rest) 0 = protFlags prot := by
    rw [htokens, getProt_spelled hwords]
    rfl
  rw [mprotectSeg, htake.bind]
  show (callSegment (.mprotect w.kernel segname (getProt (tokens whitespace rest) 0)) _ >>=
    fun _ => pure ()) w s = _
  rw [hprot]
  rfl

/-- Behind the policy: the flags, if any, and the nodes. -/
theorem mbindWith_spelled {policy : PolicyName} {flags : MoveFlags} {nodes : NodeSet}
    {mods rest : CStr} (hmods : flags.Spells mods) (hnodes : nodes.Spells words)
    (htakes : policy.Takes nodes) (hmax : s.numaMaxNode < 2 ^ 31)
    (hids : ∀ ids, nodes = .ids ids → ∀ id ∈ ids, (id : Int) ≤ s.numaMaxNode)
    (hrest : Ends rest) (hwords : Spaced whitespace (skipBlanks rest) words)
    (hnul : nul ∉ mods ++ rest) (range : Range) :
    mbindWith segname range policy.entry.2 (mods ++ rest) w s =
      segment (.mbind w.kernel segname range policy.entry.2 nodes.mask flags.flags)
        (Op.ok_mbind _ _ _ _ _ _) w s := by
  rcases getArgNodemask_spelled hnodes htakes hmax hids hwords s.cmdName with ⟨mask, hmask, hbits⟩
  -- what is left when the flags have been read
  have hcall : ∀ f : Flags, (shell >>= fun s => orError (getArgNodemask s.cmdName s.numaMaxNode
      (skipBlanks rest) policy.entry.2) >>= fun nodes => world >>= fun w =>
        segment (.mbind w.kernel segname range policy.entry.2 (nodes.map nodeBits) f)
          (Op.ok_mbind _ _ _ _ _ _)) w s =
      segment (.mbind w.kernel segname range policy.entry.2 nodes.mask f)
        (Op.ok_mbind _ _ _ _ _ _) w s := by
    intro f
    rw [gives_shell.bind, (gives_orError hmask).bind, gives_world.bind]
    exact segment_congr (congrArg (fun bits => Op.mbind w.kernel segname range _ bits f) hbits) _ _
  by_cases hstay : flags = .stay
  · subst hstay
    rw [show mods = [] from hmods, List.nil_append, mbindWith]
    simp only [hnodes.head hwords, if_false]
    exact hcall 0
  · rcases moveFlags_spelled hmods hrest hnul hstay with ⟨hplus, hflags⟩
    have hskip : skipBlanks (mods ++ rest) = mods ++ rest := by
      rcases List.head?_eq_some_iff.mp hplus with ⟨t, heq⟩
      rw [heq]
      rfl
    rw [mbindWith]
    simp only [hskip, hplus, if_true]
    rw [(gives_orError hflags).bind]
    exact hcall flags.flags

theorem mbindSeg_spelled {extent : Extent} {policy : PolicyName} {flags : MoveFlags}
    {nodes : NodeSet} (h : (Stmt.mbind segname extent policy flags nodes).Spells words)
    (hfits : (Stmt.mbind segname extent policy flags nodes).Fits s.table.g.pagesize s.numaMaxNode)
    (htext : Spaced whitespace (skipBlanks args) words) (hnul : nul ∉ skipBlanks args) :
    mbindSeg args w s = (Stmt.mbind segname extent policy flags nodes).perform w s := by
  rcases h with ⟨words₁, pol, mods, words₂, hextent, hpol, hmods, hnodes, htakes, rfl⟩
  rcases hfits with ⟨hnuma, hmax, hextfits, hids⟩
  have hno : NoRange ((pol ++ mods) :: words₂) := by
    rintro word ⟨⟩
    rw [startsWithDigit_congr ((List.head?_append_of_ne_nil _ hpol.1).trans hpol.head)]
    cases policy <;> rfl
  rcases gives_takeSegName htext with ⟨rest, htake, hrest⟩
  rcases gives_takeRange (w := w) hextent hextfits hno hrest with ⟨rest', hrange, hrest', -⟩
  rcases hrest'.split with ⟨tail, heq, hends, htail, -⟩
  have hnul' : nul ∉ rest' := by
    intro hmem
    rcases (hrest'.mem_iff (by decide)).mp hmem with ⟨word, hword, hc⟩
    exact hnul ((htext.mem_iff (by decide)).mpr
      ⟨word, List.mem_cons_of_mem _ (List.mem_append_right _ hword), hc⟩)
  rw [heq, List.append_assoc] at hnul'
  have hreject : ∀ c, (mods ++ tail).head? = some c → c ∈ mbindReject := by
    intro c hc
    by_cases hstay : flags = .stay
    · subst hstay
      rw [show mods = [] from hmods, List.nil_append] at hc
      exact mem_mbindReject_of_blank (hends c hc)
    · have hplus := (moveFlags_spelled hmods hends (fun hmem => hnul'
        (List.mem_append_right _ hmem)) hstay).1
      rw [hplus, Option.some.injEq] at hc
      rw [← hc]
      decide
  have hpolicy := getMbindPolicy_spelled hpol hnul' hreject
  have hnonneg : ¬ policy.entry.2 < 0 := by cases policy <;> decide
  rw [mbindSeg, (gives_needNuma hnuma).bind, htake.bind]
  simp only []
  rw [hrange.bind]
  simp only []
  rw [(gives_required hrest'.ne_nil _).bind, heq, List.append_assoc, hpolicy]
  simp only [hnonneg, if_false, Option.getD_some]
  exact mbindWith_spelled hmods hnodes htakes hmax hids hends htail
    (fun hmem => hnul' (List.mem_append_right _ hmem)) _

/-- The handler of a statement makes the calls the statement is for. -/
theorem run_spelled {stmt : Stmt} (h : stmt.Spells words)
    (hfits : stmt.Fits s.table.g.pagesize s.numaMaxNode)
    (htext : Spaced whitespace (skipBlanks args) words) (hnul : nul ∉ skipBlanks args) :
    stmt.entry.2.run args w s = stmt.perform w s := by
  cases stmt with
  | quit => rfl
  | «show» name => exact showSeg_spelled h htext
  | anon segname size options => exact anonSeg_spelled h hfits.1 hfits.2 htext
  | file pathname extent sharing => exact fileSeg_spelled h hfits htext
  | shmem segname size huge => exact shmemSeg_spelled h hfits htext
  | remove segname segnames => exact removeSeg_spelled h htext
  | map segname extent sharing => exact mapSeg_spelled h hfits htext
  | unmap segname => exact unmapSeg_spelled h htext
  | lock segname extent =>
      rcases h with ⟨words₁, hextent, rfl⟩
      exact lockUnlock_spelled hextent hfits htext
  | unlock segname extent =>
      rcases h with ⟨words₁, hextent, rfl⟩
      exact lockUnlock_spelled hextent hfits htext
  | shmLock segname =>
      rw [show words = [segname] from h] at htext
      exact lockUnlock_shm_spelled htext
  | shmUnlock segname =>
      rw [show words = [segname] from h] at htext
      exact lockUnlock_shm_spelled htext
  | touch segname extent write => exact touchSeg_spelled h hfits htext
  | mbind segname extent policy flags nodes => exact mbindSeg_spelled h hfits htext hnul
  | location segname extent => exact whereSeg_spelled h hfits.1 hfits.2 htext
  | mprotect segname prot => exact mprotectSeg_spelled h htext

/-! ## `parse_command` -/

/-- A statement under the name of its command. -/
def Stmt.command (stmt : Stmt) : Cmd Unit := do
  let s ← shell
  setShell { s with cmdName := stmt.entry.1 }
  stmt.perform
  let s ← shell
  setShell { s with cmdName := [] }

theorem findCommand_eq {cmd : CStr} (hcmd : nul ∉ cmd) {entry : CStr × CmdFunc}
    (hbegins : cmd <+: entry.1) : ∀ {table : List (CStr × CmdFunc)}, table.Nodup →
      entry ∈ table → (∀ c ∈ table, cmd <+: c.1 → c = entry) →
        findCommand cmd table = .command entry.1 entry.2
  | [], _, hmem, _ => by cases hmem
  | (name, f) :: table, hnodup, hmem, huniq => by
      rw [List.nodup_cons] at hnodup
      rw [List.forall_mem_cons] at huniq
      have hcmp : strncmpEq cmd name cmd.length = true ↔ cmd <+: name :=
        strncmpEq_iff hcmd (List.prefix_refl cmd)
      by_cases hfirst : (name, f) = entry
      · -- no other entry behind it begins with the word
        subst hfirst
        have hunique : uniqueAbbrev cmd table = true := by
          rw [uniqueAbbrev, List.all_eq_true]
          intro c hc
          rw [decide_eq_true_iff]
          intro hmatch
          have heq := huniq.2 c hc ((strncmpEq_iff hcmd (List.prefix_refl cmd)).mp hmatch)
          exact hnodup.1 (heq ▸ hc)
        rw [findCommand, if_neg (not_not.mpr (hcmp.mpr hbegins)),
          if_neg (not_not.mpr hunique)]
      · have hrest : entry ∈ table := (List.mem_cons.mp hmem).resolve_left (Ne.symm hfirst)
        rw [findCommand, if_pos (mt hcmp.mp (mt huniq.1 hfirst))]
        exact findCommand_eq hcmd hbegins hnodup.2 hrest huniq.2

theorem Stmt.entry_mem (stmt : Stmt) : stmt.entry ∈ cmdTable := by
  cases stmt with
  | quit => exact List.mem_of_getElem? (i := 2) rfl
  | «show» => exact List.mem_of_getElem? (i := 8) rfl
  | anon => exact List.mem_of_getElem? (i := 9) rfl
  | file => exact List.mem_of_getElem? (i := 10) rfl
  | shmem => exact List.mem_of_getElem? (i := 11) rfl
  | remove => exact List.mem_of_getElem? (i := 12) rfl
  | map => exact List.mem_of_getElem? (i := 13) rfl
  | unmap => exact List.mem_of_getElem? (i := 14) rfl
  | lock => exact List.mem_of_getElem? (i := 15) rfl
  | unlock => exact List.mem_of_getElem? (i := 16) rfl
  | shmLock => exact List.mem_of_getElem? (i := 17) rfl
  | shmUnlock => exact List.mem_of_getElem? (i := 18) rfl
  | touch => exact List.mem_of_getElem? (i := 19) rfl
  | mbind => exact List.mem_of_getElem? (i := 20) rfl
  | location => exact List.mem_of_getElem? (i := 21) rfl
  | mprotect => exact List.mem_of_getElem? (i := 28) rfl

/-- The names in the table are letters. -/
theorem cmdTable_names : ∀ c ∈ cmdTable,
    nul ∉ c.1 ∧ c.1.head? ≠ some '#' ∧ c.1.head? ≠ some '/' := by decide

variable {stmt : Stmt} {cmd : CStr}

theorem findCommand_calls (h : stmt.Calls cmd) :
    findCommand cmd cmdTable = .command stmt.entry.1 stmt.entry.2 := by
  have hnul : nul ∉ cmd := fun hmem => (cmdTable_names _ stmt.entry_mem).1 (h.1.subset hmem)
  exact findCommand_eq hnul h.1 (by decide) stmt.entry_mem h.2

/-- `parse_command` does what the words of its line say. -/
theorem parseCommand_spelled {cmdline : CStr} (hcalls : stmt.Calls cmd) (h : stmt.Spells words)
    (hfits : stmt.Fits s.table.g.pagesize s.numaMaxNode)
    (htext : Spaced whitespace cmdline (cmd :: words)) (hnul : nul ∉ cmdline) :
    parseCommand cmdline w s = stmt.command w s := by
  rcases htext.strtok with ⟨htok, hargs⟩
  have hskip : skipBlanks cmdline = cmdline := htext.skip
  rcases hr : strtokR whitespace cmdline with ⟨o, args⟩
  rw [hr] at htok hargs
  cases htok
  have hnul' : nul ∉ skipBlanks args := by
    intro hmem
    rcases (hargs.mem_iff (by decide)).mp hmem with ⟨word, hword, hc⟩
    exact hnul ((htext.mem_iff (by decide)).mpr ⟨word, List.mem_cons_of_mem _ hword, hc⟩)
  have hrun : stmt.entry.2.run args w { s with cmdName := stmt.entry.1 } =
      stmt.perform w { s with cmdName := stmt.entry.1 } := run_spelled h hfits hargs hnul'
  rw [parseCommand, hskip, hr]
  simp only [findCommand_calls hcalls]
  rw [callCommand, Stmt.command, gives_shell.bind, gives_shell.bind]
  exact bind_congr_left hrun _

/-! ## A line -/

/-- Without the blanks around it, the line is its words. -/
theorem lineText_spaced {line : CStr} (hwords : tokens whitespace line ≠ []) :
    Spaced whitespace (lineText line) (tokens whitespace line) := by
  have hline : fromText line ≠ [] := by
    intro hnil
    have hblank : ∀ c ∈ line, c ∈ whitespace := by simpa [fromText] using hnil
    apply hwords
    rw [← List.append_nil line, tokens_gap hblank]
    rfl
  rcases line_split hline with ⟨pre, post, hsplit, hpre, -, hpost, -, hne, htrim⟩
  have hpre' : ∀ c ∈ pre, c ∈ whitespace := by
    intro c hc
    rw [hpre] at hc
    simpa using List.mem_takeWhile_imp hc
  rcases exists_spaced whitespace (lineText line) with ⟨pre', body, post', htext, hp, hq, hbody⟩
  -- the text begins and ends with a word
  have hnone : pre' = [] := by
    rcases pre' with _ | ⟨c, pre'⟩
    · rfl
    · exact absurd (hp c List.mem_cons_self) (htrim.head c (by rw [htext]; rfl))
  have hnone' : post' = [] := by
    rcases List.eq_nil_or_concat post' with hnil | ⟨post', c, rfl⟩
    · exact hnil
    · refine absurd (hq c (by simp)) (htrim.last c ?_)
      rw [htext, List.concat_eq_append, ← List.append_assoc, ← List.append_assoc,
        List.getLast?_concat]
  rw [hnone, hnone', List.nil_append, List.append_nil] at htext
  rw [← htext] at hbody
  have htokens : tokens whitespace line = tokens whitespace (lineText line) := by
    conv_lhs => rw [hsplit, tokens_gap hpre', hbody.tokens_eq hpost]
  rw [htokens]
  exact hbody

/-- A line that is neither a comment nor for a child is a command. -/
theorem processLine_text (children : List Child) {line : CStr} (hnul : nul ∉ line)
    (hline : fromText line ≠ []) (hcomment : (lineText line).head? ≠ some '#')
    (hchild : (lineText line).head? ≠ some '/') (beyond : List Char) :
    processLine children (line ++ nul :: beyond) = .command (lineText line) := by
  obtain ⟨hfirst, hspn, hfrom⟩ := line_start hnul beyond
  obtain ⟨buf, reads, -, hstands, hloop⟩ := trimLoop_line hnul beyond hline fun _ => ' '
  obtain ⟨-, -, -, -, -, -, hhead, hne, -⟩ := line_split hline
  obtain ⟨c, u, hcons⟩ := List.exists_cons_of_ne_nil hline
  have hlen : (fromText line).length ≠ 0 := by simp [hcons]
  have hbyte : byteAt (line ++ nul :: beyond) (line.takeWhile (· ∈ whitespace)).length ≠ '#' := by
    rw [hfrom.byte, hcons]
    intro hc
    rw [hhead, hcons] at hcomment
    exact hcomment (congrArg some hc)
  have hnot : line.headD nul ≠ nul := by
    rcases line with _ | ⟨d, line⟩
    · cases hcons
    · intro hd
      exact hnul (by rw [← show d = nul from hd]; exact List.mem_cons_self)
  have hpos := List.length_pos_iff.mpr hne
  have htrim := trimTrailing_of_loop (hloop (line.length + 1) (Nat.lt_succ_self _))
    (Int.natCast_pos.mpr hpos)
  have hslash : byteAt buf (line.takeWhile (· ∈ whitespace)).length ≠ '/' := by
    rw [hstands.byte]
    intro hc
    rcases htext : lineText line with _ | ⟨d, t⟩
    · exact hne htext
    · rw [htext] at hc hchild
      exact hchild (congrArg some hc)
  simp only [processLine, hfirst, if_neg hnot, hspn, hfrom.str, if_neg hlen, if_neg hbyte, htrim,
    Int.toNat_natCast, if_neg hpos.ne', if_neg hslash, hstands.str]

theorem cmdBuffer_eq {line : CStr} (hlen : line.length < cmdbufsz) :
    ∃ beyond, cmdBuffer line = line ++ nul :: beyond := by
  obtain ⟨n, hn⟩ := Nat.exists_eq_add_of_lt hlen
  refine ⟨List.replicate n nul, ?_⟩
  rw [cmdBuffer, show cmdbufsz - line.length = n + 1 by omega, List.replicate_succ]

/-- The pass of a statement. -/
def Stmt.pass (stmt : Stmt) (w : World) (s : Shell) : Pass :=
  let s := w.reap s
  if w.sigquit then ⟨[], none, .exits 0⟩ else commandPass stmt.command w s

/-- A command line does what its words say: whatever blanks are in it, however its names are
abbreviated and its numbers written, the pass of the line is the one of the statement, with
its calls, its messages, its ending and the state it leaves. -/
theorem batchPass_spelled {stmt : Stmt} {line : CStr} {w : World} {s : Shell}
    (h : stmt.SpelledBy line) (hnul : nul ∉ line) (hlen : line.length < cmdbufsz)
    (hfits : stmt.Fits s.table.g.pagesize s.numaMaxNode) :
    batchPass w line s = stmt.pass w s := by
  rcases h with ⟨cmd, words, htokens, hcalls, hwords⟩
  have htext : Spaced whitespace (lineText line) (tokens whitespace line) :=
    lineText_spaced (by simp [htokens])
  rw [htokens] at htext
  -- the first letter is one of the command's name
  rcases htext.head with ⟨hhead, hne, -⟩
  have hletter : (lineText line).head? = stmt.entry.1.head? :=
    hhead.trans (Begins.head ⟨hne, hcalls.1⟩)
  obtain ⟨-, hcomment, hchild⟩ := cmdTable_names _ stmt.entry_mem
  rw [← hletter] at hcomment hchild
  have hline : fromText line ≠ [] := by
    intro hnil
    exact htext.ne_nil (by rw [lineText, hnil]; rfl)
  have hnul' : nul ∉ lineText line := by
    obtain ⟨pre, post, hsplit, -⟩ := line_split hline
    intro hmem
    rw [hsplit] at hnul
    exact hnul (List.mem_append_right _ (List.mem_append_left _ hmem))
  obtain ⟨beyond, hbuf⟩ := cmdBuffer_eq hlen
  rw [batchPass, hbuf, processLine_text _ hnul hline hcomment hchild, Stmt.pass]
  simp only [commandPass, parseCommand_spelled hcalls hwords
    (show stmt.Fits (w.reap s).table.g.pagesize (w.reap s).numaMaxNode from hfits) htext hnul']

/-- A shared segment at a fixed address, with blanks in odd places. -/
def sampleStmt : Stmt := .anon "a".toList ⟨16, .kilo⟩ [.sharing .shared, .addr 0x10000]

theorem sampleStmt_spelled : sampleStmt.SpelledBy " an a\t0x10K  Sh AD=10000 ".toList := by
  refine ⟨"an".toList, ["a".toList, "0x10K".toList, "Sh".toList, "AD=10000".toList], by decide,
    ⟨by decide, by decide⟩, _, _, ⟨"0x10".toList, ['K'], rfl, ?_, .inr rfl⟩,
    .cons ⟨by decide, by decide⟩ (.cons ⟨"AD".toList, "10000".toList, rfl,
      ⟨by decide, by decide⟩, ?_⟩ .nil), rfl⟩
  · exact .hex (.inl rfl) (.inl rfl) (by decide) (forall_mem_of_all rfl)
  · exact .digits (by decide) (forall_mem_of_all rfl)

theorem sampleStmt_fits (numaMaxNode : Int) : sampleStmt.Fits 0x1000#64 numaMaxNode :=
  ⟨show 16 * 0x400 < 2 ^ 64 - 1 by decide, by
    intro option hoption
    rcases List.mem_cons.mp hoption with rfl | hoption
    · trivial
    · rw [List.mem_singleton.mp hoption]
      exact show 0x10000 < 2 ^ 63 by decide⟩

end Memtoy
