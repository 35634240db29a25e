import Memtoy.Command.Adjacent
import Memtoy.Command.Inventory
import Memtoy.Command.Script

/-!
# Command.Forecast — how far a script gets

`forecast` runs a script over an inventory, without memory and without a kernel.
`forecast_exact` says that memtoy gets as far as that: under a kernel that grants every
request but the empty ones, and without a signal, a script is run to its end if the forecast
accepts it, and stops where and as the forecast does otherwise.
-/

namespace Memtoy

open CString Cmd Relation

/-! ## Statements over an inventory -/

namespace Inventory

/-- The offset of an `anon`, behind its options. Nothing is returned if a segment to be placed
behind is not there. -/
def placed (inv : Inventory) : List AnonOption → Word → Except Halt Word
  | [], offset => .ok offset
  | .sharing _ :: options, offset => inv.placed options offset
  | .addr start :: options, _ => inv.placed options (BitVec.ofNat 64 start)
  | .offset segname :: options, _ =>
      match inv.find segname with
      | none => .error .astray
      | some st => inv.placed options (st.offset + st.length)

/-- Segments are removed one after the other, up to the first that is not there. -/
def removeEach (inv : Inventory) : List CStr → Except Halt Inventory
  | [] => .ok inv
  | segname :: segnames => do
      let inv ← inv.remove segname
      inv.removeEach segnames

end Inventory

/-- What a statement makes of an inventory; files are `size` bytes long. -/
def Stmt.forecast (size : Word) (inv : Inventory) : Stmt → Except Halt Inventory
  | .quit => .error .quits
  | .show none => .ok inv
  | .show (some segname) => do
      let _ ← inv.get segname
      .ok inv
  | .anon segname amount options => do
      let offset ← inv.placed options 0
      inv.register .segtAnon (basename segname) ⟨offset, amount.value inv.pagesize, 0⟩ false
  | .file pathname extent _ =>
      inv.register .segtFile (basename pathname) (extent.range inv.pagesize) false
  | .shmem segname amount huge =>
      inv.register .segtShm (basename segname) ⟨0, amount.value inv.pagesize, 0⟩ huge
  | .remove segname segnames => inv.removeEach (segname :: segnames)
  | .map segname extent _ =>
      inv.map size segname (if extent = .whole then none else some (extent.range inv.pagesize))
  | .unmap segname => inv.unmap segname
  | .lock segname extent | .unlock segname extent =>
      inv.lockUnlock segname (extent.range inv.pagesize).offset
  | .shmLock segname | .shmUnlock segname => inv.shmLockUnlock segname
  | .touch segname extent write =>
      inv.touch segname (extent.range inv.pagesize).offset (write.getD false)
  | .mbind segname extent _ _ _ => inv.mbind segname (extent.range inv.pagesize).offset
  | .location segname extent => inv.location segname (extent.range inv.pagesize).offset
  | .mprotect _ _ => .ok inv

def ScriptLine.forecast (size : Word) (inv : Inventory) : ScriptLine → Except Halt Inventory
  | .ignored => .ok inv
  | .does stmt => stmt.forecast size inv

/-- What a script makes of an inventory, or how it ends before its last line. -/
def forecast (size : Word) : List ScriptLine → Inventory → Except Halt Inventory
  | [], inv => .ok inv
  | l :: script, inv => do
      let inv ← l.forecast size inv
      forecast size script inv

theorem forecast_append (size : Word) (script script' : List ScriptLine) :
    ∀ inv, forecast size (script ++ script') inv =
      forecast size script inv >>= forecast size script' := by
  induction script with
  | nil => exact fun _ => rfl
  | cons l script ih =>
      intro inv
      simp only [List.cons_append, forecast, bind_assoc, ih]

/-! ## Forecast and handler -/

def Shell.inventory (s : Shell) : Inventory := s.table.g.inventory

/-- How a handler ends that does not go on. -/
def Halt.Stops : Halt → Ending → Prop
  | .refused, e => e = .ret .error
  | .quits, e => e = .exit 0
  | .astray, e => e = .garbage ∨ e = .crash ∨ e = .hangs

section Handlers

variable {α β α' β' : Type} {w : World} {s : Shell}

/-- `m` goes on if `r` has a value, in a state that has `Q`, and stops as `r` says if it has
none. -/
def Follows (m : Cmd α) (w : World) (s : Shell) (r : Except Halt β) (Q : β → α → Shell → Prop) :
    Prop :=
  Yields m w s fun
    | .next a, s' => ∃ b, r = .ok b ∧ Q b a s'
    | .stop e, _ => ∃ h, r = .error h ∧ h.Stops e

theorem Follows.bind {m : Cmd α} {f : α → Cmd α'} {r : Except Halt β} {g : β → Except Halt β'}
    {Q : β → α → Shell → Prop} {Q' : β' → α' → Shell → Prop} (hm : Follows m w s r Q)
    (hf : ∀ b a s', Q b a s' → Follows (f a) w s' (g b) Q') :
    Follows (m >>= f) w s (r >>= g) Q' := by
  unfold Follows at hm ⊢
  rw [yields_bind]
  unfold Yields at hm ⊢
  cases hflow : (m w s).flow with
  | next a =>
      rw [hflow] at hm
      rcases hm with ⟨b, rfl, hQ⟩
      exact hf b a _ hQ
  | stop e =>
      rw [hflow] at hm
      rcases hm with ⟨h, rfl, hstops⟩
      exact ⟨h, rfl, hstops⟩

/-- The inventory of the shell is the one that was foreseen. -/
def Leaves (inv : Inventory) (_ : α) (s : Shell) : Prop := s.inventory = inv

theorem follows_next {a : α} {b : β} {Q : β → α → Shell → Prop} (h : Q b a s) :
    Follows (next a) w s (.ok b) Q := ⟨b, rfl, h⟩

theorem follows_world {f : World → Cmd α} {r : Except Halt β} {Q : β → α → Shell → Prop} :
    Follows (world >>= f) w s r Q ↔ Follows (f w) w s r Q := by
  unfold Follows
  rw [yields_bind, yields_world]
  exact Iff.rfl

theorem follows_shell {f : Shell → Cmd α} {r : Except Halt β} {Q : β → α → Shell → Prop} :
    Follows (shell >>= f) w s r Q ↔ Follows (f s) w s r Q := by
  unfold Follows
  rw [yields_bind, yields_shell]
  exact Iff.rfl

theorem follows_setShell {s' : Shell} {f : Unit → Cmd α} {r : Except Halt β}
    {Q : β → α → Shell → Prop} :
    Follows (setShell s' >>= f) w s r Q ↔ Follows (f ()) w s' r Q := by
  unfold Follows
  rw [yields_bind, yields_setShell]
  exact Iff.rfl

/-- A call that comes to `r`. -/
theorem follows_segment {op : Op} {hok : op.Ok} {r : Except Halt Inventory}
    (h : op.Meets s.table.g r) : Follows (segment op hok) w s r Leaves := by
  have hcall : Yields (segment op hok) w s fun
      | .next _, s' => op.answer s.table.g = .ok ∧ s'.inventory = (op.exec s.table.g).inventory
      | .stop e, _ => op.answer s.table.g = .err ∧ e = .ret .error ∨
          ¬ (op.answer s.table.g).Returns ∧ (e = .crash ∨ e = .hangs) := by
    rw [Cmd.segment, yields_bind, yields_callSegment]
    refine ⟨fun hans => ⟨hans, rfl⟩, fun hans => .inl ⟨hans, rfl⟩, fun hans => ?_, fun hans => ?_⟩
    · exact .inr ⟨by simp [hans, SegAnswer.Returns], .inl rfl⟩
    · exact .inr ⟨by simp [hans, SegAnswer.Returns], .inr rfl⟩
  unfold Follows Yields at *
  cases hflow : (segment op hok w s).flow with
  | next u =>
      rw [hflow] at hcall
      rcases r with (_ | _ | _) | inv
      · exact absurd (hcall.1.symm.trans h) (by simp)
      · exact h.elim
      · exact absurd (.inl hcall.1) h
      · exact ⟨inv, rfl, hcall.2.trans h.2⟩
  | stop e =>
      rw [hflow] at hcall
      rcases r with (_ | _ | _) | inv
      · rcases hcall with ⟨-, he⟩ | ⟨hnot, -⟩
        · exact ⟨_, rfl, he⟩
        · exact absurd (.inr h) hnot
      · exact h.elim
      · rcases hcall with ⟨herr, -⟩ | ⟨-, he⟩
        · exact absurd (.inr herr) h
        · exact ⟨_, rfl, .inr he⟩
      · rcases hcall with ⟨herr, -⟩ | ⟨hnot, -⟩
        · exact absurd (herr.symm.trans h.1) (by simp)
        · exact absurd (.inl h.1) hnot

theorem follows_removeEach : ∀ (segnames : List CStr) (s : Shell),
    Follows (removeEach segnames) w s (s.inventory.removeEach segnames) Leaves
  | [], s => follows_next rfl
  | segname :: segnames, s => by
      refine (follows_segment (meets_remove (reachable_repInv s.table.reachable) segname)).bind ?_
      rintro inv - s' rfl
      exact follows_removeEach segnames s'

theorem exec_get_inventory (s : Shell) (segname : CStr) :
    Shell.inventory { s with table := s.table.exec (.get segname) (Op.ok_get segname) } =
      s.inventory :=
  inventory_reads (Op.ok_get segname) (reachable_repInv s.table.reachable) rfl

/-- The options of `anon` place the segment where the inventory says. -/
theorem follows_placeAnon : ∀ (options : List AnonOption) (range : Range) (flags : SegFlags)
    (s : Shell), Follows (placeAnon options range flags) w s
      (s.inventory.placed options range.offset) fun offset r s' =>
        r.1 = { range with offset } ∧ s'.inventory = s.inventory
  | [], _, _, _ => follows_next ⟨rfl, rfl⟩
  | .sharing how :: options, range, _, s => follows_placeAnon options range how.flags s
  | .addr start :: options, range, flags, s =>
      follows_placeAnon options { range with offset := BitVec.ofNat 64 start } flags s
  | .offset segname :: options, range, flags, s => by
      have hrep := reachable_repInv s.table.reachable
      have hinv := exec_get_inventory s segname
      unfold placeAnon Inventory.placed Follows
      rw [yields_bind, yields_callSegmentRange]
      rcases lookup_cases hrep segname with ⟨hfree, -⟩ | ⟨segp, -, hlive, hname, -⟩
      · rw [(segmentRange_none hrep segname).mpr hfree]
        simp only [Shell.inventory, inventory_find_none hrep hfree]
        exact ⟨.astray, rfl, .inl rfl⟩
      · have hrange := (segmentRange_some hrep).mpr
          ((named_iff hrep hlive hname).mpr (rfl : _ = Range.mk _ _ 0))
        have hrest := follows_placeAnon options { range with offset :=
          (s.table.g.heap segp).segOffset + (s.table.g.heap segp).segLength } flags
          { s with table := s.table.exec (.get segname) (Op.ok_get segname) }
        rw [hinv] at hrest
        rw [hrange]
        simp only [Shell.inventory, inventory_find_some hrep hlive hname]
        exact hrest

/-- A registration that comes to what the inventory says. -/
theorem follows_register {size : Word} (hk : w.kernel.Grants size) {type : SegType}
    (htype : type ≠ .segtNone) {name : CStr} {range : Range} {flags : SegFlags} {huge : Bool}
    (hhuge : type = .segtShm → wantsHuge flags.1 = huge) {inv : Inventory}
    (hinv : s.inventory = inv) :
    Follows (segment (.register w.kernel type name range flags.1)
      (Op.ok_register _ _ _ _ htype flags.2)) w s
        (inv.register type (basename name) range huge) Leaves := by
  subst hinv
  have hmeets := meets_register (reachable_repInv s.table.reachable) hk htype name range flags.2
  refine follows_segment ?_
  by_cases hshm : type = .segtShm
  · rw [← hhuge hshm]
    exact hmeets
  · rw [s.inventory.register_of_not_shm hshm _ _ huge (wantsHuge flags.1)]
    exact hmeets

/-- Each statement comes to what was foreseen. -/
theorem follows_perform {size : Word} (hk : w.kernel.Grants size) (stmt : Stmt) (s : Shell) :
    Follows stmt.perform w s (stmt.forecast size s.inventory) Leaves := by
  have hreach := s.table.reachable
  have hrep := reachable_repInv hreach
  cases stmt with
  | quit => exact ⟨.quits, rfl, rfl⟩
  | «show» name =>
      cases name with
      | none => exact follows_next rfl
      | some segname => exact follows_segment (meets_get hrep segname)
  | anon segname amount options =>
      rw [Stmt.perform, follows_shell, follows_world]
      refine (follows_placeAnon options ⟨0, amount.value s.table.g.pagesize, 0⟩ flagsPrivate
        s).bind ?_
      rintro offset ⟨range, flags⟩ s' ⟨rfl, hinv⟩
      exact follows_register hk (by decide) (fun hshm => by cases hshm) hinv
  | file pathname extent sharing =>
      rw [Stmt.perform, follows_shell, follows_world]
      exact follows_register hk (by decide) (fun hshm => by cases hshm) rfl
  | shmem segname amount huge =>
      rw [Stmt.perform, follows_shell, follows_world]
      refine follows_register hk (by decide) (fun _ => ?_) rfl
      cases huge with
      | true => decide
      | false => decide
  | remove segname segnames => exact follows_removeEach (segname :: segnames) s
  | map segname extent sharing =>
      rw [Stmt.perform, follows_shell, follows_world]
      exact follows_segment (meets_map hreach hk segname _ 
        ((sharing.map Sharing.flags).getD flagsNone).2)
  | unmap segname => exact follows_segment (meets_unmap hrep segname)
  | lock segname extent =>
      rw [Stmt.perform, follows_shell, follows_world]
      exact follows_segment (meets_lockUnlock hreach hk segname _ true)
  | unlock segname extent =>
      rw [Stmt.perform, follows_shell, follows_world]
      exact follows_segment (meets_lockUnlock hreach hk segname _ false)
  | shmLock segname =>
      rw [Stmt.perform, follows_world]
      exact follows_segment (meets_shmLockUnlock hreach hk segname _ true)
  | shmUnlock segname =>
      rw [Stmt.perform, follows_world]
      exact follows_segment (meets_shmLockUnlock hreach hk segname _ false)
  | touch segname extent write =>
      rw [Stmt.perform, follows_shell, follows_world]
      exact follows_segment (meets_touch hreach segname _ w.pageEvent (write.getD false))
  | mbind segname extent policy flags nodes =>
      rw [Stmt.perform, follows_shell, follows_world]
      exact follows_segment (meets_mbind hreach hk segname _ _ _ _)
  | location segname extent =>
      rw [Stmt.perform, follows_shell, follows_world]
      refine follows_segment ?_
      have hmeets := meets_location hreach hk segname
        (if extent = .whole then { extent.range s.table.g.pagesize with length := defaultLength }
          else extent.range s.table.g.pagesize) w.signalAfter
      have hoffset : (if extent = .whole then
          { extent.range s.table.g.pagesize with length := defaultLength }
            else extent.range s.table.g.pagesize).offset =
              (extent.range s.table.g.pagesize).offset := by
        split <;> rfl
      rw [hoffset] at hmeets
      exact hmeets
  | mprotect segname prot =>
      -- what the kernel answers is not looked at
      have hinv := mprotect_inventory w.kernel hrep segname (protFlags prot)
      have hreturns := (Op.mprotect w.kernel segname (protFlags prot)).returns not_false s.table.g
      rw [Stmt.perform, follows_world]
      unfold Follows
      rw [yields_bind, yields_callSegment]
      refine ⟨fun _ => ⟨_, rfl, hinv⟩, fun _ => ⟨_, rfl, hinv⟩, fun hans => ?_, fun hans => ?_⟩
      · rw [hans] at hreturns
        exact absurd hreturns (by simp [SegAnswer.Returns])
      · rw [hans] at hreturns
        exact absurd hreturns (by simp [SegAnswer.Returns])

end Handlers

/-! ## Forecast and run -/

/-- How memtoy ends when it does not go on. -/
def Halt.Ends : Halt → After → Prop
  | .refused, after => after = .exits 4
  | .quits, after => after = .exits 0
  | .astray, after => after = .unspecified ∨ after = .killed ∨ after = .never

/-- The next line is read in a state with the foreseen inventory, or there is the foreseen
end. -/
def Foretold : Except Halt Inventory → After → Prop
  | .ok inv, after => ∃ s, after = .reads s ∧ s.inventory = inv
  | .error h, after => h.Ends after

/-- The same of a run that is over. -/
def ForetoldEnd : Except Halt Inventory → After → Prop
  | .ok _, after => after = .exits 0
  | .error h, after => h.Ends after

/-- A world that grants what it is asked for, without a signal to stop. -/
structure World.Grants (w : World) (size : Word) : Prop where
  kernel : w.kernel.Grants size
  sigquit : w.sigquit = false

section Run

variable {size : Word} {w : World} {s : Shell}

theorem Halt.Stops.ends {h : Halt} {e : Ending} (he : h.Stops e) (s : Shell) :
    h.Ends (e.after s) := by
  cases h with
  | refused =>
      cases he
      rfl
  | quits =>
      cases he
      rfl
  | astray =>
      rcases he with rfl | rfl | rfl
      · exact .inl rfl
      · exact .inr (.inl rfl)
      · exact .inr (.inr rfl)

theorem Halt.Ends.ne_reads {h : Halt} {after : After} (he : h.Ends after) (s : Shell) :
    after ≠ .reads s := by
  rintro rfl
  cases h with
  | refused => cases he
  | quits => cases he
  | astray => rcases he with he | he | he <;> cases he

theorem follows_command (hk : w.kernel.Grants size) (stmt : Stmt) (s : Shell) :
    Follows stmt.command w s (stmt.forecast size s.inventory) Leaves := by
  rw [Stmt.command, follows_shell, follows_setShell,
    ← bind_pure (stmt.forecast size s.inventory)]
  refine (follows_perform hk stmt { s with cmdName := stmt.entry.1 }).bind ?_
  rintro inv - s' rfl
  rw [follows_shell]
  exact ⟨_, rfl, rfl⟩

/-- A pass comes to what was foreseen of its line. -/
theorem foretold_pass (hw : w.Grants size) (l : ScriptLine) (s : Shell) :
    Foretold (l.forecast size s.inventory) (l.pass w s).after := by
  cases l with
  | ignored => exact ⟨_, rfl, rfl⟩
  | does stmt =>
      have hfollows := follows_command hw.kernel stmt (w.reap s)
      unfold Follows Yields at hfollows
      simp only [ScriptLine.pass, Stmt.pass, hw.sigquit, commandPass, ScriptLine.forecast]
      rcases hm : stmt.command w (w.reap s) with ⟨a | e, s', cs⟩
      · rw [hm] at hfollows
        rcases hfollows with ⟨inv, hinv, hleaves⟩
        rw [show stmt.forecast size s.inventory = .ok inv from hinv]
        exact ⟨s', rfl, hleaves⟩
      · rw [hm] at hfollows
        rcases hfollows with ⟨h, hhalt, hstops⟩
        rw [show stmt.forecast size s.inventory = .error h from hhalt]
        exact hstops.ends s'

/-- Lines read one after the other come to what was foreseen of them. -/
theorem foretold_runScript : ∀ (lines : List (World × ScriptLine)) (s : Shell),
    (∀ l ∈ lines, l.1.Grants size) →
      Foretold (forecast size (lines.map Prod.snd) s.inventory) (runScript lines s) := by
  intro lines
  induction lines with
  | nil => exact fun s _ => ⟨s, rfl, rfl⟩
  | cons first lines ih =>
      rcases first with ⟨w, l⟩
      intro s hgrants
      have hpass := foretold_pass (hgrants (w, l) List.mem_cons_self) l s
      simp only [List.map_cons, forecast, runScript]
      cases hl : l.forecast size s.inventory with
      | ok inv =>
          rw [hl] at hpass
          rcases hpass with ⟨s', hreads, rfl⟩
          simp only [hreads]
          exact ih s' fun l' hl' => hgrants l' (List.mem_cons_of_mem _ hl')
      | error h =>
          rw [hl] at hpass
          -- the halt is the last line read
          cases hafter : (l.pass w s).after with
          | reads s' => exact absurd hafter (hpass.ne_reads s')
          | exits | unspecified | killed | never =>
              rw [hafter] at hpass
              exact hpass

section Script

variable {lines rest : List CStr} {script done todo : List ScriptLine} {b : Batch}

/-- Halfway through a script. -/
theorem ScriptAt.foretold (h : ScriptAt lines script s b done todo rest)
    (hgrants : ∀ v ∈ b.visits, v.w.Grants size) :
    (∃ s', b.next = .reads s' ∧
      forecast size (script.take b.visits.length) s.inventory = .ok s'.inventory) ∨
    ForetoldEnd (forecast size script s.inventory) b.next := by
  have hlen : (b.visits.map Visit.w).length = done.length := by
    rw [List.length_map]
    exact h.passes.length_eq
  have htake : script.take b.visits.length = done := by
    rw [h.script_eq, h.passes.length_eq, List.take_left]
  have hrun := foretold_runScript ((b.visits.map Visit.w).zip done) s (by
    rintro ⟨w, l⟩ hmem
    rcases List.mem_map.mp (List.of_mem_zip hmem).1 with ⟨v, hv, rfl⟩
    exact hgrants v hv)
  rw [List.map_snd_zip (Nat.le_of_eq hlen.symm)] at hrun
  have hscript : forecast size script s.inventory =
      forecast size done s.inventory >>= forecast size todo := by
    rw [h.script_eq, forecast_append]
  rw [htake, hscript]
  cases hdone : forecast size done s.inventory with
  | ok inv =>
      rw [hdone] at hrun
      rcases hrun with ⟨s', hreads, rfl⟩
      rcases h.next_eq with hnext | ⟨hrest, -, hexits⟩
      · exact .inl ⟨s', hnext.trans hreads, rfl⟩
      · -- the end of the file is the end of the script
        have hspelled := h.todo_spelled
        rw [hrest, List.forall₂_nil_right_iff] at hspelled
        rw [hspelled]
        exact .inr hexits
  | error halt =>
      rw [hdone] at hrun
      rcases h.next_eq with hnext | ⟨-, ⟨s', hreads⟩, -⟩
      · rw [hnext]
        exact .inr hrun
      · exact absurd hreads (hrun.ne_reads s')

theorem sampleWorld_grants : sampleWorld.Grants 0x2000#64 where
  sigquit := rfl
  kernel :=
    { stat := fun _ => rfl
      access := fun _ => ⟨.rdwr, rfl⟩
      openFile := fun _ _ => show (0 : Int) ≤ 3 by decide
      fstat := fun _ => rfl
      shmget := fun length flags => by
        show (if length = 0 then shmIdNone else 7) = shmIdNone ↔ length = 0
        by_cases hzero : length = 0
        · simp [hzero]
        · simp only [hzero, if_false, iff_false]
          decide
      shmat := fun _ => show 0x7f0000000000#64 ≠ mapFailed by decide
      shmLock := fun _ _ => rfl
      mmap := fun addr length _ _ _ _ haddr => by
        show (if length = 0 then mapFailed else if addr = 0 then 0x7f0000000000#64 else addr) =
          mapFailed ↔ length = 0
        by_cases hzero : length = 0
        · simp [hzero]
        · by_cases hnull : addr = 0
          · simp only [hzero, hnull, if_false, if_true, iff_false]
            decide
          · simp only [hzero, hnull, if_false, iff_false]
            exact haddr
      mbind := fun _ _ _ _ _ => rfl
      getNode := fun _ => Int.le_refl 0
      mlock := fun _ _ _ => rfl }

end Script

end Run

end Memtoy
