import Memtoy.Child.Prepare
import Memtoy.Command.Ids
import Memtoy.Command.Policies
import Memtoy.Command.Sizes
import Memtoy.Lib.Phrase

/-!
# Command.Language — the statements of a script

The segment commands as a small language: statements (`Stmt`), what they do (`perform`), and
the words that spell them (`Spells`). The meaning has no text in it: a statement is a few
calls of the segment API. `batchPass_spelled` says that `parse_command` and the handlers do
what a line means, whatever its blanks, its abbreviations and the way its numbers are written.
-/

namespace Memtoy

open CString Cmd

/-! ## Statements -/

inductive SizeUnit where
  | bytes | kilo | mega | giga | pages
deriving DecidableEq, Repr

structure Amount where
  count : Nat
  unit : SizeUnit
deriving DecidableEq, Repr

/-- All of a segment, or what is behind an offset, of some length or up to the end. -/
inductive Extent where
  | whole
  | part (offset : Amount) (length : Option Amount)
deriving DecidableEq, Repr

inductive Sharing where
  | shared
  | notShared
deriving DecidableEq, Repr

/-- An option of `anon`; `offset` places it behind another segment. -/
inductive AnonOption where
  | sharing (how : Sharing)
  | addr (start : Nat)
  | offset (segname : CStr)
deriving DecidableEq, Repr

inductive ProtWord where
  | none | read | write | exec
deriving DecidableEq, Repr

inductive PolicyName where
  | default | preferred | bind | interleaved | noop
deriving DecidableEq, Repr

inductive MoveFlags where
  | stay | move | moveAll
deriving DecidableEq, Repr

/-- The nodes of a policy; `all` is the `*`. -/
inductive NodeSet where
  | absent
  | all
  | ids (nodes : List Nat)
deriving DecidableEq, Repr

inductive Stmt where
  | quit
  | show (segname : Option CStr)
  | anon (segname : CStr) (size : Amount) (options : List AnonOption)
  | file (pathname : CStr) (extent : Extent) (sharing : Option Sharing)
  | shmem (segname : CStr) (size : Amount) (huge : Bool)
  | remove (segname : CStr) (segnames : List CStr)
  | map (segname : CStr) (extent : Extent) (sharing : Option Sharing)
  | unmap (segname : CStr)
  | lock (segname : CStr) (extent : Extent)
  | unlock (segname : CStr) (extent : Extent)
  | shmLock (segname : CStr)
  | shmUnlock (segname : CStr)
  | touch (segname : CStr) (extent : Extent) (write : Option Bool)
  | mbind (segname : CStr) (extent : Extent) (policy : PolicyName) (flags : MoveFlags)
      (nodes : NodeSet)
  | location (segname : CStr) (extent : Extent)
  | mprotect (segname : CStr) (prot : List ProtWord)
deriving DecidableEq, Repr

/-! ## Values -/

def SizeUnit.scale (pagesize : Word) : SizeUnit → Word
  | .bytes => 1#64
  | .kilo => 0x400#64
  | .mega => 0x100000#64
  | .giga => 0x40000000#64
  | .pages => pagesize

/-- The number of bytes. -/
def Amount.bytes (pagesize : Word) (amount : Amount) : Nat :=
  amount.count * (amount.unit.scale pagesize).toNat

def Amount.value (pagesize : Word) (amount : Amount) : Word :=
  BitVec.ofNat 64 (amount.bytes pagesize)

/-- A zero length is for up to the end. -/
def Extent.range (pagesize : Word) : Extent → Range
  | .whole => ⟨0, 0, 0⟩
  | .part offset length => ⟨offset.value pagesize, (length.map (·.value pagesize)).getD 0, 0⟩

def Sharing.flags : Sharing → SegFlags
  | .shared => flagsShared
  | .notShared => flagsPrivate

def ProtWord.flag : ProtWord → Flags
  | .none => 0
  | .read => protRead
  | .write => protWrite
  | .exec => protExec

/-- `none` anywhere takes all of it away. -/
def protFlags (prot : List ProtWord) : Flags :=
  if .none ∈ prot then 0 else prot.foldl (fun flags word => flags ||| word.flag) 0

def PolicyName.entry : PolicyName → CStr × Int
  | .default => ("default".toList, mpolDefault)
  | .preferred => ("preferred".toList, mpolPreferred)
  | .bind => ("bind".toList, mpolBind)
  | .interleaved => ("interleaved".toList, mpolInterleave)
  | .noop => ("noop".toList, mpolNoop)

def MoveFlags.flags : MoveFlags → Flags
  | .stay => 0
  | .move => mpolMfMove
  | .moveAll => mpolMfMoveAll

/-- The mask of the system call, `none` for NULL. -/
def NodeSet.mask : NodeSet → Option Nat
  | .absent | .all => none
  | .ids nodes => some (nodeBits (nodes.map Int.ofNat))

/-- The entry of `cmd_table` for a statement. -/
def Stmt.entry : Stmt → CStr × CmdFunc
  | .quit => ("quit".toList, .quit)
  | .show _ => ("show".toList, .showSeg)
  | .anon .. => ("anon".toList, .anonSeg)
  | .file .. => ("file".toList, .fileSeg)
  | .shmem .. => ("shmem".toList, .shmemSeg)
  | .remove .. => ("remove".toList, .removeSeg)
  | .map .. => ("map".toList, .mapSeg)
  | .unmap _ => ("unmap".toList, .unmapSeg)
  | .lock .. => ("lock".toList, .lockSeg)
  | .unlock .. => ("unlock".toList, .unlockSeg)
  | .shmLock _ => ("slock".toList, .shmLockSeg)
  | .shmUnlock _ => ("sunlock".toList, .shmUnlockSeg)
  | .touch .. => ("touch".toList, .touchSeg)
  | .mbind .. => ("mbind".toList, .mbindSeg)
  | .location .. => ("where".toList, .whereSeg)
  | .mprotect .. => ("mprotect".toList, .mprotectSeg)

/-! ## What a statement does -/

/-- Options take effect from left to right. -/
def placeAnon : List AnonOption → Range → SegFlags → Cmd (Range × SegFlags)
  | [], range, flags => next (range, flags)
  | .sharing how :: options, range, _ => placeAnon options range how.flags
  | .addr start :: options, range, flags =>
      placeAnon options { range with offset := BitVec.ofNat 64 start } flags
  | .offset segname :: options, range, flags => do
      match ← callSegmentRange segname with
      | none =>
          complain [.offsetSegment]
          stop .garbage
      | some before =>
          placeAnon options { range with offset := before.offset + before.length } flags

/-- Segments are removed one after the other, up to the first that is not there. -/
def removeEach : List CStr → Cmd Unit
  | [] => next ()
  | segname :: segnames => do
      segment (.remove segname) (Op.ok_remove segname)
      removeEach segnames

def Stmt.perform : Stmt → Cmd Unit
  | .quit => stop (.exit 0)
  | .show none => next ()
  | .show (some segname) => segment (.get segname) (Op.ok_get segname)
  | .anon segname size options => do
      let s ← shell
      let w ← world
      let (range, flags) ←
        placeAnon options ⟨0, size.value s.table.g.pagesize, 0⟩ flagsPrivate
      segment (.register w.kernel .segtAnon segname range flags.1)
        (Op.ok_register _ _ _ _ (by decide) flags.2)
  | .file pathname extent sharing => do
      let s ← shell
      let w ← world
      let flags := (sharing.map Sharing.flags).getD flagsPrivate
      segment (.register w.kernel .segtFile pathname (extent.range s.table.g.pagesize) flags.1)
        (Op.ok_register _ _ _ _ (by decide) flags.2)
  | .shmem segname size huge => do
      let s ← shell
      let w ← world
      let flags := if huge then flagsHuge else flagsShared
      segment (.register w.kernel .segtShm segname ⟨0, size.value s.table.g.pagesize, 0⟩ flags.1)
        (Op.ok_register _ _ _ _ (by decide) flags.2)
  | .remove segname segnames => removeEach (segname :: segnames)
  | .map segname extent sharing => do
      let s ← shell
      let w ← world
      let rangep := if extent = .whole then none else some (extent.range s.table.g.pagesize)
      let flags := (sharing.map Sharing.flags).getD flagsNone
      segment (.map w.kernel segname rangep flags.1) (Op.ok_map _ _ _ _ flags.2)
  | .unmap segname => segment (.unmap segname) (Op.ok_unmap segname)
  | .lock segname extent => do
      let s ← shell
      let w ← world
      segment (.lockUnlock w.kernel segname (extent.range s.table.g.pagesize) true false)
        (Op.ok_lockUnlock _ _ _ _ _)
  | .unlock segname extent => do
      let s ← shell
      let w ← world
      segment (.lockUnlock w.kernel segname (extent.range s.table.g.pagesize) false false)
        (Op.ok_lockUnlock _ _ _ _ _)
  | .shmLock segname => do
      let w ← world
      segment (.lockUnlock w.kernel segname ⟨0, 0, 0⟩ true true) (Op.ok_lockUnlock _ _ _ _ _)
  | .shmUnlock segname => do
      let w ← world
      segment (.lockUnlock w.kernel segname ⟨0, 0, 0⟩ false true) (Op.ok_lockUnlock _ _ _ _ _)
  | .touch segname extent write => do
      let s ← shell
      let w ← world
      segment (.touch w.pageEvent loopFuel segname (extent.range s.table.g.pagesize)
        (write.getD false)) (Op.ok_touch _ _ _ _ _)
  | .mbind segname extent policy flags nodes => do
      let s ← shell
      let w ← world
      segment (.mbind w.kernel segname (extent.range s.table.g.pagesize) policy.entry.2
        nodes.mask flags.flags) (Op.ok_mbind _ _ _ _ _ _)
  | .location segname extent => do
      let s ← shell
      let w ← world
      let range := extent.range s.table.g.pagesize
      let range := if extent = .whole then { range with length := defaultLength } else range
      segment (.location w.kernel w.signalAfter loopFuel segname range) (Op.ok_location _ _ _ _ _)
  | .mprotect segname prot => do
      let w ← world
      let _ ← callSegment (.mprotect w.kernel segname (protFlags prot)) (Op.ok_mprotect _ _ _)

/-! ## Words -/

def SizeUnit.Spells : SizeUnit → CStr → Prop
  | .bytes, suf => suf = []
  | .kilo, suf => suf = ['k'] ∨ suf = ['K']
  | .mega, suf => suf = ['m'] ∨ suf = ['M']
  | .giga, suf => suf = ['g'] ∨ suf = ['G']
  | .pages, suf => suf = ['p'] ∨ suf = ['P']

/-- A number without a sign, in any base `strtoul` knows, and a scale letter. -/
def Amount.Spells (amount : Amount) (word : CStr) : Prop :=
  ∃ num suf, word = num ++ suf ∧ Numeral 0 num amount.count ∧ amount.unit.Spells suf

def Extent.Spells : Extent → List CStr → Prop
  | .whole, words => words = []
  | .part offset none, words => ∃ word, offset.Spells word ∧ words = [word, ['*']]
  | .part offset (some length), words =>
      ∃ word word', offset.Spells word ∧ length.Spells word' ∧ words = [word, word']

/-- An abbreviation in letters of either case. -/
def Shortens (word full : CStr) : Prop := word ≠ [] ∧ abbreviates word full = true

def Sharing.word : Sharing → CStr
  | .shared => wordShared
  | .notShared => wordPrivate

/-- At most one word, for what may be left out. -/
def Optionally {α : Type} (spells : α → CStr → Prop) : Option α → List CStr → Prop
  | none, words => words = []
  | some a, words => ∃ word, spells a word ∧ words = [word]

def Sharing.Spells (how : Sharing) (word : CStr) : Prop := Shortens word how.word

def AnonOption.Spells : AnonOption → CStr → Prop
  | .sharing how, word => how.Spells word
  | .addr start, word =>
      ∃ name num, word = name ++ '=' :: num ∧ Shortens name "addr".toList ∧ Numeral 16 num start
  | .offset segname, word =>
      ∃ name, word = name ++ '=' :: segname ∧ Shortens name "offset".toList

def ProtWord.word : ProtWord → CStr
  | .none => "none".toList
  | .read => "read".toList
  | .write => "write".toList
  | .exec => "exec".toList

def ProtWord.Spells (prot : ProtWord) (word : CStr) : Prop := Shortens word prot.word

def accessWord (write : Bool) : CStr := if write then "write".toList else "read".toList

def accessSpells (write : Bool) (word : CStr) : Prop := Shortens word (accessWord write)

/-- An abbreviation in lower case. -/
def Begins (word full : CStr) : Prop := word ≠ [] ∧ word <+: full

def MoveFlags.Spells : MoveFlags → CStr → Prop
  | .stay, text => text = []
  | .move, text => ∃ move, text = '+' :: move ∧ Begins move "move".toList
  | .moveAll, text => ∃ move all, text = '+' :: (move ++ '+' :: all) ∧
      Begins move "move".toList ∧ Begins all "all".toList

def NodeSet.Spells : NodeSet → List CStr → Prop
  | .absent, words => words = []
  | .all, words => words = [['*']]
  | .ids nodes, words => ∃ word, IdText word nodes ∧ words = [word]

/-- The nodes a policy is given. -/
def PolicyName.Takes : PolicyName → NodeSet → Prop
  | .default, nodes | .noop, nodes => nodes = .absent
  | .bind, nodes => ∃ ids, nodes = .ids ids
  | .preferred, nodes | .interleaved, nodes => nodes ≠ .absent

/-- The words behind the command's name. -/
def Stmt.Spells : Stmt → List CStr → Prop
  | .quit, words => words = []
  | .show none, words => words = []
  | .show (some segname), words => segname.head? ≠ some '+' ∧ words = [segname]
  | .anon segname size options, words => ∃ word words', size.Spells word ∧
      List.Forall₂ AnonOption.Spells options words' ∧ words = segname :: word :: words'
  | .file pathname extent sharing, words => ∃ words₁ words₂, extent.Spells words₁ ∧
      Optionally Sharing.Spells sharing words₂ ∧ words = pathname :: (words₁ ++ words₂)
  | .shmem segname size huge, words => ∃ word words', size.Spells word ∧
      (if huge then ∃ word', Shortens word' "huge".toList ∧ words' = [word'] else words' = []) ∧
        words = segname :: word :: words'
  | .remove segname segnames, words => words = segname :: segnames
  | .map segname extent sharing, words => ∃ words₁ words₂, extent.Spells words₁ ∧
      Optionally Sharing.Spells sharing words₂ ∧ words = segname :: (words₁ ++ words₂)
  | .unmap segname, words | .shmLock segname, words | .shmUnlock segname, words =>
      words = [segname]
  | .lock segname extent, words | .unlock segname extent, words
  | .location segname extent, words => ∃ words₁, extent.Spells words₁ ∧ words = segname :: words₁
  | .touch segname extent write, words => ∃ words₁ words₂, extent.Spells words₁ ∧
      Optionally accessSpells write words₂ ∧ words = segname :: (words₁ ++ words₂)
  | .mbind segname extent policy flags nodes, words => ∃ words₁ pol mods words₂,
      extent.Spells words₁ ∧ Begins pol policy.entry.1 ∧ flags.Spells mods ∧
        nodes.Spells words₂ ∧ policy.Takes nodes ∧
        words = segname :: (words₁ ++ (pol ++ mods) :: words₂)
  | .mprotect segname prot, words => ∃ words', List.Forall₂ ProtWord.Spells prot words' ∧
      words = segname :: words'

/-- A prefix of the command's name that no other command's name has. -/
def Stmt.Calls (stmt : Stmt) (cmd : CStr) : Prop :=
  cmd <+: stmt.entry.1 ∧ ∀ c ∈ cmdTable, cmd <+: c.1 → c = stmt.entry

/-- The words of the line spell the statement, whatever blanks there are. -/
def Stmt.SpelledBy (stmt : Stmt) (line : CStr) : Prop :=
  ∃ cmd words, tokens whitespace line = cmd :: words ∧ stmt.Calls cmd ∧ stmt.Spells words

/-! ## Statements whose numbers fit -/

/-- All ones is taken for an error. -/
def Amount.Fits (pagesize : Word) (amount : Amount) : Prop := amount.bytes pagesize < 2 ^ 64 - 1

def Extent.Fits (pagesize : Word) : Extent → Prop
  | .whole => True
  | .part offset length => offset.Fits pagesize ∧ ∀ amount ∈ length, amount.Fits pagesize

def AnonOption.Fits : AnonOption → Prop
  | .addr start => start < 2 ^ 63
  | _ => True

/-- Numbers are not too large, and NUMA commands are for machines with several nodes. -/
def Stmt.Fits (pagesize : Word) (numaMaxNode : Int) : Stmt → Prop
  | .anon _ size options => size.Fits pagesize ∧ ∀ option ∈ options, option.Fits
  | .shmem _ size _ => size.Fits pagesize
  | .file _ extent _ | .map _ extent _ | .lock _ extent | .unlock _ extent
  | .touch _ extent _ => extent.Fits pagesize
  | .location _ extent => 0 < numaMaxNode ∧ extent.Fits pagesize
  | .mbind _ extent _ _ nodes => 0 < numaMaxNode ∧ numaMaxNode < 2 ^ 31 ∧ extent.Fits pagesize ∧
      ∀ ids, nodes = .ids ids → ∀ id ∈ ids, (id : Int) ≤ numaMaxNode
  | _ => True

end Memtoy
