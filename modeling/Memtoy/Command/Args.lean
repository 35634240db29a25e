import Memtoy.Command.CpuSet
import Memtoy.Command.Shell

/-!
# Command.Args — the arguments of commands

The parsers of `commands.c` in the order of the source. Each returns what the C function
returns, with its error value (0, -1, `CMD_ERROR`) as `none`, and the messages it prints.
`Honest` says that a parser which complains also returns its error value;
`get_mbind_policy` is the one that does not (`getMbindPolicy_complains`): its callers test
for a negative value, and it returns `CMD_ERROR`.
-/

namespace Memtoy

open CString

/-- `args += strspn(args, whitespace)` -/
def skipBlanks (args : CStr) : CStr := skipSpan whitespace args

/-- `tok = strtok_r(args, whitespace, &nextarg); args = nextarg + strspn(nextarg, whitespace);`
where `args` is known not to be blank. -/
def nextToken (args : CStr) : CStr × CStr :=
  let r := strtokR whitespace args
  (r.1.getD [], skipBlanks r.2)

/-- A parser that prints a message returns its error value. -/
def Honest {α : Type} (r : Option α × List Complaint) : Prop := r.2 ≠ [] → r.1 = none

/-! ## Sizes and ranges -/

/-- `required_arg()`: is there something? -/
def requiredArg (cmdName arg argName : CStr) : Option Unit × List Complaint :=
  if arg ≠ [] then (some (), []) else (none, [.missingArg cmdName argName])

/-- `BOGUS_SECONDS` -/
def bogusSeconds : BitVec 32 := BitVec.allOnes 32

/-- `get_arg_seconds()` -/
def getArgSeconds (arg : CStr) : BitVec 32 :=
  let argval := (strtoul arg 0).1
  if 0xffffffff#64 < argval then bogusSeconds else argval.truncate 32

/-- `#define KILO_SHIFT 10` -/
def kiloShift : Nat := 10

/-- `size_kmgp()`: convert ascii arg to numeric and scale as requested. -/
def sizeKmgp (pagesize : Word) (arg : CStr) : Word :=
  match strtoul arg 0 with
  | (argval, []) => argval
  | (argval, c :: _) =>
      match c.toLower with
      | 'p' => argval * pagesize
      | 'k' => argval <<< kiloShift
      | 'm' => argval <<< (kiloShift * 2)
      | 'g' => argval <<< (kiloShift * 3)
      | _ => bogusSize

/-- `get_scaled_value()`, with `BOGUS_SIZE` as `none`. -/
def getScaledValue (pagesize : Word) (args what : CStr) : Option Word × List Complaint :=
  let size := sizeKmgp pagesize args
  if size = bogusSize then (none, [.notNumeric what]) else (some size, [])

/-- `isdigit(*args)` -/
def startsWithDigit (args : CStr) : Bool :=
  match args.head? with
  | some c => c.isDigit
  | none => false

/-- The `<length>` of `get_range`; `*` maps to end of file. -/
def getLength (pagesize : Word) (args : CStr) : Option Word × List Complaint :=
  if args.head? = some '*' then (some 0, []) else getScaledValue pagesize args ['l', 'e', 'n', 'g', 't', 'h']

/-- `get_range()`: the range, zero when there is none, and the next argument. -/
def getRange (pagesize : Word) (args : CStr) : Option (Range × CStr) × List Complaint :=
  if startsWithDigit args then
    let (tok, args) := nextToken args
    match getScaledValue pagesize tok ['o', 'f', 'f', 's', 'e', 't'] with
    | (none, cs) => (none, cs)
    | (some offset, cs) =>
        -- <length> ... only if offset specified
        if args ≠ [] then
          let (tok, args) := nextToken args
          match getLength pagesize tok with
          | (none, cs') => (none, cs ++ cs')
          | (some length, cs') => (some (⟨offset, length, 0⟩, args), cs ++ cs')
        else (none, cs ++ [.expectedLength])
  else (some (⟨0, 0, 0⟩, args), [])

/-- Flags a segment may be given. -/
abbrev SegFlags := { flags : Flags // flags &&& segfMaps = 0 }

def flagsNone : SegFlags := ⟨0, by decide⟩
def flagsShared : SegFlags := ⟨mapShared, by decide⟩
def flagsPrivate : SegFlags := ⟨mapPrivate, by decide⟩
/-- `MAP_SHARED | MEMTOY_MAP_HUGE` -/
def flagsHuge : SegFlags := ⟨mapShared ||| shmHugetlb, by decide⟩

def wordShared : CStr := ['s', 'h', 'a', 'r', 'e', 'd']
def wordPrivate : CStr := ['p', 'r', 'i', 'v', 'a', 't', 'e']

/-- `get_shared()`: check for "shared"|"private". -/
def getShared (args : CStr) : Option SegFlags × List Complaint :=
  if abbreviates args wordShared then (some flagsShared, [])
  else if args ≠ [] then
    if ¬ abbreviates args wordPrivate then (none, [.badShare]) else (some flagsPrivate, [])
  else (some flagsNone, [])

/-- `get_access()`: `true` for write. -/
def getAccess (args : CStr) : Option Bool × List Complaint :=
  match args with
  | [] => (some false, [])
  | c :: _ =>
      if c.toLower = 'w' then (some true, [])
      else if c.toLower ≠ 'r' then (none, [.badAccess])
      else (some false, [])

/-- `numa_supported()` -/
def numaSupported (numaMaxNode : Int) : Option Unit × List Complaint :=
  if numaMaxNode ≤ 0 then (none, [.noNuma]) else (some (), [])

/-! ## Processors -/

/-- The loop of `get_cpuset_from_mask`: the chunks in the order of the text, after the ones
in `chunk`. Each turn takes at least one of `fuel` characters. -/
def maskChunks : (fuel : Nat) → (args : CStr) → (chunk : List (BitVec 32)) →
    Option (List (BitVec 32)) × List Complaint
  | 0, _, chunk => (some chunk, [])
  | _ + 1, [], chunk => (some chunk, [])
  | fuel + 1, c :: args, chunk =>
      if c ≠ '0' ∧ (args.head?.map Char.toLower) ≠ some 'x' then (none, [.expectedHexMask])
      else if ncpuwords ≤ chunk.length then (none, [.tooManyCpus maxCpuId])
      else
        let (value, next) := strtoul (c :: args) 16
        let bits := value.truncate 32
        -- ignore "leading" zero chunks
        let chunk := if chunk ≠ [] ∨ bits ≠ 0#32 then chunk ++ [bits] else chunk
        match next with
        | [] => (some chunk, [])
        | ',' :: args => maskChunks fuel args chunk
        | _ => (none, [.expectedComma])

/-- `for (i = 0; nr_chunks > 0; ++i) cpu_bits[i] = chunk[--nr_chunks];`, with the last chunk
first. -/
def storeChunks (csp : CpuSet) : (i : Nat) → (chunk : List (BitVec 32)) → CpuSet
  | _, [] => csp
  | i, bits :: chunk => storeChunks (csp.store i bits) (i + 1) chunk

/-- `get_cpuset_from_mask()`: the number of words and the set. -/
def getCpusetFromMask (args : CStr) : Option (Nat × CpuSet) × List Complaint :=
  let r := maskChunks (args.length + 1) args []
  (r.1.map fun chunk => (chunk.length, storeChunks CpuSet.zero 0 chunk.reverse), r.2)

/-- The characters a message names at `next`: one, or NUL. -/
def charAt (next : CStr) : CStr := next.take 1

/-- `get_cpuset_from_ids()` and `get_nodemask()`: a comma-separated list of ids up to
`max`. `next` is where the last number ended, if there was one. -/
def getIds (digitMsg : Complaint) (bigMsg : Complaint) (charMsg : CStr → Complaint) (max : Int) :
    (fuel : Nat) → (args : CStr) → (next : Option CStr) → (ids : List Int) →
    Option (List Int) × List Complaint
  | 0, _, next, _ => (none, (next.map fun n => charMsg (charAt n)).toList)
  | _ + 1, [], next, _ => (none, (next.map fun n => charMsg (charAt n)).toList)
  | fuel + 1, c :: args, _, ids =>
      if ¬ c.isDigit then (none, [digitMsg, charMsg [c]])
      else
        let (value, next) := strtoul (c :: args) 10
        let id := toInt32 value
        if max < id then (none, [bigMsg, charMsg (charAt next)])
        else
          let ids := ids ++ [id]
          match next with
          | [] => (some ids, [])
          | ',' :: args => getIds digitMsg bigMsg charMsg max fuel args (some next) ids
          | _ => (none, [charMsg (charAt next)])

/-- `get_cpuset_from_ids()`: the number of ids and the set. -/
def getCpusetFromIds (args : CStr) : Option (Nat × CpuSet) × List Complaint :=
  let r := getIds .expectedCpuDigit (.cpuTooBig maxCpuId) .badCpuChar maxCpuId (args.length + 1)
    args none []
  (r.1.map fun ids => (ids.length, ids.foldl CpuSet.set CpuSet.zero), r.2)

/-- `get_nodemask()`: the ids of the nodes set. -/
def getNodemask (numaMaxNode : Int) (args : CStr) : Option (List Int) × List Complaint :=
  getIds .expectedNodeDigit (.nodeTooBig numaMaxNode) .badNodeChar numaMaxNode (args.length + 1)
    args none []

/-! ## Policies -/

def mpolDefault : Int := 0
def mpolPreferred : Int := 1
def mpolBind : Int := 2
def mpolInterleave : Int := 3
/-- `MPOL_INTERLEAVE + 1` -/
def mpolNoop : Int := 4

/-- `policies[]` -/
def policies : List (CStr × Int) :=
  [("default".toList, mpolDefault), ("preferred".toList, mpolPreferred), ("bind".toList, mpolBind),
    ("interleaved".toList, mpolInterleave), ("noop".toList, mpolNoop)]

/-- `mbind_reject`: space, '+', tab -/
def mbindReject : List Char := [' ', '+', '\t']

/-- The first policy the word at `args` abbreviates. -/
def findPolicy (args : CStr) : Option Int :=
  let pol := args.takeWhile (· ∉ mbindReject)
  (policies.find? fun p => strncmpEq args p.1 pol.length).map Prod.snd

/-- `#define CMD_ERROR 1`, as `get_mbind_policy` returns it -/
def cmdErrorValue : Int := 1

/-- `get_mbind_policy()`: the policy and the `*nextarg` it stores, `none` when it stores
nothing. An unrecognized policy is answered with `CMD_ERROR`, which is not negative. -/
def getMbindPolicy (args : CStr) : Int × Option CStr × List Complaint :=
  match findPolicy args with
  | some flag => (flag, some (args.dropWhile (· ∉ mbindReject)), [])
  | none => (cmdErrorValue, none, [.unknownPolicy args])

def mpolMfMove : Flags := 2#32
def mpolMfMoveAll : Flags := 4#32

/-- `flags_err` of `get_mbind_flags`; `arg` is the flag up to `args`. -/
def mbindFlagsErr (flags : Flags) (arg : CStr) (len : Nat) : Complaint :=
  if flags &&& mpolMfMove ≠ 0 then .expectedAllAfterMove
  else if strncmpEq arg "all".toList len then .expectedMove arg
  else .unknownMbindFlag arg

/-- The `while (*args == '+')` of `get_mbind_flags`. -/
def getMbindAll : (fuel : Nat) → (args : CStr) → (flags : Flags) →
    Option (Flags × CStr) × List Complaint
  | 0, args, flags => (some (flags, args), [])
  | fuel + 1, args, flags =>
      match args with
      | '+' :: args =>
          if args = [] ∨ args.head? = some ' ' then (none, [.expectedAllAfterPlus])
          else
            let len := (args.takeWhile (· ∉ mbindReject)).length
            if strncmpEq args "all".toList len then
              getMbindAll fuel (args.drop len) ((flags &&& ~~~mpolMfMove) ||| mpolMfMoveAll)
            else (none, [mbindFlagsErr flags args len])
      | _ => (some (flags, args), [])

/-- `get_mbind_flags()`: parse mbind(2) modifier flags. -/
def getMbindFlags (args : CStr) : Option (Flags × CStr) × List Complaint :=
  let len := (args.takeWhile (· ∉ mbindReject)).length
  if ¬ strncmpEq args "move".toList len then (none, [mbindFlagsErr 0 args len])
  else getMbindAll (args.length + 1) (args.drop len) mpolMfMove

/-- `get_arg_nodemask()`: the nodes, `none` for a NULL mask. -/
def getArgNodemask (cmdName : CStr) (numaMaxNode : Int) (args : CStr) (policy : Int) :
    Option (Option (List Int)) × List Complaint :=
  if policy ≠ mpolDefault ∧ policy ≠ mpolNoop then
    match requiredArg cmdName args "<node/list>".toList with
    | (none, cs) => (none, cs)
    | (some _, _) =>
        if args.head? ≠ some '*' then
          let r := getNodemask numaMaxNode args
          (r.1.map some, r.2)
        else if args.tail ≠ [] then (none, [.badNodeChar (charAt args.tail)])
        else if policy ≠ mpolInterleave ∧ policy ≠ mpolPreferred then (none, [.starPolicy])
        else (some none, [])
  else (some none, [])

/-- The bits `nodemask_set` has set. A negative id is outside the mask. -/
def nodeBits (nodes : List Int) : Nat :=
  nodes.foldl
    (fun (bits : Nat) (node : Int) => if 0 ≤ node then bits ||| 1 <<< node.toNat else bits) 0

/-! ## Signals -/

/-- `_NSIG` -/
def nsig : Int := 65

/-- `sig_names[]` without the "unknown" at the end, and the numbers on Linux. -/
def sigNames : List (CStr × Int) :=
  [("INT".toList, 2), ("QUIT".toList, 3), ("SEGV".toList, 11), ("BUS".toList, 7),
    ("USR1".toList, 10), ("USR2".toList, 12)]

/-- `signum_from_name()`, with -1 as `none`. -/
def signumFromName (sigName : CStr) : Option Int :=
  let sigName := if strncasecmpEq sigName "sig".toList 3 then sigName.drop 3 else sigName
  (sigNames.find? fun p => sigName.map Char.toLower = p.1.map Char.toLower).map Prod.snd

/-- `parse_signal()`: parse signal name/number argument. The callers test for a negative
value, which an out of range `int` can be without a message. -/
def parseSignal (args : CStr) : Option Int × List Complaint :=
  let args := args.takeWhile (· ∉ whitespace)
  if ¬ startsWithDigit args then
    match signumFromName args with
    | some signum => (some signum, [])
    | none => (none, [.unknownSignal args])
  else
    let signum := toInt32 (strtoul args 0).1
    if signum = 0 ∨ nsig ≤ signum then (none, [.signalRange signum])
    else if signum < 0 then (none, [])
    else (some signum, [])

/-! ## Honesty -/

theorem Honest.silent {α : Type} (a : Option α) : Honest (a, []) := fun h => absurd rfl h

theorem Honest.refuses {α : Type} (cs : List Complaint) : Honest ((none : Option α), cs) :=
  fun _ => rfl

/-- A value is only given without a complaint. -/
theorem Honest.of_some {α : Type} {r : Option α × List Complaint} (h : Honest r) {a : α}
    (ha : r.1 = some a) : r.2 = [] := by
  by_contra hne
  rw [h hne] at ha
  cases ha

theorem Honest.map {α β : Type} {r : Option α × List Complaint} (h : Honest r) (f : α → β) :
    Honest (r.1.map f, r.2) := by
  intro hne
  rw [show r.1 = none from h hne]
  rfl

theorem honest_requiredArg (cmdName arg argName : CStr) :
    Honest (requiredArg cmdName arg argName) := by
  unfold requiredArg
  split
  · apply Honest.silent
  · apply Honest.refuses

theorem honest_getScaledValue (pagesize : Word) (args what : CStr) :
    Honest (getScaledValue pagesize args what) := by
  simp only [getScaledValue]
  split
  · apply Honest.refuses
  · apply Honest.silent

theorem honest_getLength (pagesize : Word) (args : CStr) : Honest (getLength pagesize args) := by
  unfold getLength
  split
  · apply Honest.silent
  · apply honest_getScaledValue

theorem honest_getRange (pagesize : Word) (args : CStr) : Honest (getRange pagesize args) := by
  unfold getRange
  split
  · rcases nextToken args with ⟨tok, rest⟩
    have hoff := honest_getScaledValue pagesize tok ['o', 'f', 'f', 's', 'e', 't']
    simp only
    split
    · apply Honest.refuses
    · next offset cs heq =>
      rw [heq] at hoff
      have hcs : cs = [] := hoff.of_some rfl
      subst hcs
      split
      · rcases nextToken rest with ⟨tok', rest'⟩
        have hlen := honest_getLength pagesize tok'
        simp only
        split
        · apply Honest.refuses
        · next length cs' heq' =>
          rw [heq'] at hlen
          have hcs' : cs' = [] := hlen.of_some rfl
          subst hcs'
          apply Honest.silent
      · apply Honest.refuses
  · apply Honest.silent

theorem honest_getShared (args : CStr) : Honest (getShared args) := by
  unfold getShared
  split
  · apply Honest.silent
  · split
    · split
      · apply Honest.refuses
      · apply Honest.silent
    · apply Honest.silent

theorem honest_getAccess (args : CStr) : Honest (getAccess args) := by
  unfold getAccess
  split
  · apply Honest.silent
  · split
    · apply Honest.silent
    · split
      · apply Honest.refuses
      · apply Honest.silent

theorem honest_numaSupported (numaMaxNode : Int) : Honest (numaSupported numaMaxNode) := by
  unfold numaSupported
  split
  · apply Honest.refuses
  · apply Honest.silent

theorem honest_maskChunks (fuel : Nat) :
    ∀ (args : CStr) (chunk : List (BitVec 32)), Honest (maskChunks fuel args chunk) := by
  induction fuel with
  | zero =>
      intro args chunk
      apply Honest.silent
  | succ fuel ih =>
      intro args chunk
      cases args with
      | nil => apply Honest.silent
      | cons c args =>
          simp only [maskChunks]
          split
          · apply Honest.refuses
          · split
            · apply Honest.refuses
            · split
              · apply Honest.silent
              · apply ih
              · apply Honest.refuses

theorem honest_getIds (digitMsg bigMsg : Complaint) (charMsg : CStr → Complaint) (max : Int)
    (fuel : Nat) : ∀ (args : CStr) (next : Option CStr) (ids : List Int),
      Honest (getIds digitMsg bigMsg charMsg max fuel args next ids) := by
  induction fuel with
  | zero =>
      intro args next ids
      apply Honest.refuses
  | succ fuel ih =>
      intro args next ids
      cases args with
      | nil => apply Honest.refuses
      | cons c args =>
          simp only [getIds]
          split
          · apply Honest.refuses
          · split
            · apply Honest.refuses
            · split
              · apply Honest.silent
              · apply ih
              · apply Honest.refuses

theorem honest_getCpusetFromMask (args : CStr) : Honest (getCpusetFromMask args) :=
  (honest_maskChunks _ _ _).map _

theorem honest_getCpusetFromIds (args : CStr) : Honest (getCpusetFromIds args) :=
  (honest_getIds _ _ _ _ _ _ _ _).map _

theorem honest_getMbindAll (fuel : Nat) :
    ∀ (args : CStr) (flags : Flags), Honest (getMbindAll fuel args flags) := by
  induction fuel with
  | zero =>
      intro args flags
      apply Honest.silent
  | succ fuel ih =>
      intro args flags
      simp only [getMbindAll]
      split
      · split
        · apply Honest.refuses
        · split
          · apply ih
          · apply Honest.refuses
      · apply Honest.silent

theorem honest_getMbindFlags (args : CStr) : Honest (getMbindFlags args) := by
  simp only [getMbindFlags]
  split
  · apply Honest.refuses
  · apply honest_getMbindAll

theorem honest_getArgNodemask (cmdName : CStr) (numaMaxNode : Int) (args : CStr) (policy : Int) :
    Honest (getArgNodemask cmdName numaMaxNode args policy) := by
  unfold getArgNodemask
  split
  · split
    · apply Honest.refuses
    · split
      · exact (honest_getIds _ _ _ _ _ _ _ _).map some
      · split
        · apply Honest.refuses
        · split
          · apply Honest.refuses
          · apply Honest.silent
  · apply Honest.silent

theorem honest_parseSignal (args : CStr) : Honest (parseSignal args) := by
  simp only [parseSignal]
  split
  · split
    · apply Honest.silent
    · apply Honest.refuses
  · split
    · apply Honest.refuses
    · split <;> apply Honest.silent

/-- `get_mbind_policy` is not: it complains and returns a value. -/
theorem getMbindPolicy_complains {args : CStr} (h : findPolicy args = none) :
    getMbindPolicy args = (cmdErrorValue, none, [.unknownPolicy args]) ∧ ¬ cmdErrorValue < 0 := by
  refine ⟨?_, by decide⟩
  simp only [getMbindPolicy, h]

end Memtoy
