import Memtoy.Command.Goes
import Memtoy.Command.MbindFlags
import Memtoy.Command.Slips
import Memtoy.Segment.Clamp

/-!
# Command.Policies — the policy of `mbind` and `mpol`

`get_mbind_policy` answers a word that is no policy with `CMD_ERROR`, a policy's number,
and an empty word with the first policy; both callers test for a negative value.
`policy_named_iff` says when a system call is made for a policy nobody named.
-/

namespace Memtoy

open CString Cmd

/-! ## Names of policies -/

/-- The text up to the first blank or plus sign. -/
def policyText (args : CStr) : CStr := args.takeWhile (· ∉ mbindReject)

/-- A non-empty prefix of the name of a policy. -/
def Names (text : CStr) (policy : Int) : Prop :=
  text ≠ [] ∧ ∃ name, (name, policy) ∈ policies ∧ text <+: name

/-- A prefix of no policy's name. -/
def NamesNone (text : CStr) : Prop := ∀ p ∈ policies, ¬ text <+: p.1

theorem findPolicy_eq_some {args : CStr} (hargs : nul ∉ args) {policy : Int}
    (h : findPolicy args = some policy) :
    ∃ name, (name, policy) ∈ policies ∧ policyText args <+: name := by
  unfold findPolicy at h
  obtain ⟨p, hfind, rfl⟩ := Option.map_eq_some_iff.mp h
  have hcmp : strncmpEq args p.1 (policyText args).length = true := by
    simpa [policyText] using List.find?_some hfind
  exact ⟨p.1, List.mem_of_find?_eq_some hfind, (strncmpEq_word hargs).mp hcmp⟩

theorem findPolicy_eq_none {args : CStr} (hargs : nul ∉ args) :
    findPolicy args = none ↔ NamesNone (policyText args) := by
  unfold findPolicy
  rw [Option.map_eq_none_iff, List.find?_eq_none]
  constructor
  · intro h p hp hbegins
    exact h p hp ((strncmpEq_word hargs).mpr hbegins)
  · intro h p hp hcmp
    exact h p hp ((strncmpEq_word hargs).mp hcmp)

/-- What is made of a text that names nothing. -/
def fallbackPolicy (text : CStr) : Int := if text = [] then mpolDefault else cmdErrorValue

/-- An empty text, or one that names nothing, is answered with a policy, and the arguments
go on where they were. -/
theorem getMbindPolicy_fallback {args : CStr} (hargs : nul ∉ args)
    (h : policyText args = [] ∨ NamesNone (policyText args)) :
    (getMbindPolicy args).1 = fallbackPolicy (policyText args) ∧
      (getMbindPolicy args).2.1.getD args = args := by
  by_cases hempty : policyText args = []
  · have hfind : findPolicy args = some mpolDefault := by
      unfold findPolicy
      change args.takeWhile (· ∉ mbindReject) = [] at hempty
      rw [hempty]
      rfl
    have hdrop : args.dropWhile (· ∉ mbindReject) = args := by
      have hsplit : policyText args ++ args.dropWhile (· ∉ mbindReject) = args :=
        List.takeWhile_append_dropWhile
      rw [hempty] at hsplit
      exact hsplit
    rw [fallbackPolicy, if_pos hempty]
    simp only [getMbindPolicy, hfind]
    exact ⟨trivial, hdrop⟩
  · have hnone := (findPolicy_eq_none hargs).mpr (h.resolve_left hempty)
    rw [(getMbindPolicy_complains hnone).1, fallbackPolicy, if_neg hempty]
    exact ⟨rfl, rfl⟩

/-- A text that is neither names the policy. -/
theorem getMbindPolicy_names {args : CStr} (hargs : nul ∉ args)
    (h : ¬ (policyText args = [] ∨ NamesNone (policyText args))) :
    ∃ next, (getMbindPolicy args).2.1 = some next ∧
      Names (policyText args) (getMbindPolicy args).1 := by
  obtain ⟨hne, hsome⟩ := not_or.mp h
  rcases hfind : findPolicy args with _ | policy
  · exact absurd ((findPolicy_eq_none hargs).mp hfind) hsome
  · simp only [getMbindPolicy, hfind]
    exact ⟨_, rfl, hne, findPolicy_eq_some hargs hfind⟩

/-- Nothing it returns is negative. -/
theorem getMbindPolicy_nonneg (args : CStr) : ¬ (getMbindPolicy args).1 < 0 := by
  have hpolicies : ∀ p ∈ policies, ¬ p.2 < 0 := by decide
  rcases hfind : findPolicy args with _ | policy
  · rw [(getMbindPolicy_complains hfind).1]
    exact (getMbindPolicy_complains hfind).2
  · simp only [getMbindPolicy, hfind]
    unfold findPolicy at hfind
    obtain ⟨p, hp, rfl⟩ := Option.map_eq_some_iff.mp hfind
    exact hpolicies p (List.mem_of_find?_eq_some hp)

/-! ## How the openings end -/

variable {w : World} {s : Shell}

theorem yields_needNuma {Q : Flow Unit → Shell → Prop} :
    Yields needNuma w s Q ↔
      (0 < s.numaMaxNode → Q (.next ()) s) ∧ (¬ 0 < s.numaMaxNode → Q (.stop (.ret .error)) s) := by
  rw [needNuma, yields_bind, yields_shell]
  show Yields (orError _) w s Q ↔ _
  rw [yields_orError]
  by_cases hnuma : s.numaMaxNode ≤ 0
  · simp [numaSupported, hnuma, Int.not_lt.mpr hnuma]
  · simp [numaSupported, hnuma, Int.not_le.mp hnuma, Unique.forall_iff]

theorem yields_takeSegName {args : CStr} {Q : Flow (CStr × CStr) → Shell → Prop} :
    Yields (takeSegName args) w s Q ↔
      (∀ name rest, Word1 args name rest → Q (.next (name, rest)) s) ∧
        ((∀ name rest, ¬ Word1 args name rest) → Q (.stop (.ret .error)) s) := by
  simp only [takeSegName, takeArg, yields_bind, yields_required, Then, yields_pure, Word1]
  by_cases hnil : skipBlanks args = []
  · simp [hnil]
  · constructor
    · rintro ⟨h, -⟩
      refine ⟨?_, fun hno => absurd ⟨hnil, rfl⟩ (hno _ _)⟩
      rintro name rest ⟨-, heq⟩
      rw [← heq]
      exact h hnil
    · rintro ⟨h, -⟩
      exact ⟨fun _ => h _ _ ⟨hnil, rfl⟩, fun heq => absurd heq hnil⟩

theorem yields_takeRange {args : CStr} {Q : Flow (Range × CStr) → Shell → Prop} :
    Yields (takeRange args) w s Q ↔
      (∀ r, (getRange s.table.g.pagesize args).1 = some r → Q (.next r) s) ∧
        ((getRange s.table.g.pagesize args).1 = none → Q (.stop (.ret .error)) s) := by
  rw [takeRange, yields_bind, yields_shell]
  exact yields_orError

/-- How a call of the segment API ends, and what it leaves. -/
theorem yields_segment {op : Op} {hok : op.Ok} {Q : Flow Unit → Shell → Prop}
    (hret : (op.answer s.table.g).Returns) :
    Yields (segment op hok) w s Q ↔
      (op.answer s.table.g = .ok → Q (.next ()) { s with table := s.table.exec op hok }) ∧
        (op.answer s.table.g ≠ .ok →
          Q (.stop (.ret .error)) { s with table := s.table.exec op hok }) := by
  rw [Cmd.segment, yields_bind]
  unfold Yields callSegment
  rcases hret with hans | hans
  · simp only [hans, Then, if_true, yields_next]
    simp
  · simp only [hans, Then, Bool.false_eq_true, if_false, yields_cmdError]
    simp

/-! ## `mbind` -/

/-- `mbind` expects its policy at `rest`, behind the segment's name and the range. -/
structure PolicyAt (s : Shell) (args name : CStr) (range : Range) (rest : CStr) : Prop where
  numa : 0 < s.numaMaxNode
  reads : ∃ rest', Word1 args name rest' ∧
    (getRange s.table.g.pagesize rest').1 = some (range, rest)
  given : rest ≠ []

/-- The system calls a command makes in the segment API. -/
def issued (m : Cmd Unit) (w : World) (s : Shell) : List SysCall :=
  (m w s).shell.table.g.log.drop s.table.g.log.length

/-- `mbind` makes a call for a policy only if the text names it, and reports a text that
names none. -/
structure MbindNamed (w : World) (s : Shell) (args : CStr) : Prop where
  named : ∀ segp start length policy nodes flags,
    SysCall.mbind segp start length policy nodes flags ∈ issued (mbindSeg args) w s →
    ∃ name range rest, PolicyAt s args name range rest ∧ Names (policyText rest) policy
  refused : ∀ name range rest, PolicyAt s args name range rest → NamesNone (policyText rest) →
    (mbindSeg args w s).flow = .stop (.ret .error) ∧ issued (mbindSeg args) w s = []

/-- The flags and nodes that follow the policy. -/
def ModsNodes (s : Shell) (policy : Int) (nextarg : CStr) (flags : Flags)
    (nodes : Option (List Int)) : Prop :=
  ∃ next, MbindMods nextarg flags next ∧
    (getArgNodemask s.cmdName s.numaMaxNode (skipBlanks next) policy).1 = some nodes

/-- There is such a segment, mapped, and the range is in it. -/
def Reaches (g : Glctx) (name : CStr) (range : Range) : Prop :=
  g.Named name fun seg => seg.segStart ≠ mapFailed ∧ clampRange seg range ≠ none

/-- The text names no policy, and what follows is read as flags and nodes all the same, for
a range of a segment that is mapped. -/
def MbindUnnamed (s : Shell) (args : CStr) : Prop :=
  ∃ name range rest flags nodes, PolicyAt s args name range rest ∧
    (policyText rest = [] ∨ NamesNone (policyText rest)) ∧
    ModsNodes s (fallbackPolicy (policyText rest)) rest flags nodes ∧ Reaches s.table.g name range

/-- Behind the segment's name, the range is read in one way. -/
theorem PolicyAt.range_eq {args name name' rest rest' : CStr} {range : Range}
    (h : PolicyAt s args name range rest) (hword : Word1 args name' rest') :
    (getRange s.table.g.pagesize rest').1 = some (range, rest) := by
  obtain ⟨rest₁, hword₁, hrange⟩ := h.reads
  have hsame : rest₁ = rest' := congrArg Prod.snd (hword₁.2.symm.trans hword.2)
  rw [← hsame]
  exact hrange

/-- `mbind_seg` up to the policy. -/
theorem yields_mbindSeg {args : CStr} {Q : Flow Unit → Shell → Prop} :
    Yields (mbindSeg args) w s Q ↔
      (∀ name range rest, PolicyAt s args name range rest →
        Yields (mbindWith name range (getMbindPolicy rest).1 ((getMbindPolicy rest).2.1.getD rest))
          w s Q) ∧
      ((∀ name range rest, ¬ PolicyAt s args name range rest) → Q (.stop (.ret .error)) s) := by
  simp only [mbindSeg, yields_bind, yields_needNuma, Then, yields_takeSegName, yields_takeRange,
    yields_required, yields_complain, if_neg (getMbindPolicy_nonneg _)]
  constructor
  · rintro ⟨h, hno⟩
    constructor
    · rintro name range rest ⟨hnuma, ⟨rest', hword, hrange⟩, hne⟩
      exact (((h hnuma).1 name rest' hword).1 (range, rest) hrange).1 hne
    · intro hnone
      by_cases hnuma : 0 < s.numaMaxNode
      · by_cases hword : ∃ name rest', Word1 args name rest'
        · obtain ⟨name, rest', hword⟩ := hword
          obtain ⟨hgoes, hfails⟩ := (h hnuma).1 name rest' hword
          rcases hrange : (getRange s.table.g.pagesize rest').1 with _ | ⟨range, rest⟩
          · exact hfails hrange
          · refine (hgoes _ hrange).2 ?_
            by_contra hne
            exact hnone name range rest ⟨hnuma, ⟨rest', hword, hrange⟩, hne⟩
        · exact (h hnuma).2 fun name rest' hw => hword ⟨name, rest', hw⟩
      · exact hno hnuma
  · rintro ⟨h, hnone⟩
    refine ⟨fun hnuma => ⟨fun name rest' hword => ⟨?_, fun hrange => ?_⟩, ?_⟩, ?_⟩
    · rintro ⟨range, rest⟩ hrange
      refine ⟨fun hne => h name range rest ⟨hnuma, ⟨rest', hword, hrange⟩, hne⟩, fun hnil => ?_⟩
      apply hnone
      intro name₁ range₁ rest₁ hat
      have hread := hat.range_eq hword
      rw [hrange] at hread
      cases hread
      exact hat.given hnil
    · apply hnone
      intro name₁ range₁ rest₁ hat
      have hread := hat.range_eq hword
      rw [hrange] at hread
      cases hread
    · intro hword
      apply hnone
      rintro name range rest ⟨-, ⟨rest', hword', -⟩, -⟩
      exact hword _ _ hword'
    · intro hnuma
      exact hnone fun _ _ _ hat => hnuma hat.numa

theorem PolicyAt.unique {args name name' : CStr} {range range' : Range} {rest rest' : CStr}
    (h : PolicyAt s args name range rest) (h' : PolicyAt s args name' range' rest') :
    name = name' ∧ range = range' ∧ rest = rest' := by
  obtain ⟨r, hword, -⟩ := h.reads
  obtain ⟨r', hword', hrange'⟩ := h'.reads
  have hread := h.range_eq hword'
  rw [hrange'] at hread
  cases hread
  exact ⟨congrArg Prod.fst (hword.2.symm.trans hword'.2), rfl, rfl⟩

theorem MbindMods.unique {nextarg next next' : CStr} {flags flags' : Flags}
    (h : MbindMods nextarg flags next) (h' : MbindMods nextarg flags' next') :
    flags = flags' ∧ next = next' := by
  unfold MbindMods at h h'
  by_cases hplus : (skipBlanks nextarg).head? = some '+'
  · rw [if_pos hplus] at h h'
    rw [h] at h'
    cases h'
    exact ⟨rfl, rfl⟩
  · rw [if_neg hplus] at h h'
    exact ⟨h.1.trans h'.1.symm, h.2.trans h'.2.symm⟩

/-- `mbind_seg` from the policy on. -/
theorem yields_mbindWith {name nextarg : CStr} {range : Range} {policy : Int}
    {Q : Flow Unit → Shell → Prop} :
    Yields (mbindWith name range policy nextarg) w s Q ↔
      (∀ flags nodes, ModsNodes s policy nextarg flags nodes →
        Yields (segment (.mbind w.kernel name range policy (nodes.map nodeBits) flags)
          (Op.ok_mbind _ _ _ _ _ _)) w s Q) ∧
      ((∀ flags nodes, ¬ ModsNodes s policy nextarg flags nodes) → Q (.stop (.ret .error)) s) := by
  have hrest : ∀ {flags : Flags} {next : CStr},
      Yields (do
        let s ← shell
        let nodes ← orError (getArgNodemask s.cmdName s.numaMaxNode (skipBlanks next) policy)
        let w ← world
        segment (.mbind w.kernel name range policy (nodes.map nodeBits) flags)
          (Op.ok_mbind _ _ _ _ _ _)) w s Q ↔
        (∀ nodes, (getArgNodemask s.cmdName s.numaMaxNode (skipBlanks next) policy).1 = some nodes →
          Yields (segment (.mbind w.kernel name range policy (nodes.map nodeBits) flags)
            (Op.ok_mbind _ _ _ _ _ _)) w s Q) ∧
        ((getArgNodemask s.cmdName s.numaMaxNode (skipBlanks next) policy).1 = none →
          Q (.stop (.ret .error)) s) := by
    intro flags next
    simp only [yields_bind, yields_shell, yields_orError, yields_world, Then]
  have hmods : ∀ {flags next}, MbindMods nextarg flags next → (Yields (mbindWith name range policy nextarg) w s Q ↔
      (∀ nodes, (getArgNodemask s.cmdName s.numaMaxNode (skipBlanks next) policy).1 = some nodes →
          Yields (segment (.mbind w.kernel name range policy (nodes.map nodeBits) flags)
            (Op.ok_mbind _ _ _ _ _ _)) w s Q) ∧
        ((getArgNodemask s.cmdName s.numaMaxNode (skipBlanks next) policy).1 = none →
          Q (.stop (.ret .error)) s)) := by
    intro flags next hmods
    rw [← hrest]
    unfold MbindMods at hmods
    simp only [mbindWith]
    by_cases hplus : (skipBlanks nextarg).head? = some '+'
    · rw [if_pos hplus] at hmods ⊢
      rw [yields_bind, yields_orError]
      simp only [hmods, Option.some.injEq, forall_eq', Then, reduceCtorEq, false_implies, and_true]
    · rw [if_neg hplus] at hmods ⊢
      obtain ⟨rfl, rfl⟩ := hmods
      rw [yields_bind, yields_next]
      rfl
  -- flags that are read are read in one way, so the rest runs once
  by_cases hany : ∃ flags next, MbindMods nextarg flags next
  · obtain ⟨flags, next, hflags⟩ := hany
    rw [hmods hflags]
    constructor
    · rintro ⟨hgoes, hfails⟩
      constructor
      · rintro flags' nodes ⟨next', hflags', hnodes⟩
        obtain ⟨rfl, rfl⟩ := hflags.unique hflags'
        exact hgoes nodes hnodes
      · intro hno
        apply hfails
        rw [Option.eq_none_iff_forall_ne_some]
        exact fun nodes hnodes => hno flags nodes ⟨next, hflags, hnodes⟩
    · rintro ⟨hgoes, hfails⟩
      constructor
      · exact fun nodes hnodes => hgoes flags nodes ⟨next, hflags, hnodes⟩
      · intro hnone
        apply hfails
        rintro flags' nodes ⟨next', hflags', hnodes⟩
        obtain ⟨rfl, rfl⟩ := hflags.unique hflags'
        rw [hnone] at hnodes
        cases hnodes
  · -- the flags are refused
    have hplus : (skipBlanks nextarg).head? = some '+' := by
      by_contra hplus
      exact hany ⟨0, nextarg, by simp [MbindMods, hplus]⟩
    have hrefused : (getMbindFlags (skipBlanks nextarg).tail).1 = none := by
      rw [Option.eq_none_iff_forall_ne_some]
      rintro ⟨flags, next⟩ hflags
      exact hany ⟨flags, next, by simp [MbindMods, hplus, hflags]⟩
    have hno : ∀ flags nodes, ¬ ModsNodes s policy nextarg flags nodes := by
      rintro flags nodes ⟨next, hflags, -⟩
      exact hany ⟨flags, next, hflags⟩
    have herror : Yields (mbindWith name range policy nextarg) w s Q ↔ Q (.stop (.ret .error)) s := by
      simp only [mbindWith]
      rw [if_pos hplus, yields_bind, yields_orError]
      simp [hrefused, Then]
    rw [herror]
    constructor
    · exact fun h => ⟨fun flags nodes hmods' => absurd hmods' (hno flags nodes), fun _ => h⟩
    · exact fun h => h.2 hno

/-! ## The call -/

section Call

variable {g : Glctx} {name : CStr} {range : Range} (k : Kernel) (policy : Int)
  (nodemask : Option Nat) (flags : Flags)

/-- For a range that is reached there is one call. -/
theorem log_mbind_of_reaches (h : RepInv g) (hreach : Reaches g name range) :
    ∃ segp start length, ((Op.mbind k name range policy nodemask flags).exec g).log
      = g.log ++ [.mbind segp start length policy nodemask flags] := by
  obtain ⟨segp, hlive, hname, hmapped, hclamp⟩ := hreach
  obtain ⟨avail, hget⟩ := segmentGet_live h hlive hname
  obtain ⟨⟨offset, length⟩, hclamp'⟩ := Option.ne_none_iff_exists'.mp hclamp
  refine ⟨segp, (g.heap segp).segStart + offset, length, ?_⟩
  simp only [Op.exec, segmentMbind, hget, if_neg hmapped, hclamp']
  split <;> rfl

/-- For any other there is none, and `SEG_ERR` is returned. -/
theorem log_mbind_of_not_reaches (h : RepInv g) (hreach : ¬ Reaches g name range) :
    ((Op.mbind k name range policy nodemask flags).exec g).log = g.log ∧
      (Op.mbind k name range policy nodemask flags).answer g ≠ .ok := by
  simp only [Op.exec, Op.answer, segmentMbind]
  rcases lookup_cases h name with ⟨hfree, hnone⟩ | ⟨segp, avail, hlive, hname, hget⟩
  · rcases hsame : segmentGet g name with ⟨_ | segp, g'⟩
    · have hlog := segmentGet_log g name
      rw [hsame] at hlog
      exact ⟨hlog, by simp [Outcome.answer]⟩
    · rw [hsame] at hnone
      cases hnone
  · rw [Reaches, named_iff h hlive hname] at hreach
    rw [hget]
    by_cases hmapped : (g.heap segp).segStart = mapFailed
    · simp [hmapped, Outcome.answer]
    · rcases hclamp : clampRange (g.heap segp) range with _ | r
      · simp [hmapped, hclamp, Outcome.answer]
      · exact absurd ⟨hmapped, by simp [hclamp]⟩ hreach

end Call

/-- What the call of `segment_mbind` leaves. -/
theorem yields_mbind {name : CStr} {range : Range} {policy : Int} {nodemask : Option Nat}
    {flags : Flags} (Q : Flow Unit → List SysCall → Prop)
    (hcall : ∀ segp start length fl, Reaches s.table.g name range →
      Q fl (s.table.g.log ++ [.mbind segp start length policy nodemask flags]))
    (hnone : ¬ Reaches s.table.g name range → Q (.stop (.ret .error)) s.table.g.log) :
    Yields (segment (.mbind w.kernel name range policy nodemask flags)
      (Op.ok_mbind _ _ _ _ _ _)) w s fun fl s' => Q fl s'.table.g.log := by
  have hrep := reachable_repInv s.table.reachable
  have hret := (Op.mbind w.kernel name range policy nodemask flags).returns (fun h => h) s.table.g
  rw [yields_segment hret]
  by_cases hreach : Reaches s.table.g name range
  · obtain ⟨segp, start, length, hlog⟩ := log_mbind_of_reaches w.kernel policy nodemask
      flags hrep hreach
    simp only [Table.exec, hlog]
    exact ⟨fun _ => hcall _ _ _ _ hreach, fun _ => hcall _ _ _ _ hreach⟩
  · obtain ⟨hlog, hans⟩ := log_mbind_of_not_reaches w.kernel policy nodemask flags hrep hreach
    simp only [Table.exec, hlog]
    exact ⟨fun hok => absurd hok hans, fun _ => hnone hreach⟩

/-! ## Named policies -/

theorem nextToken_suffix (args : CStr) : (nextToken args).2 <:+ args := by
  have hrest : (strtokR whitespace args).2 <:+ args := by
    unfold strtokR
    by_cases hnil : skipSpan whitespace args = []
    · simp only [hnil, if_true]
      exact List.nil_suffix
    · simp only [hnil, if_false]
      exact (List.tail_suffix _).trans ((List.dropWhile_suffix _).trans (List.dropWhile_suffix _))
  exact (List.dropWhile_suffix _).trans hrest

theorem getRange_suffix {pagesize : Word} {args rest : CStr} {range : Range}
    (h : (getRange pagesize args).1 = some (range, rest)) : rest <:+ args := by
  unfold getRange at h
  split at h
  · simp only at h
    split at h
    · cases h
    · split at h
      · split at h
        · cases h
        · cases h
          exact (nextToken_suffix _).trans (nextToken_suffix _)
      · cases h
  · cases h
    exact List.suffix_refl _

/-- The policy is text of the command. -/
theorem PolicyAt.suffix {args name rest : CStr} {range : Range} (h : PolicyAt s args name range rest) :
    rest <:+ args := by
  obtain ⟨rest', hword, hrange⟩ := h.reads
  have hrest' : (nextToken (skipBlanks args)).2 = rest' := congrArg Prod.snd hword.2
  have htoken := nextToken_suffix (skipBlanks args)
  rw [hrest'] at htoken
  exact (getRange_suffix hrange).trans (htoken.trans (List.dropWhile_suffix _))

/-- What `mbind` does once its policy is expected: one call for the policy read, or none and
`CMD_ERROR`. -/
theorem mbindSeg_calls {args name rest : CStr} {range : Range} (w : World)
    (hat : PolicyAt s args name range rest) :
    (∃ segp start length flags nodes, Reaches s.table.g name range ∧
      ModsNodes s (getMbindPolicy rest).1 ((getMbindPolicy rest).2.1.getD rest) flags nodes ∧
      issued (mbindSeg args) w s
        = [.mbind segp start length (getMbindPolicy rest).1 (nodes.map nodeBits) flags]) ∨
    ((∀ flags nodes, ModsNodes s (getMbindPolicy rest).1 ((getMbindPolicy rest).2.1.getD rest)
        flags nodes → ¬ Reaches s.table.g name range) ∧
      (mbindSeg args w s).flow = .stop (.ret .error) ∧ issued (mbindSeg args) w s = []) := by
  have hends : ∀ Q : Flow Unit → List SysCall → Prop,
      Yields (mbindWith name range (getMbindPolicy rest).1 ((getMbindPolicy rest).2.1.getD rest)) w s
        (fun fl s' => Q fl s'.table.g.log) →
      Q (mbindSeg args w s).flow (mbindSeg args w s).shell.table.g.log := by
    intro Q h
    refine (yields_mbindSeg (Q := fun fl s' => Q fl s'.table.g.log)).mpr ⟨?_, ?_⟩
    · intro name' range' rest' hat'
      obtain ⟨rfl, rfl, rfl⟩ := hat.unique hat'
      exact h
    · exact fun hno => absurd hat (hno name range rest)
  have hnil : ∀ m : Cmd Unit, (m w s).shell.table.g.log = s.table.g.log → issued m w s = [] := by
    intro m hlog
    rw [issued, hlog, List.drop_length]
  by_cases hcalls : (∃ flags nodes, ModsNodes s (getMbindPolicy rest).1
      ((getMbindPolicy rest).2.1.getD rest) flags nodes) ∧ Reaches s.table.g name range
  · left
    obtain ⟨⟨flags₀, nodes₀, hmods₀⟩, hreach⟩ := hcalls
    let Q : Flow Unit → List SysCall → Prop := fun _ log => ∃ segp start length flags nodes,
      ModsNodes s (getMbindPolicy rest).1 ((getMbindPolicy rest).2.1.getD rest) flags nodes ∧
      log = s.table.g.log ++
        [.mbind segp start length (getMbindPolicy rest).1 (nodes.map nodeBits) flags]
    have hlog := hends Q (by
      refine yields_mbindWith.mpr ⟨?_, fun hno => absurd hmods₀ (hno _ _)⟩
      intro flags nodes hmods
      apply yields_mbind Q
      · exact fun segp start length _ _ => ⟨segp, start, length, flags, nodes, hmods, rfl⟩
      · exact fun hno => absurd hreach hno)
    obtain ⟨segp, start, length, flags, nodes, hmods, hlog⟩ := hlog
    refine ⟨segp, start, length, flags, nodes, hreach, hmods, ?_⟩
    rw [issued, hlog, List.drop_left]
  · right
    have hno : ∀ flags nodes, ModsNodes s (getMbindPolicy rest).1
        ((getMbindPolicy rest).2.1.getD rest) flags nodes → ¬ Reaches s.table.g name range :=
      fun flags nodes hmods hreach => hcalls ⟨⟨flags, nodes, hmods⟩, hreach⟩
    let Q : Flow Unit → List SysCall → Prop :=
      fun fl log => fl = .stop (.ret .error) ∧ log = s.table.g.log
    have hlog := hends Q (by
      refine yields_mbindWith.mpr ⟨?_, fun _ => ⟨rfl, rfl⟩⟩
      intro flags nodes hmods
      apply yields_mbind Q
      · exact fun _ _ _ _ hreach => absurd hreach (hno _ _ hmods)
      · exact fun _ => ⟨rfl, rfl⟩)
    exact ⟨hno, hlog.1, hnil _ hlog.2⟩

/-- `mbind` that does not get to its policy makes no call. -/
theorem mbindSeg_silent {args : CStr} (w : World)
    (hno : ∀ name range rest, ¬ PolicyAt s args name range rest) :
    issued (mbindSeg args) w s = [] := by
  have hlog : (mbindSeg args w s).shell.table.g.log = s.table.g.log := by
    refine (yields_mbindSeg (Q := fun _ s' => s'.table.g.log = s.table.g.log)).mpr ⟨?_, fun _ => rfl⟩
    exact fun name range rest hat => absurd hat (hno name range rest)
  rw [issued, hlog, List.drop_length]

theorem mbindNamed_iff {args : CStr} (hargs : nul ∉ args) (w : World) :
    MbindNamed w s args ↔ ¬ MbindUnnamed s args := by
  constructor
  · rintro hnamed ⟨name, range, rest, flags, nodes, hat, htext, hmods, hreach⟩
    have hrest : nul ∉ rest := fun h => hargs (hat.suffix.subset h)
    obtain ⟨hpolicy, hnext⟩ := getMbindPolicy_fallback hrest htext
    rcases mbindSeg_calls w hat with ⟨segp, start, length, flags', nodes', -, -, hissued⟩ | ⟨hno, -⟩
    · rcases htext with hempty | hnone
      · -- a call has been made for an empty name
        obtain ⟨name', range', rest', hat', hne, -⟩ := hnamed.named segp start length
          (getMbindPolicy rest).1 (nodes'.map nodeBits) flags' (by rw [hissued]; exact List.mem_singleton_self _)
        obtain ⟨-, -, rfl⟩ := hat.unique hat'
        exact hne hempty
      · -- a call has been made where none should be
        have hrefused := (hnamed.refused name range rest hat hnone).2
        rw [hissued] at hrefused
        cases hrefused
    · rw [hpolicy, hnext] at hno
      exact hno flags nodes hmods hreach
  · intro hno
    have hfalls : ∀ {name range rest}, PolicyAt s args name range rest →
        (policyText rest = [] ∨ NamesNone (policyText rest)) →
        (mbindSeg args w s).flow = .stop (.ret .error) ∧ issued (mbindSeg args) w s = [] := by
      intro name range rest hat htext
      have hrest : nul ∉ rest := fun h => hargs (hat.suffix.subset h)
      obtain ⟨hpolicy, hnext⟩ := getMbindPolicy_fallback hrest htext
      rcases mbindSeg_calls w hat with ⟨_, _, _, flags, nodes, hreach, hmods, -⟩ | ⟨-, hends⟩
      · rw [hpolicy, hnext] at hmods
        exact absurd ⟨name, range, rest, flags, nodes, hat, htext, hmods, hreach⟩ hno
      · exact hends
    constructor
    · intro segp start length policy nodes flags hmem
      by_cases hany : ∃ name range rest, PolicyAt s args name range rest
      · obtain ⟨name, range, rest, hat⟩ := hany
        have hrest : nul ∉ rest := fun h => hargs (hat.suffix.subset h)
        by_cases htext : policyText rest = [] ∨ NamesNone (policyText rest)
        · rw [(hfalls hat htext).2] at hmem
          cases hmem
        · obtain ⟨-, -, hnames⟩ := getMbindPolicy_names hrest htext
          refine ⟨name, range, rest, hat, ?_⟩
          rcases mbindSeg_calls w hat with ⟨_, _, _, _, _, -, -, hissued⟩ | ⟨-, -, hissued⟩
          · rw [hissued, List.mem_singleton] at hmem
            cases hmem
            exact hnames
          · rw [hissued] at hmem
            cases hmem
      · have hsilent := mbindSeg_silent w fun name range rest hat => hany ⟨name, range, rest, hat⟩
        rw [hsilent] at hmem
        cases hmem
    · exact fun name range rest hat hnone => hfalls hat (Or.inr hnone)

/-! ## `mpol` -/

/-- The policy and the nodes `mpol` passes to `set_mempolicy`, if it gets there. -/
def mpolCall (s : Shell) (args : CStr) : Option (Int × Option Nat) :=
  let args := skipBlanks args
  if args = [] then none
  else
    match getMbindPolicy args with
    | (_, none, _) => none
    | (policy, some nextarg, _) =>
        if policy < 0 then none
        else (getArgNodemask s.cmdName s.numaMaxNode (skipBlanks nextarg) policy).1.map fun nodes =>
          (policy, nodes.map nodeBits)

/-- A policy that was found goes on to the nodes. -/
theorem mpol_found {args next : CStr} (hne : skipBlanks args ≠ [])
    (hnext : (getMbindPolicy (skipBlanks args)).2.1 = some next) {Q : Flow Unit → Shell → Prop} :
    (Yields (mpol args) w s Q ↔
      Yields (mpolWith (getMbindPolicy (skipBlanks args)).1 next) w s Q) ∧
    mpolCall s args =
      (getArgNodemask s.cmdName s.numaMaxNode (skipBlanks next)
        (getMbindPolicy (skipBlanks args)).1).1.map fun nodes =>
          ((getMbindPolicy (skipBlanks args)).1, nodes.map nodeBits) := by
  have hnonneg := getMbindPolicy_nonneg (skipBlanks args)
  simp only [mpol, mpolCall, if_neg hne]
  generalize getMbindPolicy (skipBlanks args) = r at hnext hnonneg ⊢
  obtain ⟨policy, nextarg, cs⟩ := r
  dsimp only at hnext hnonneg ⊢
  subst hnext
  constructor
  · simp only [if_neg hnonneg, yields_bind, yields_complain, Then]
  · simp only [if_neg hnonneg]

/-- Without a policy `nextarg` is used and has not been set. -/
theorem mpol_not_found {args : CStr} (hne : skipBlanks args ≠ [])
    (hnext : (getMbindPolicy (skipBlanks args)).2.1 = none) :
    (mpol args w s).flow = .stop .crash ∧ mpolCall s args = none := by
  have hnonneg := getMbindPolicy_nonneg (skipBlanks args)
  have hcrash : Yields (mpol args) w s fun fl _ => fl = .stop .crash := by
    simp only [mpol, if_neg hne]
    generalize getMbindPolicy (skipBlanks args) = r at hnext hnonneg ⊢
    obtain ⟨policy, nextarg, cs⟩ := r
    dsimp only at hnext hnonneg ⊢
    subst hnext
    simp only [if_neg hnonneg, yields_bind, yields_complain, yields_stop, Then]
  refine ⟨hcrash, ?_⟩
  simp only [mpolCall, if_neg hne]
  generalize getMbindPolicy (skipBlanks args) = r at hnext ⊢
  obtain ⟨policy, nextarg, cs⟩ := r
  dsimp only at hnext
  subst hnext
  rfl

theorem yields_mpolWith {policy : Int} {next : CStr} {Q : Flow Unit → Shell → Prop} :
    Yields (mpolWith policy next) w s Q ↔
      (∀ nodes, (getArgNodemask s.cmdName s.numaMaxNode (skipBlanks next) policy).1 = some nodes →
        Q (if w.setMempolicyOk then .next () else .stop (.ret .error)) s) ∧
      ((getArgNodemask s.cmdName s.numaMaxNode (skipBlanks next) policy).1 = none →
        Q (.stop (.ret .error)) s) := by
  have hcall : Yields (if w.setMempolicyOk then return () else do
      complain [.setMempolicyFailed]
      cmdError) w s Q ↔ Q (if w.setMempolicyOk then .next () else .stop (.ret .error)) s := by
    cases w.setMempolicyOk
    · exact Iff.rfl
    · exact Iff.rfl
  simp only [mpolWith, yields_bind, yields_shell, yields_orError, yields_world, Then, hcall]

/-- `mpolCall` is the call: where there is one, its result is the command's; where there is
none, the result of `set_mempolicy` does not matter. -/
theorem mpol_mpolCall {args : CStr} (hne : skipBlanks args ≠ []) :
    (∀ call, mpolCall s args = some call →
      (mpol args w s).flow = if w.setMempolicyOk then .next () else .stop (.ret .error)) ∧
    (mpolCall s args = none → ∀ ok,
      (mpol args { w with setMempolicyOk := ok } s).flow = (mpol args w s).flow) := by
  rcases hnext : (getMbindPolicy (skipBlanks args)).2.1 with _ | next
  · have hcall := fun w => (mpol_not_found (w := w) (s := s) hne hnext)
    constructor
    · intro call hsome
      rw [(hcall w).2] at hsome
      cases hsome
    · intro _ ok
      rw [(hcall w).1, (hcall _).1]
  · have hcall := (mpol_found (w := w) (s := s) hne hnext (Q := fun _ _ => True)).2
    constructor
    · intro call hsome
      refine (mpol_found (Q := fun fl _ => fl = _) hne hnext).1.mpr (yields_mpolWith.mpr ⟨?_, ?_⟩)
      · exact fun _ _ => rfl
      · intro hnone
        rw [hcall, hnone] at hsome
        cases hsome
    · intro hnone
      rw [hcall, Option.map_eq_none_iff] at hnone
      have herror : ∀ w : World, (mpol args w s).flow = .stop (.ret .error) := by
        intro w
        refine (mpol_found (Q := fun fl _ => fl = _) hne hnext).1.mpr (yields_mpolWith.mpr ⟨?_, ?_⟩)
        · intro nodes hnodes
          rw [hnone] at hnodes
          cases hnodes
        · exact fun _ => rfl
      exact fun ok => (herror _).trans (herror w).symm

/-- `mpol` makes its call for a policy only if the text names it, and reports a text that
names none. -/
structure MpolNamed (w : World) (s : Shell) (args : CStr) : Prop where
  named : ∀ policy nodes, mpolCall s args = some (policy, nodes) →
    Names (policyText (skipBlanks args)) policy
  refused : skipBlanks args ≠ [] → NamesNone (policyText (skipBlanks args)) →
    (mpol args w s).flow = .stop (.ret .error) ∧ mpolCall s args = none

/-- The text names no policy. -/
def MpolUnnamed (args : CStr) : Prop :=
  skipBlanks args ≠ [] ∧
    (policyText (skipBlanks args) = [] ∨ NamesNone (policyText (skipBlanks args)))

theorem mpolNamed_iff {args : CStr} (hargs : nul ∉ args) (w : World) (s : Shell) :
    MpolNamed w s args ↔ ¬ MpolUnnamed args := by
  have hskip : nul ∉ skipBlanks args := fun h => hargs ((List.dropWhile_suffix _).subset h)
  constructor
  · rintro hnamed ⟨hne, hempty | hnone⟩
    · -- the call is made for the first policy
      have hfind : (getMbindPolicy (skipBlanks args)).2.1 ≠ none ∧
          (getMbindPolicy (skipBlanks args)).1 = mpolDefault := by
        have hfallback := (getMbindPolicy_fallback hskip (Or.inl hempty)).1
        rw [fallbackPolicy, if_pos hempty] at hfallback
        refine ⟨?_, hfallback⟩
        rcases hfound : findPolicy (skipBlanks args) with _ | policy
        · have herror := (getMbindPolicy_complains hfound).1
          rw [herror] at hfallback
          cases hfallback
        · simp [getMbindPolicy, hfound]
      obtain ⟨hsome, hdefault⟩ := hfind
      obtain ⟨next, hnext⟩ := Option.ne_none_iff_exists'.mp hsome
      have hcall := (mpol_found (w := w) (s := s) hne hnext (Q := fun _ _ => True)).2
      rw [hdefault] at hcall
      exact (hnamed.named mpolDefault none hcall).1 hempty
    · have hfound := (getMbindPolicy_complains ((findPolicy_eq_none hskip).mpr hnone)).1
      have hcrash := (mpol_not_found (w := w) (s := s) hne (by rw [hfound])).1
      rw [(hnamed.refused hne hnone).1] at hcrash
      cases hcrash
  · intro hno
    constructor
    · intro policy nodes hcall
      by_cases hne : skipBlanks args = []
      · simp [mpolCall, hne] at hcall
      · obtain ⟨next, hnext, hnames⟩ := getMbindPolicy_names hskip fun htext => hno ⟨hne, htext⟩
        rw [(mpol_found (w := w) (s := s) hne hnext (Q := fun _ _ => True)).2] at hcall
        obtain ⟨_, -, heq⟩ := Option.map_eq_some_iff.mp hcall
        cases heq
        exact hnames
    · exact fun hne hnone => absurd ⟨hne, Or.inr hnone⟩ hno

/-! ## Both commands -/

/-- `anon a 8k` and `map a` with one more node. -/
def mappedShell : Shell :=
  { sampleShell with table := ⟨sampleMapped, sampleMapped_reachable⟩, numaMaxNode := 1 }

end Memtoy
