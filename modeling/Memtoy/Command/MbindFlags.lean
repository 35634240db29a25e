import Memtoy.Command.Args

/-!
# Command.MbindFlags — the words of `move+all`

`get_mbind_flags` compares as many bytes as a word has, so that an empty word passes for
each flag; only a `+` in front of the end or of a space is refused, and a tab is not looked
for. `mbind_flags_iff` says for which strings this makes no difference.
-/

namespace Memtoy

open CString

/-! ## The words -/

/-- The end, a space or a tab. -/
def Ends (tail : CStr) : Prop := ∀ c, tail.head? = some c → c ∈ whitespace

/-- Words behind plus signs, each a prefix of "all", and what follows them. -/
inductive AllWords : CStr → List CStr → CStr → Prop where
  | stop {tail : CStr} : Ends tail → AllWords tail [] tail
  | more {word s tail : CStr} {words : List CStr} : word <+: "all".toList →
      AllWords s words tail → AllWords ('+' :: (word ++ s)) (word :: words) tail

/-- A prefix of "move", then these. -/
def FlagWords (args word : CStr) (words : List CStr) (tail : CStr) : Prop :=
  ∃ s, args = word ++ s ∧ word <+: "move".toList ∧ AllWords s words tail

/-- `MPOL_MF_MOVE`, or `MPOL_MF_MOVE_ALL` alone. -/
def flagsOf (words : List CStr) : Flags := if words = [] then mpolMfMove else mpolMfMoveAll

/-- A plus sign in front of the end or of a space. -/
def Dangling (words : List CStr) (tail : CStr) : Prop :=
  words.getLast? = some [] ∧ (tail = [] ∨ tail.head? = some ' ')

/-- No flag has a delimiter or a NUL in it. -/
theorem plain_of_abbrev {word flag : CStr} (h : word <+: flag)
    (hflag : flag = "move".toList ∨ flag = "all".toList) :
    nul ∉ word ∧ ∀ c ∈ word, c ∉ mbindReject := by
  have hplain : nul ∉ flag ∧ ∀ c ∈ flag, c ∉ mbindReject := by
    rcases hflag with rfl | rfl
    · exact ⟨by decide, forall_mem_of_all rfl⟩
    · exact ⟨by decide, forall_mem_of_all rfl⟩
  exact ⟨fun hnul => hplain.1 (h.subset hnul), fun c hc => hplain.2 c (h.subset hc)⟩

theorem mem_mbindReject_of_blank {c : Char} (h : c ∈ whitespace) : c ∈ mbindReject := by
  simp only [whitespace, List.mem_cons, List.not_mem_nil, or_false] at h
  rcases h with rfl | rfl <;> decide

/-- What follows a word starts with a delimiter. -/
theorem AllWords.head {s tail : CStr} {words : List CStr} (h : AllWords s words tail) :
    ∀ c, s.head? = some c → c ∈ mbindReject := by
  cases h with
  | stop hends => exact fun c hc => mem_mbindReject_of_blank (hends c hc)
  | more _ _ =>
      rintro c ⟨⟩
      decide

theorem AllWords.tail_ends {s tail : CStr} {words : List CStr} (h : AllWords s words tail) :
    Ends tail := by
  induction h with
  | stop hends => exact hends
  | more _ _ ih => exact ih

theorem AllWords.eq_of_nil {s tail : CStr} (h : AllWords s [] tail) : s = tail := by
  cases h
  rfl

/-- A word reaches up to the delimiter. -/
theorem takeWhile_word {word s : CStr} (hword : ∀ c ∈ word, c ∉ mbindReject)
    (hs : ∀ c, s.head? = some c → c ∈ mbindReject) :
    (word ++ s).takeWhile (· ∉ mbindReject) = word := by
  apply takeWhile_append_stop
  · intro c hc
    simpa using hword c hc
  · intro c hc
    simpa using hs c hc

theorem dropWhile_word {word s : CStr} (hword : ∀ c ∈ word, c ∉ mbindReject)
    (hs : ∀ c, s.head? = some c → c ∈ mbindReject) :
    (word ++ s).dropWhile (· ∉ mbindReject) = s := by
  apply dropWhile_append_stop
  · intro c hc
    simpa using hword c hc
  · intro c hc
    simpa using hs c hc

/-- Behind a plus sign stands a word, and the others behind that. -/
theorem allWords_plus {t tail : CStr} {words : List CStr} :
    AllWords ('+' :: t) words tail ↔
      ∃ more, words = t.takeWhile (· ∉ mbindReject) :: more ∧
        t.takeWhile (· ∉ mbindReject) <+: "all".toList ∧
        AllWords (t.dropWhile (· ∉ mbindReject)) more tail := by
  constructor
  · intro h
    generalize htext : '+' :: t = text at h
    cases h with
    | stop hends =>
        have hblank := hends '+' (by rw [← htext]; rfl)
        exact absurd hblank (by decide)
    | @more word s _ more hword hs =>
        injection htext with _ htext
        subst htext
        have hplain := (plain_of_abbrev hword (Or.inr rfl)).2
        rw [takeWhile_word hplain hs.head, dropWhile_word hplain hs.head]
        exact ⟨more, rfl, hword, hs⟩
  · rintro ⟨more, rfl, hword, hs⟩
    have hmore := AllWords.more hword hs
    rw [List.takeWhile_append_dropWhile] at hmore
    exact hmore

/-- A text that does not start with a plus sign has no words. -/
theorem allWords_stop {s tail : CStr} {words : List CStr} (hs : s.head? ≠ some '+') :
    AllWords s words tail ↔ words = [] ∧ tail = s ∧ Ends s := by
  constructor
  · intro h
    cases h with
    | stop hends => exact ⟨rfl, rfl, hends⟩
    | more _ _ => exact absurd rfl hs
  · rintro ⟨rfl, rfl, hends⟩
    exact .stop hends

theorem Ends.not_plus {tail : CStr} (h : Ends tail) : tail.head? ≠ some '+' :=
  fun hplus => absurd (h '+' hplus) (by decide)

/-- The words of a text are determined. -/
theorem AllWords.unique {s tail tail' : CStr} {words words' : List CStr}
    (h : AllWords s words tail) (h' : AllWords s words' tail') : words = words' ∧ tail = tail' := by
  induction h generalizing words' tail' with
  | @stop tail hends =>
      obtain ⟨rfl, rfl, -⟩ := (allWords_stop hends.not_plus).mp h'
      exact ⟨rfl, rfl⟩
  | @more word s tail words hword hs ih =>
      have hplain := (plain_of_abbrev hword (Or.inr rfl)).2
      obtain ⟨more, rfl, -, hs'⟩ := allWords_plus.mp h'
      rw [dropWhile_word hplain hs.head] at hs'
      rw [takeWhile_word hplain hs.head]
      obtain ⟨rfl, rfl⟩ := ih hs'
      exact ⟨rfl, rfl⟩

theorem FlagWords.unique {args word word' tail tail' : CStr} {words words' : List CStr}
    (h : FlagWords args word words tail) (h' : FlagWords args word' words' tail') :
    word = word' ∧ words = words' ∧ tail = tail' := by
  obtain ⟨s, rfl, hword, hs⟩ := h
  obtain ⟨s', htext, hword', hs'⟩ := h'
  have hsame := congrArg (List.takeWhile (· ∉ mbindReject)) htext
  rw [takeWhile_word (plain_of_abbrev hword (Or.inl rfl)).2 hs.head,
    takeWhile_word (plain_of_abbrev hword' (Or.inl rfl)).2 hs'.head] at hsame
  subst hsame
  cases List.append_cancel_left htext
  exact ⟨rfl, hs.unique hs'⟩

/-- The words stand in front of the blank, and stay when something else follows it. -/
theorem AllWords.split {s tail : CStr} {words : List CStr} (h : AllWords s words tail) :
    ∃ a, s = a ++ tail ∧ (∀ c ∈ a, c ∉ whitespace) ∧
      ∀ tail', Ends tail' → AllWords (a ++ tail') words tail' := by
  induction h with
  | @stop tail _ => exact ⟨[], rfl, by simp, fun tail' hends => .stop hends⟩
  | @more word s tail words hword _ ih =>
      obtain ⟨a, rfl, ha, hreplace⟩ := ih
      refine ⟨'+' :: (word ++ a), by simp, ?_, ?_⟩
      · intro c hc hblank
        rcases List.mem_cons.mp hc with rfl | hc
        · exact absurd hblank (by decide)
        · rcases List.mem_append.mp hc with hc | hc
          · exact (plain_of_abbrev hword (Or.inr rfl)).2 c hc (mem_mbindReject_of_blank hblank)
          · exact ha c hc hblank
      · intro tail' hends
        rw [List.cons_append, List.append_assoc]
        exact .more hword (hreplace tail' hends)

theorem FlagWords.split {args word tail : CStr} {words : List CStr}
    (h : FlagWords args word words tail) :
    ∃ a, args = a ++ tail ∧ (∀ c ∈ a, c ∉ whitespace) ∧
      ∀ tail', Ends tail' → FlagWords (a ++ tail') word words tail' := by
  obtain ⟨s, rfl, hword, hs⟩ := h
  obtain ⟨a, rfl, ha, hreplace⟩ := hs.split
  refine ⟨word ++ a, by simp, ?_, ?_⟩
  · intro c hc hblank
    rcases List.mem_append.mp hc with hc | hc
    · exact (plain_of_abbrev hword (Or.inl rfl)).2 c hc (mem_mbindReject_of_blank hblank)
    · exact ha c hc hblank
  · intro tail' hends
    exact ⟨a ++ tail', by simp, hword, hreplace tail' hends⟩

/-! ## `get_mbind_flags` -/

/-- A word of the text is compared with a flag. -/
theorem strncmpEq_word {args flag : CStr} (hargs : nul ∉ args) :
    strncmpEq args flag (args.takeWhile (· ∉ mbindReject)).length = true ↔
      args.takeWhile (· ∉ mbindReject) <+: flag := by
  apply strncmpEq_iff
  · exact fun hnul => hargs ((List.takeWhile_prefix _).subset hnul)
  · exact List.takeWhile_prefix _

theorem head_dropWhile_word (args : CStr) :
    ∀ c, (args.dropWhile (· ∉ mbindReject)).head? = some c → c ∈ mbindReject := by
  intro c hc
  have hhead := List.head?_dropWhile_not (fun c => decide (c ∉ mbindReject)) args
  rw [hc] at hhead
  simpa using hhead

theorem drop_takeWhile_word (args : CStr) :
    args.drop (args.takeWhile (· ∉ mbindReject)).length = args.dropWhile (· ∉ mbindReject) := by
  calc args.drop (args.takeWhile (· ∉ mbindReject)).length
      = (args.takeWhile (· ∉ mbindReject) ++ args.dropWhile (· ∉ mbindReject)).drop
          (args.takeWhile (· ∉ mbindReject)).length := by rw [List.takeWhile_append_dropWhile]
    _ = args.dropWhile (· ∉ mbindReject) := List.drop_left

theorem dangling_cons {word tail : CStr} {words : List CStr} :
    Dangling (word :: words) tail ↔
      (words = [] ∧ word = [] ∧ (tail = [] ∨ tail.head? = some ' ')) ∨
        (words ≠ [] ∧ Dangling words tail) := by
  unfold Dangling
  cases words with
  | nil => simp
  | cons word' words => simp [List.getLast?_cons_cons]

/-- The flags once there was a word behind a plus sign. -/
def moreFlags (flags : Flags) (words : List CStr) : Flags :=
  if words = [] then flags else mpolMfMoveAll

/-- The last word dangles where the loop finds nothing behind the plus sign. -/
theorem dangling_plus {t tail : CStr} {more : List CStr}
    (h : AllWords (t.dropWhile (· ∉ mbindReject)) more tail) :
    Dangling (t.takeWhile (· ∉ mbindReject) :: more) tail ↔
      (t = [] ∨ t.head? = some ' ') ∨ Dangling more tail := by
  have hsplit : t.takeWhile (· ∉ mbindReject) ++ t.dropWhile (· ∉ mbindReject) = t :=
    List.takeWhile_append_dropWhile
  rw [dangling_cons]
  constructor
  · rintro (⟨rfl, hempty, htail⟩ | ⟨-, hdangling⟩)
    · -- an empty last word is the rest of the text
      rw [hempty, List.nil_append] at hsplit
      rw [← h.eq_of_nil, hsplit] at htail
      exact Or.inl htail
    · exact Or.inr hdangling
  · rintro (hstop | hdangling)
    · -- there is no word, and no plus sign either
      have hempty : t.takeWhile (· ∉ mbindReject) = [] := by
        rcases hstop with rfl | hspace
        · rfl
        · obtain ⟨u, rfl⟩ := List.head?_eq_some_iff.mp hspace
          exact List.takeWhile_cons_of_neg (by decide)
      rw [hempty, List.nil_append] at hsplit
      rw [hsplit] at h
      have hplus : t.head? ≠ some '+' := by
        rcases hstop with rfl | hspace
        · simp
        · simp [hspace]
      obtain ⟨rfl, rfl, -⟩ := (allWords_stop hplus).mp h
      exact Or.inl ⟨rfl, hempty, hstop⟩
    · refine Or.inr ⟨?_, hdangling⟩
      rintro rfl
      cases hdangling.1

/-- One turn of the loop, behind a plus sign. -/
theorem getMbindAll_plus {fuel : Nat} {t : CStr} {flags : Flags} {r : Flags × CStr} (hnul : nul ∉ t)
    (hflags : flags = mpolMfMove ∨ flags = mpolMfMoveAll) :
    (getMbindAll (fuel + 1) ('+' :: t) flags).1 = some r ↔
      ¬ (t = [] ∨ t.head? = some ' ') ∧ t.takeWhile (· ∉ mbindReject) <+: "all".toList ∧
        (getMbindAll fuel (t.dropWhile (· ∉ mbindReject)) mpolMfMoveAll).1 = some r := by
  have hmove : (flags &&& ~~~mpolMfMove) ||| mpolMfMoveAll = mpolMfMoveAll := by
    rcases hflags with rfl | rfl <;> decide
  simp only [getMbindAll, drop_takeWhile_word, hmove, ← strncmpEq_word hnul]
  split
  · next hstop => simp [hstop]
  · next hgoes =>
    split
    · next hall => exact ⟨fun h => ⟨hgoes, hall, h⟩, fun h => h.2.2⟩
    · next hall =>
      constructor
      · intro h
        cases h
      · exact fun h => absurd h.2.1 hall

/-- A blank or the end: the loop is over. -/
theorem getMbindAll_stop {fuel : Nat} {s : CStr} (flags : Flags) (hplus : s.head? ≠ some '+') :
    getMbindAll (fuel + 1) s flags = (some (flags, s), []) := by
  rw [getMbindAll]
  rintro t rfl
  exact hplus rfl

/-- The loop takes words that are prefixes of "all", and stops at the blank behind them. -/
theorem getMbindAll_eq_some (fuel : Nat) : ∀ {s : CStr} {flags : Flags} {r : Flags × CStr},
    s.length < fuel → nul ∉ s → (∀ c, s.head? = some c → c ∈ mbindReject) →
    flags = mpolMfMove ∨ flags = mpolMfMoveAll →
      ((getMbindAll fuel s flags).1 = some r ↔
        ∃ words tail, AllWords s words tail ∧ ¬ Dangling words tail ∧
          r = (moreFlags flags words, tail)) := by
  induction fuel with
  | zero =>
      intro s flags r hlt
      exact absurd hlt (Nat.not_lt_zero _)
  | succ fuel ih =>
      intro s flags r hlt hnul hhead hflags
      by_cases hplus : s.head? = some '+'
      · obtain ⟨t, rfl⟩ := List.head?_eq_some_iff.mp hplus
        have hnult : nul ∉ t := fun h => hnul (List.mem_cons_of_mem _ h)
        have hrest : nul ∉ t.dropWhile (· ∉ mbindReject) :=
          fun h => hnult ((List.dropWhile_suffix _).subset h)
        have hlen : (t.dropWhile (· ∉ mbindReject)).length < fuel := by
          have hle := (List.dropWhile_suffix (l := t) fun c => decide (c ∉ mbindReject)).length_le
          rw [List.length_cons] at hlt
          omega
        rw [getMbindAll_plus hnult hflags, ih hlen hrest (head_dropWhile_word t) (Or.inr rfl)]
        constructor
        · rintro ⟨hgoes, hword, more, tail, hmore, hdangling, rfl⟩
          refine ⟨_ :: more, tail, allWords_plus.mpr ⟨more, rfl, hword, hmore⟩, ?_, by simp [moreFlags]⟩
          rw [dangling_plus hmore]
          exact not_or.mpr ⟨hgoes, hdangling⟩
        · rintro ⟨words, tail, hwords, hdangling, rfl⟩
          obtain ⟨more, rfl, hword, hmore⟩ := allWords_plus.mp hwords
          rw [dangling_plus hmore, not_or] at hdangling
          exact ⟨hdangling.1, hword, more, tail, hmore, hdangling.2, by simp [moreFlags]⟩
      · -- of the delimiters only the blanks are left
        have hends : Ends s := by
          intro c hc
          have hmem := hhead c hc
          have hne : c ≠ '+' := fun heq => hplus (heq ▸ hc)
          simp only [mbindReject, List.mem_cons, List.not_mem_nil, or_false] at hmem
          rcases hmem with rfl | rfl | rfl
          · decide
          · exact absurd rfl hne
          · decide
        rw [getMbindAll_stop flags hplus]
        constructor
        · rintro ⟨⟩
          refine ⟨[], s, .stop hends, ?_, rfl⟩
          rintro ⟨hlast, -⟩
          cases hlast
        · rintro ⟨words, tail, hwords, -, rfl⟩
          obtain ⟨rfl, rfl, -⟩ := (allWords_stop hplus).mp hwords
          rfl

/-- `get_mbind_flags` succeeds on words of which the last does not dangle. -/
theorem getMbindFlags_eq_some {args : CStr} (hargs : nul ∉ args) {r : Flags × CStr} :
    (getMbindFlags args).1 = some r ↔
      ∃ word words tail, FlagWords args word words tail ∧ ¬ Dangling words tail ∧
        r = (flagsOf words, tail) := by
  have hloop : (getMbindAll (args.length + 1) (args.dropWhile (· ∉ mbindReject)) mpolMfMove).1
      = some r ↔ ∃ words tail, AllWords (args.dropWhile (· ∉ mbindReject)) words tail ∧
        ¬ Dangling words tail ∧ r = (flagsOf words, tail) := by
    apply getMbindAll_eq_some
    · have hle := (List.dropWhile_suffix (l := args) fun c => decide (c ∉ mbindReject)).length_le
      omega
    · exact fun h => hargs ((List.dropWhile_suffix _).subset h)
    · exact head_dropWhile_word args
    · exact Or.inl rfl
  have hword : strncmpEq args "move".toList _ = true ↔ _ := strncmpEq_word hargs
  simp only [getMbindFlags, drop_takeWhile_word]
  constructor
  · intro haccepts
    split at haccepts
    · cases haccepts
    · next hmove =>
      rw [not_not] at hmove
      obtain ⟨words, tail, hwords, hdangling, hr⟩ := hloop.mp haccepts
      exact ⟨_, words, tail, ⟨_, List.takeWhile_append_dropWhile.symm, hword.mp hmove, hwords⟩,
        hdangling, hr⟩
  · rintro ⟨word, words, tail, ⟨s, htext, hmove, hs⟩, hdangling, hr⟩
    have htake : args.takeWhile (· ∉ mbindReject) = word := by
      rw [htext]
      exact takeWhile_word (plain_of_abbrev hmove (Or.inl rfl)).2 hs.head
    have hdrop : args.dropWhile (· ∉ mbindReject) = s := by
      rw [htext]
      exact dropWhile_word (plain_of_abbrev hmove (Or.inl rfl)).2 hs.head
    rw [if_neg (not_not.mpr (hword.mpr (by rw [htake]; exact hmove))), hloop, hdrop]
    exact ⟨words, tail, hs, hdangling, hr⟩

theorem accepted_of_words {args word tail : CStr} {words : List CStr} (hargs : nul ∉ args)
    (h : FlagWords args word words tail) (hdangling : ¬ Dangling words tail) :
    (getMbindFlags args).1 = some (flagsOf words, tail) :=
  (getMbindFlags_eq_some hargs).mpr ⟨word, words, tail, h, hdangling, rfl⟩

theorem refused_of_dangling {args word tail : CStr} {words : List CStr} (hargs : nul ∉ args)
    (h : FlagWords args word words tail) (hdangling : Dangling words tail) :
    (getMbindFlags args).1 = none := by
  rw [Option.eq_none_iff_forall_ne_some]
  intro r hr
  obtain ⟨word', words', tail', h', hdangling', -⟩ := (getMbindFlags_eq_some hargs).mp hr
  obtain ⟨-, rfl, rfl⟩ := h.unique h'
  exact hdangling' hdangling

/-! ## The grammar -/

/-- The flags, and how much of the text is left. -/
def flagsResult (args : CStr) : Option (Flags × Nat) :=
  (getMbindFlags args).1.map fun r => (r.1, r.2.length)

/-- The strings of words that are not empty are accepted, and no others; and a tab behind
the argument does what a space does. -/
structure FlagGrammar (args : CStr) : Prop where
  accepts : ∀ r, (getMbindFlags args).1 = some r ↔
    ∃ word words tail, FlagWords args word words tail ∧ [] ∉ word :: words ∧
      r = (flagsOf words, tail)
  tab : ∀ a b, args = a ++ ' ' :: b → (∀ c ∈ a, c ∉ whitespace) →
    flagsResult (a ++ '\t' :: b) = flagsResult args

/-- Words of which one is empty, unless it is the last and at the end of the string. -/
def SlackFlags (args : CStr) : Prop :=
  ∃ word words tail, FlagWords args word words tail ∧ [] ∈ word :: words ∧
    ¬ (words.getLast? = some [] ∧ tail = [])

theorem ends_blank {c : Char} (hc : c ∈ whitespace) (b : CStr) : Ends (c :: b) := by
  rintro d ⟨⟩
  exact hc

/-- A text in front of its first blank. -/
theorem split_at_blank {a b a' tail : CStr} {c : Char} (hc : c ∈ whitespace)
    (ha : ∀ d ∈ a, d ∉ whitespace) (ha' : ∀ d ∈ a', d ∉ whitespace) (htail : Ends tail)
    (h : a ++ c :: b = a' ++ tail) : a = a' ∧ c :: b = tail := by
  have htake : ∀ {a tail : CStr}, (∀ d ∈ a, d ∉ whitespace) → Ends tail →
      (a ++ tail).takeWhile (· ∉ whitespace) = a := by
    intro a tail ha htail
    apply takeWhile_append_stop
    · intro d hd
      simpa using ha d hd
    · intro d hd
      simpa using htail d hd
  have hsame := congrArg (List.takeWhile (· ∉ whitespace)) h
  rw [htake ha (ends_blank hc b), htake ha' htail] at hsame
  subst hsame
  exact ⟨rfl, List.append_cancel_left h⟩

/-- Words in front of a blank are there in front of any other. -/
theorem FlagWords.replace {a b word tail : CStr} {words : List CStr} {c c' : Char}
    (hc : c ∈ whitespace) (hc' : c' ∈ whitespace) (ha : ∀ d ∈ a, d ∉ whitespace)
    (h : FlagWords (a ++ c :: b) word words tail) :
    tail = c :: b ∧ FlagWords (a ++ c' :: b) word words (c' :: b) := by
  have htail : Ends tail := by
    obtain ⟨s, -, -, hs⟩ := h
    exact hs.tail_ends
  obtain ⟨a', htext, ha', hreplace⟩ := h.split
  obtain ⟨rfl, rfl⟩ := split_at_blank hc ha ha' htail htext
  exact ⟨rfl, hreplace _ (ends_blank hc' b)⟩

theorem not_dangling_tab {words : List CStr} (b : CStr) : ¬ Dangling words ('\t' :: b) := by
  rintro ⟨-, htail⟩
  rcases htail with htail | htail <;> cases htail

theorem SlackFlags.not_grammar {args : CStr} (hargs : nul ∉ args) (h : SlackFlags args) :
    ¬ FlagGrammar args := by
  obtain ⟨word, words, tail, hwords, hempty, hend⟩ := h
  intro hgrammar
  by_cases hdangling : Dangling words tail
  · -- refused, but accepted with a tab
    obtain ⟨hlast, htail | htail⟩ := hdangling
    · exact hend ⟨hlast, htail⟩
    · obtain ⟨b, rfl⟩ := List.head?_eq_some_iff.mp htail
      obtain ⟨a, rfl, ha, hreplace⟩ := hwords.split
      have htab : nul ∉ a ++ '\t' :: b := by
        simp only [List.mem_append, List.mem_cons, not_or] at hargs ⊢
        exact ⟨hargs.1, by decide, hargs.2.2⟩
      have hsame := hgrammar.tab a b rfl ha
      rw [flagsResult, flagsResult, refused_of_dangling hargs hwords ⟨hlast, Or.inr rfl⟩,
        accepted_of_words htab (hreplace _ (ends_blank (by decide) b)) (not_dangling_tab b)] at hsame
      cases hsame
  · have haccepts := accepted_of_words hargs hwords hdangling
    obtain ⟨word', words', tail', hwords', hfull, -⟩ := (hgrammar.accepts _).mp haccepts
    obtain ⟨rfl, rfl, -⟩ := hwords.unique hwords'
    exact hfull hempty

theorem flagGrammar_of_not_slack {args : CStr} (hargs : nul ∉ args) (h : ¬ SlackFlags args) :
    FlagGrammar args := by
  constructor
  · intro r
    rw [getMbindFlags_eq_some hargs]
    constructor
    · rintro ⟨word, words, tail, hwords, hdangling, hr⟩
      refine ⟨word, words, tail, hwords, ?_, hr⟩
      intro hempty
      exact h ⟨word, words, tail, hwords, hempty, fun hend => hdangling ⟨hend.1, Or.inl hend.2⟩⟩
    · rintro ⟨word, words, tail, hwords, hfull, hr⟩
      refine ⟨word, words, tail, hwords, ?_, hr⟩
      rintro ⟨hlast, -⟩
      exact hfull (List.mem_cons_of_mem _ (List.mem_of_mem_getLast? hlast))
  · rintro a b rfl ha
    have htab : nul ∉ a ++ '\t' :: b := by
      simp only [List.mem_append, List.mem_cons, not_or] at hargs ⊢
      exact ⟨hargs.1, by decide, hargs.2.2⟩
    by_cases hwords : ∃ word words tail, FlagWords (a ++ ' ' :: b) word words tail
    · obtain ⟨word, words, tail, hwords⟩ := hwords
      have hblank : '\t' ∈ whitespace := by decide
      obtain ⟨rfl, hwords'⟩ := hwords.replace (by decide) hblank ha
      have hdangling : ¬ Dangling words (' ' :: b) := by
        rintro ⟨hlast, -⟩
        refine h ⟨word, words, _, hwords, ?_, fun hend => by cases hend.2⟩
        exact List.mem_cons_of_mem _ (List.mem_of_mem_getLast? hlast)
      rw [flagsResult, flagsResult, accepted_of_words hargs hwords hdangling,
        accepted_of_words htab hwords' (not_dangling_tab b)]
      rfl
    · -- refused either way
      have hnone : ∀ {s : CStr}, nul ∉ s → (∀ word words tail, ¬ FlagWords s word words tail) →
          (getMbindFlags s).1 = none := by
        intro s hs hno
        rw [Option.eq_none_iff_forall_ne_some]
        intro r hr
        obtain ⟨word, words, tail, hwords', -⟩ := (getMbindFlags_eq_some hs).mp hr
        exact hno word words tail hwords'
      have hno : ∀ word words tail, ¬ FlagWords (a ++ ' ' :: b) word words tail :=
        fun word words tail hwords' => hwords ⟨word, words, tail, hwords'⟩
      have hno' : ∀ word words tail, ¬ FlagWords (a ++ '\t' :: b) word words tail :=
        fun word words tail hwords' => hno word words _ (hwords'.replace (by decide) (by decide) ha).2
      rw [flagsResult, flagsResult, hnone hargs hno, hnone htab hno']

/-- The grammar is enforced for the strings without such a word. -/
theorem mbind_flags_iff {args : CStr} (hargs : nul ∉ args) :
    FlagGrammar args ↔ ¬ SlackFlags args := by
  constructor
  · exact fun hgrammar hslack => hslack.not_grammar hargs hgrammar
  · exact flagGrammar_of_not_slack hargs

theorem mbind_flags_iff_all : FlagGrammar "mov+all 0".toList := by
  refine (mbind_flags_iff (by decide)).mpr ?_
  rintro ⟨word, words, tail, hwords, hempty, -⟩
  have hall : FlagWords "mov+all 0".toList "mov".toList ["all".toList] " 0".toList := by
    refine ⟨"+all 0".toList, by decide, by decide, ?_⟩
    have hmore : AllWords ('+' :: ("all".toList ++ " 0".toList)) ["all".toList] " 0".toList :=
      .more (by decide) (.stop (ends_blank (by decide) _))
    exact hmore
  obtain ⟨rfl, rfl, -⟩ := hwords.unique hall
  revert hempty
  decide

/-- No word at all passes for "move", and a plus sign in front of a tab for "+all". -/
theorem empty_flag_accepted :
    (getMbindFlags " 0".toList).1 = some (mpolMfMove, " 0".toList) ∧
      ¬ FlagGrammar " 0".toList ∧
      (getMbindFlags "move+\t0".toList).1 = some (mpolMfMoveAll, "\t0".toList) ∧
      ¬ FlagGrammar "move+\t0".toList := by
  have hnone : SlackFlags " 0".toList := by
    refine ⟨[], [], " 0".toList, ⟨_, rfl, by decide, .stop (ends_blank (by decide) _)⟩, by decide, ?_⟩
    rintro ⟨hlast, -⟩
    cases hlast
  have htab : SlackFlags "move+\t0".toList := by
    refine ⟨"move".toList, [[]], "\t0".toList, ⟨"+\t0".toList, by decide, by decide, ?_⟩, by decide, ?_⟩
    · exact .more (List.nil_prefix) (.stop (ends_blank (by decide) _))
    · rintro ⟨-, htail⟩
      cases htail
  exact ⟨by decide, hnone.not_grammar (by decide), by decide, htab.not_grammar (by decide)⟩

end Memtoy
