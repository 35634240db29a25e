import Memtoy.Command.Language

/-!
# Command.Spelling — the parsers on the words of a statement

What each parser of `commands.c` makes of words that spell something. A handler is taken
apart with `Gives`: its openings and its parsers give a value and nothing happens, until the
segment API is called.
-/

namespace Memtoy

open CString Cmd

namespace Cmd

variable {α β : Type} {w : World} {s : Shell}

/-- `m` gives `a`, and nothing happens. -/
def Gives (m : Cmd α) (w : World) (s : Shell) (a : α) : Prop := m w s = ⟨.next a, s, []⟩

theorem Gives.bind {m : Cmd α} {a : α} (h : Gives m w s a) (f : α → Cmd β) :
    (m >>= f) w s = f a w s := by
  show andThen m f w s = _
  unfold andThen
  rw [h]
  rfl

/-- What follows needs to agree in the world and in the states it is called in. -/
theorem bind_congr_at {m : Cmd α} {f g : α → Cmd β} (h : ∀ a s, f a w s = g a w s) :
    (m >>= f) w s = (m >>= g) w s := by
  show andThen m f w s = andThen m g w s
  unfold andThen
  rcases m w s with ⟨a | e, s', cs⟩
  · simp only [h]
  · rfl

theorem bind_congr_left {m m' : Cmd α} (h : m w s = m' w s) (f : α → Cmd β) :
    (m >>= f) w s = (m' >>= f) w s := by
  show andThen m f w s = andThen m' f w s
  unfold andThen
  rw [h]

theorem segment_congr {op op' : Op} (hop : op = op') (hok : op.Ok) (hok' : op'.Ok) :
    segment op hok w s = segment op' hok' w s := by
  cases hop
  rfl

theorem gives_orError {r : Option α × List Complaint} {a : α} (h : r = (some a, [])) :
    Gives (orError r) w s a := by
  rw [h]
  rfl

theorem gives_next (a : α) : Gives (next a) w s a := rfl

theorem gives_shell : Gives shell w s s := rfl

theorem gives_world : Gives world w s w := rfl

end Cmd

/-! ## Words -/

variable {w : World} {s : Shell} {text word segname : CStr} {words words₁ words₂ : List CStr}

/-- Without a complaint there is nothing but the value. -/
theorem Honest.eq {α : Type} {r : Option α × List Complaint} (h : Honest r) {a : α}
    (ha : r.1 = some a) : r = (some a, []) := Prod.ext ha (h.of_some ha)

theorem nextToken_spaced (h : Spaced whitespace text (word :: words)) :
    ∃ rest, nextToken text = (word, rest) ∧ Spaced whitespace rest words := by
  rcases h.strtok with ⟨htok, hrest⟩
  refine ⟨skipBlanks (strtokR whitespace text).2, ?_, hrest⟩
  rw [nextToken, htok]
  rfl

theorem gives_required (hne : text ≠ []) (argName : CStr) :
    Gives (required text argName) w s () := by
  rw [Gives, required, gives_shell.bind]
  exact gives_orError (by rw [requiredArg, if_pos hne])

theorem gives_takeArg (h : Spaced whitespace (skipBlanks text) (word :: words)) (argName : CStr) :
    ∃ rest, Gives (takeArg text argName) w s (word, rest) ∧ Spaced whitespace rest words := by
  rcases nextToken_spaced h with ⟨rest, htok, hrest⟩
  refine ⟨rest, ?_, hrest⟩
  rw [Gives, takeArg, (gives_required h.ne_nil argName).bind, htok]
  rfl

theorem gives_takeSegName (h : Spaced whitespace (skipBlanks text) (segname :: words)) :
    ∃ rest, Gives (takeSegName text) w s (segname, rest) ∧ Spaced whitespace rest words :=
  gives_takeArg h _

theorem gives_needNuma (h : 0 < s.numaMaxNode) : Gives needNuma w s () := by
  rw [Gives, needNuma, gives_shell.bind]
  exact gives_orError (by rw [numaSupported, if_neg (Int.not_le.mpr h)])

/-! ## Sizes and ranges -/

variable {pagesize : Word} {amount : Amount} {extent : Extent}

theorem SizeUnit.Spells.suffix {unit : SizeUnit} {suf : CStr} (h : unit.Spells suf)
    (pagesize : Word) : Suffix pagesize suf (unit.scale pagesize) := by
  cases unit with
  | bytes =>
      rw [show suf = [] from h]
      exact .none
  | kilo => rcases h with rfl | rfl <;> exact .letter rfl
  | mega => rcases h with rfl | rfl <;> exact .letter rfl
  | giga => rcases h with rfl | rfl <;> exact .letter rfl
  | pages => rcases h with rfl | rfl <;> exact .letter rfl

theorem getScaledValue_spelled (h : amount.Spells word) (hfits : amount.Fits pagesize)
    (what : CStr) :
    getScaledValue pagesize word what = (some (amount.value pagesize), []) := by
  rcases h with ⟨num, suf, hword, hnum, hsuf⟩
  have htext : SizeText pagesize word amount.count (amount.unit.scale pagesize) :=
    ⟨num, suf, hword, hnum, hsuf.suffix pagesize⟩
  have hsize := toNat_sizeKmgp htext
  have hlt : amount.count * (amount.unit.scale pagesize).toNat < 2 ^ 64 - 1 := hfits
  -- where the product fits, the number was not cut
  have hcap : capped amount.count * (amount.unit.scale pagesize).toNat =
      amount.count * (amount.unit.scale pagesize).toNat := by
    rcases Nat.eq_zero_or_pos (amount.unit.scale pagesize).toNat with hzero | hpos
    · rw [hzero, Nat.mul_zero, Nat.mul_zero]
    · have hle := Nat.le_mul_of_pos_right amount.count hpos
      rw [capped, Nat.min_eq_left (by omega)]
  rw [hcap, Nat.mod_eq_of_lt (by omega)] at hsize
  apply (honest_getScaledValue pagesize word what).eq
  rw [getScaledValue_eq_some]
  constructor
  · apply BitVec.eq_of_toNat_eq
    rw [hsize, Amount.value, BitVec.toNat_ofNat, Amount.bytes, Nat.mod_eq_of_lt (by omega)]
  · intro hbogus
    have hval := congrArg BitVec.toNat hbogus
    rw [Amount.value, BitVec.toNat_ofNat, Amount.bytes, Nat.mod_eq_of_lt (by omega)] at hval
    rw [hval] at hlt
    exact absurd hlt (by decide)

theorem startsWithDigit_congr {a b : CStr} (h : a.head? = b.head?) :
    startsWithDigit a = startsWithDigit b := by rw [startsWithDigit, startsWithDigit, h]

/-- A size begins with a digit. -/
theorem Amount.Spells.digit (h : amount.Spells word) : startsWithDigit word = true := by
  rcases h with ⟨num, suf, rfl, hnum, -⟩
  generalize amount.count = n at hnum
  cases hnum with
  | hex => rfl
  | digits hne hds =>
      rcases num with _ | ⟨c, ds⟩
      · exact absurd rfl hne
      · have hbase : plainBase 0 (c :: ds) ≤ 10 := by
          unfold plainBase
          rw [if_pos rfl]
          split <;> omega
        have hc := isDigitIn_mono hbase (hds c List.mem_cons_self)
        rw [isDigitIn_ten] at hc
        exact hc

/-- What is not a range: there is nothing, or a word that does not begin with a digit. -/
def NoRange (words : List CStr) : Prop :=
  ∀ word, words.head? = some word → startsWithDigit word = false

theorem getRange_spelled (hextent : extent.Spells words₁) (hfits : extent.Fits pagesize)
    (hnext : NoRange words₂) (htext : Spaced whitespace text (words₁ ++ words₂)) :
    ∃ rest, getRange pagesize text = (some (extent.range pagesize, rest), []) ∧
      Spaced whitespace rest words₂ ∧ (text = rest ↔ extent = .whole) := by
  cases extent with
  | whole =>
      rw [show words₁ = [] from hextent, List.nil_append] at htext
      refine ⟨text, ?_, htext, by simp⟩
      have hno : startsWithDigit text = false := by
        rcases words₂ with _ | ⟨word, words₂⟩
        · rw [htext.eq_nil]
          rfl
        · rw [startsWithDigit_congr htext.head.1]
          exact hnext word rfl
      rw [getRange, hno]
      rfl
  | part offset length =>
      -- the words of the range, and what the second comes to
      obtain ⟨word, word', rfl, hoffset, hlength⟩ : ∃ word word', words₁ = [word, word'] ∧
          offset.Spells word ∧ getLength pagesize word' =
            (some ((length.map (·.value pagesize)).getD 0), []) := by
        cases length with
        | none =>
            rcases hextent with ⟨word, hword, rfl⟩
            exact ⟨word, _, rfl, hword, rfl⟩
        | some length =>
            rcases hextent with ⟨word, word', hword, hword', rfl⟩
            refine ⟨word, word', rfl, hword, ?_⟩
            have hstar : word'.head? ≠ some '*' := by
              intro hstar
              have hdigit := hword'.digit
              rw [startsWithDigit, hstar] at hdigit
              exact absurd hdigit (by decide)
            rw [getLength, if_neg hstar]
            exact getScaledValue_spelled hword' (hfits.2 length rfl) _
      rcases nextToken_spaced htext with ⟨text', htok, htext'⟩
      rcases nextToken_spaced htext' with ⟨rest, htok', hrest⟩
      have hmoves : text ≠ rest := by
        rintro rfl
        have hlen : words₂.length + 1 + 1 = words₂.length :=
          congrArg List.length (htext.unique hrest)
        omega
      refine ⟨rest, ?_, hrest, by simp [hmoves]⟩
      have hdigit : startsWithDigit text = true := by
        rw [startsWithDigit_congr htext.head.1]
        exact hoffset.digit
      unfold getRange
      rw [if_pos hdigit, htok]
      simp only [getScaledValue_spelled hoffset hfits.1, if_pos htext'.ne_nil, htok', hlength]
      rfl

theorem gives_takeRange (hextent : extent.Spells words₁) (hfits : extent.Fits s.table.g.pagesize)
    (hnext : NoRange words₂) (htext : Spaced whitespace text (words₁ ++ words₂)) :
    ∃ rest, Gives (takeRange text) w s (extent.range s.table.g.pagesize, rest) ∧
      Spaced whitespace rest words₂ ∧ (text = rest ↔ extent = .whole) := by
  rcases getRange_spelled hextent hfits hnext htext with ⟨rest, hrange, hrest⟩
  refine ⟨rest, ?_, hrest⟩
  rw [Gives, takeRange, gives_shell.bind]
  exact gives_orError hrange

theorem gives_takeSize (hsize : amount.Spells word) (hfits : amount.Fits s.table.g.pagesize)
    (htext : Spaced whitespace text (word :: words)) :
    ∃ rest, Gives (takeSize text) w s (amount.value s.table.g.pagesize, rest) ∧
      Spaced whitespace rest words := by
  rcases nextToken_spaced htext with ⟨rest, htok, hrest⟩
  refine ⟨rest, ?_, hrest⟩
  rw [Gives, takeSize, (gives_required htext.ne_nil _).bind, gives_shell.bind, htok]
  exact (gives_orError (getScaledValue_spelled hsize hfits _)).bind _

/-! ## Abbreviations -/

theorem lower_of_abbreviates {full : CStr} (h : abbreviates word full = true) :
    word.map Char.toLower = (full.map Char.toLower ++ [nul]).take word.length := by
  have htake : (word.map Char.toLower ++ [nul]).take word.length = word.map Char.toLower := by
    rw [List.take_append_of_le_length (by simp), List.take_of_length_le (by simp)]
  rw [abbreviates, strncasecmpEq, strncmpEq, decide_eq_true_eq, htake] at h
  exact h

/-- An abbreviation begins with the letter the word begins with. -/
theorem head_of_abbreviates {c d : Char} {t full : CStr}
    (h : abbreviates (c :: t) (d :: full) = true) : c.toLower = d.toLower := by
  have hlower := lower_of_abbreviates h
  simp only [List.map_cons, List.cons_append, List.length_cons, List.take_succ_cons,
    List.cons.injEq] at hlower
  exact hlower.1

theorem Shortens.head {d : Char} {full : CStr} (h : Shortens word (d :: full)) :
    ∃ c t, word = c :: t ∧ c.toLower = d.toLower := by
  rcases word with _ | ⟨c, t⟩
  · exact absurd rfl h.1
  · exact ⟨c, t, rfl, head_of_abbreviates h.2⟩

/-- What shortens one word does not shorten another with a different first letter. -/
theorem Shortens.excludes {d e : Char} {full : CStr} (h : Shortens word (d :: full))
    (hne : d.toLower ≠ e.toLower) (rest other : CStr) :
    abbreviates (word ++ rest) (e :: other) = false := by
  rw [← Bool.not_eq_true]
  intro habbrev
  rcases h.head with ⟨c, t, rfl, hc⟩
  exact hne (hc.symm.trans (head_of_abbreviates habbrev))

theorem Shortens.excludes_self {d e : Char} {full : CStr} (h : Shortens word (d :: full))
    (hne : d.toLower ≠ e.toLower) (other : CStr) : abbreviates word (e :: other) = false := by
  rw [← h.excludes hne [] other, List.append_nil]

/-- The bytes of an abbreviation are those of the word, in either case. -/
theorem Shortens.mem {full : CStr} (h : Shortens word full) {c : Char} (hc : c ∈ word) :
    c.toLower ∈ full.map Char.toLower ++ [nul] := by
  have hmem := List.mem_map_of_mem (f := Char.toLower) hc
  rw [lower_of_abbreviates h.2] at hmem
  exact List.mem_of_mem_take hmem

/-- A digit is no letter. -/
theorem Shortens.no_digit {d : Char} {full : CStr} (h : Shortens word (d :: full))
    (hd : 'a'.toNat ≤ d.toLower.toNat) : startsWithDigit word = false := by
  rcases h.head with ⟨c, t, rfl, hc⟩
  show c.isDigit = false
  rw [← Bool.not_eq_true]
  intro hdigit
  have hle : c.toNat ≤ 57 := by
    simp only [Char.isDigit, Bool.and_eq_true, decide_eq_true_eq] at hdigit
    exact hdigit.2
  have ha : 'a'.toNat = 97 := rfl
  rcases eq_of_toLower hc with heq | heq
  · rw [heq] at hle
    omega
  · omega

/-! ## Options and flags -/

theorem getShared_spelled {how : Sharing} (h : how.Spells word) :
    getShared word = (some how.flags, []) := by
  cases how with
  | shared =>
      have hword : abbreviates word wordShared = true := h.2
      rw [getShared, if_pos hword]
      rfl
  | notShared =>
      have hword : abbreviates word wordPrivate = true := h.2
      have hshared : abbreviates word wordShared = false := Shortens.excludes_self h (by decide) _
      rw [getShared, hshared, if_neg (by simp), if_pos h.1, if_neg (not_not.mpr hword)]
      rfl

theorem Sharing.Spells.no_digit {how : Sharing} (h : how.Spells word) :
    startsWithDigit word = false := by
  cases how with
  | shared => exact Shortens.no_digit h (by decide)
  | notShared => exact Shortens.no_digit h (by decide)

theorem accessSpells.letter {write : Bool} (h : accessSpells write word) :
    ∃ c t, word = c :: t ∧ c.toLower = if write then 'w' else 'r' := by
  cases write with
  | true => exact Shortens.head (d := 'w') h
  | false => exact Shortens.head (d := 'r') h

theorem getAccess_spelled {write : Bool} (h : accessSpells write word) :
    getAccess word = (some write, []) := by
  rcases h.letter with ⟨c, t, rfl, hc⟩
  cases write with
  | true => simp [getAccess, hc]
  | false => simp [getAccess, hc]

theorem accessSpells.no_digit {write : Bool} (h : accessSpells write word) :
    startsWithDigit word = false := by
  cases write with
  | true => exact Shortens.no_digit h (by decide)
  | false => exact Shortens.no_digit h (by decide)

theorem getProt_spelled {prot : List ProtWord} (h : List.Forall₂ ProtWord.Spells prot words) :
    ∀ flags, getProt words flags = if .none ∈ prot then 0 else
      prot.foldl (fun flags word => flags ||| word.flag) flags := by
  induction h with
  | nil => exact fun flags => rfl
  | @cons p word prot words hword _ ih =>
      intro flags
      cases p with
      | none =>
          have hword' : abbreviates word "none".toList = true := hword.2
          rw [getProt, if_pos hword', if_pos List.mem_cons_self]
      | read =>
          have hword' : abbreviates word "read".toList = true := hword.2
          have hnone : abbreviates word "none".toList = false :=
            Shortens.excludes_self (d := 'r') hword (by decide) _
          rw [getProt, if_neg (by rw [hnone]; decide), if_pos hword', ih]
          simp [ProtWord.flag]
      | write =>
          have hword' : abbreviates word "write".toList = true := hword.2
          have hnone : abbreviates word "none".toList = false :=
            Shortens.excludes_self (d := 'w') hword (by decide) _
          have hread : abbreviates word "read".toList = false :=
            Shortens.excludes_self (d := 'w') hword (by decide) _
          rw [getProt, if_neg (by rw [hnone]; decide), if_neg (by rw [hread]; decide),
            if_pos hword', ih]
          simp [ProtWord.flag]
      | exec =>
          have hword' : abbreviates word "exec".toList = true := hword.2
          have hnone : abbreviates word "none".toList = false :=
            Shortens.excludes_self (d := 'e') hword (by decide) _
          have hread : abbreviates word "read".toList = false :=
            Shortens.excludes_self (d := 'e') hword (by decide) _
          have hwrite : abbreviates word "write".toList = false :=
            Shortens.excludes_self (d := 'e') hword (by decide) _
          rw [getProt, if_neg (by rw [hnone]; decide), if_neg (by rw [hread]; decide),
            if_neg (by rw [hwrite]; decide), if_pos hword', ih]
          simp [ProtWord.flag]

/-- The name in front of an equals sign is split off. -/
theorem strtokR_option {name full : CStr} {d : Char} (value : CStr)
    (hname : Shortens name (d :: full)) (hfull : '=' ∉ (d :: full).map Char.toLower) :
    strtokR ['='] (name ++ '=' :: value) = (some name, value) ∧
      (name ++ '=' :: value).takeWhile (· = '=') = [] := by
  have hno : '=' ∉ name := by
    intro hmem
    rcases List.mem_append.mp (hname.mem hmem) with hc | hc
    · exact hfull hc
    · exact absurd hc (by decide)
  rcases hname.head with ⟨c, t, rfl, -⟩
  have hc : c ≠ '=' := fun heq => hno (heq ▸ List.mem_cons_self)
  have hspan : ∀ x ∈ c :: t, decide (x ∉ ['=']) = true := by
    intro x hx
    simpa using fun heq : x = '=' => hno (heq ▸ hx)
  have hstop : ∀ x, ('=' :: value).head? = some x → decide (x ∉ ['=']) = false := by
    rintro x ⟨⟩
    decide
  constructor
  · have hskip : skipSpan ['='] (c :: t ++ '=' :: value) = c :: t ++ '=' :: value := by
      simp [skipSpan, hc]
    simp only [strtokR, hskip, takeWhile_append_stop hspan hstop, dropWhile_append_stop hspan hstop]
    rw [if_neg (by simp)]
    rfl
  · simp [hc]

theorem strtol_numeral {num : CStr} {n : Nat} (h : Numeral 16 num n) (hn : n < 2 ^ 63) :
    (strtol num 16).1 = BitVec.ofNat 64 n := by
  have hspaces : ∀ c ∈ ([] : CStr), isSpace c = true := by simp
  have hstops : Stops 16 [] := by
    intro c hc
    cases hc
  have hscan := scanNumber_subject (Or.inr (Or.inr rfl)) hspaces Sign.none h hstops
  simp only [List.nil_append, List.append_nil] at hscan
  unfold strtol
  rw [hscan]
  simp only [Bool.false_eq_true, if_false]
  rw [min_eq_right (by omega)]
  exact BitVec.ofInt_natCast 64 n

/-- An option with a value is neither of the two words. -/
theorem anonOption_value {name full value : CStr} {d : Char} (hname : Shortens name (d :: full))
    (hfull : '=' ∉ (d :: full).map Char.toLower) (hs : d.toLower ≠ 's') (hp : d.toLower ≠ 'p')
    (range : Range) (flags : SegFlags) :
    anonOption (name ++ '=' :: value) range flags =
      if abbreviates name "addr".toList then
        next ({ range with offset := (strtol value 16).1 }, flags)
      else if abbreviates name "offset".toList then
        placeAnon [.offset value] range flags
      else next (range, flags) := by
  rcases strtokR_option value hname hfull with ⟨htok, hspan⟩
  have hshared : abbreviates (name ++ '=' :: value) wordShared = false :=
    hname.excludes (e := 's') hs _ _
  have hprivate : abbreviates (name ++ '=' :: value) wordPrivate = false :=
    hname.excludes (e := 'p') hp _ _
  rw [anonOption, hshared, hprivate, if_neg (by simp), if_neg (by simp), htok, hspan]
  simp only [List.length_nil, Nat.zero_add]
  rfl

theorem anonOption_spelled {option : AnonOption} (h : option.Spells word) (hfits : option.Fits)
    (range : Range) (flags : SegFlags) :
    anonOption word range flags = placeAnon [option] range flags := by
  cases option with
  | sharing how =>
      cases how with
      | shared =>
          have hword : abbreviates word wordShared = true := h.2
          rw [anonOption, if_pos hword]
          rfl
      | notShared =>
          have hword : abbreviates word wordPrivate = true := h.2
          have hshared : abbreviates word wordShared = false :=
            Shortens.excludes_self h (by decide) _
          rw [anonOption, hshared, if_neg (by simp), if_pos hword]
          rfl
  | addr start =>
      rcases h with ⟨name, num, rfl, hname, hnum⟩
      have hword : abbreviates name "addr".toList = true := hname.2
      rw [anonOption_value (d := 'a') hname (by decide) (by decide) (by decide), if_pos hword,
        strtol_numeral hnum hfits]
      rfl
  | offset segname =>
      rcases h with ⟨name, rfl, hname⟩
      have hword : abbreviates name "offset".toList = true := hname.2
      have hno : abbreviates name "addr".toList = false :=
        Shortens.excludes_self (d := 'o') hname (by decide) _
      rw [anonOption_value (d := 'o') hname (by decide) (by decide) (by decide), hno,
        if_neg (by simp), if_pos hword]

theorem placeAnon_cons (option : AnonOption) (options : List AnonOption) (range : Range)
    (flags : SegFlags) :
    placeAnon (option :: options) range flags =
      placeAnon [option] range flags >>= fun r => placeAnon options r.1 r.2 := by
  cases option with
  | sharing how => rfl
  | addr start => rfl
  | offset before =>
      funext w s
      simp only [placeAnon, bind, andThen, callSegmentRange]
      cases (segmentRange s.table.g before).1 with
      | none => rfl
      | some range => rfl

theorem anonOptions_spelled {options : List AnonOption}
    (h : List.Forall₂ AnonOption.Spells options words) (hfits : ∀ option ∈ options, option.Fits) :
    ∀ range flags, anonOptions words range flags = placeAnon options range flags := by
  induction h with
  | nil => exact fun range flags => rfl
  | @cons option word options words hword _ ih =>
      intro range flags
      rw [List.forall_mem_cons] at hfits
      rw [placeAnon_cons, anonOptions, anonOption_spelled hword hfits.1]
      congr 1
      funext r
      exact ih hfits.2 r.1 r.2

/-! ## Policies -/

variable {policy : PolicyName} {flags : MoveFlags} {nodes : NodeSet} {pol mods rest : CStr}

/-- Policies have different first letters. -/
theorem policies_head : ∀ p ∈ policies, ∀ q ∈ policies, p.1.head? = q.1.head? → p = q := by decide

theorem Begins.head {full : CStr} (h : Begins word full) : word.head? = full.head? := by
  rcases h with ⟨hne, t, rfl⟩
  rw [List.head?_append_of_ne_nil _ hne]

theorem PolicyName.entry_mem (policy : PolicyName) : policy.entry ∈ policies := by
  cases policy <;> decide

theorem getMbindPolicy_spelled (h : Begins pol policy.entry.1) (hnul : nul ∉ pol ++ rest)
    (hrest : ∀ c, rest.head? = some c → c ∈ mbindReject) :
    getMbindPolicy (pol ++ rest) = (policy.entry.2, some rest, []) := by
  have hplain : ∀ p ∈ policies, Solid mbindReject p.1 := by decide
  have hpol : ∀ c ∈ pol, c ∉ mbindReject := fun c hc =>
    hplain _ policy.entry_mem c (h.2.subset hc)
  have htext : policyText (pol ++ rest) = pol := takeWhile_word hpol hrest
  rcases hfind : findPolicy (pol ++ rest) with _ | flag
  · have hnone := (findPolicy_eq_none hnul).mp hfind policy.entry policy.entry_mem
    rw [htext] at hnone
    exact absurd h.2 hnone
  · rcases findPolicy_eq_some hnul hfind with ⟨name, hmem, hbegins⟩
    rw [htext] at hbegins
    have hhead : name.head? = policy.entry.1.head? :=
      (Begins.head ⟨h.1, hbegins⟩).symm.trans h.head
    have hentry := policies_head (name, flag) hmem _ policy.entry_mem hhead
    rw [getMbindPolicy, hfind, dropWhile_word hpol hrest, ← hentry]

theorem moveFlags_spelled (h : flags.Spells mods) (hrest : Ends rest) (hnul : nul ∉ mods ++ rest)
    (hne : flags ≠ .stay) :
    (mods ++ rest).head? = some '+' ∧
      getMbindFlags (mods ++ rest).tail = (some (flags.flags, rest), []) := by
  cases flags with
  | stay => exact absurd rfl hne
  | move =>
      rcases h with ⟨move, rfl, hmove⟩
      refine ⟨rfl, (honest_getMbindFlags _).eq ?_⟩
      have hwords : FlagWords (move ++ rest) move [] rest := ⟨rest, rfl, hmove.2, .stop hrest⟩
      refine accepted_of_words ?_ hwords (by simp [Dangling])
      intro hmem
      exact hnul (List.mem_cons_of_mem _ hmem)
  | moveAll =>
      rcases h with ⟨move, all, rfl, hmove, hall⟩
      refine ⟨rfl, (honest_getMbindFlags _).eq ?_⟩
      have hwords : FlagWords (move ++ '+' :: (all ++ rest)) move [all] rest :=
        ⟨'+' :: (all ++ rest), rfl, hmove.2, .more hall.2 (.stop hrest)⟩
      have hdangling : ¬ Dangling [all] rest := by
        rintro ⟨hlast, -⟩
        rw [List.getLast?_singleton, Option.some.injEq] at hlast
        exact hall.1 hlast
      rw [List.cons_append, List.tail_cons, List.append_assoc]
      refine accepted_of_words ?_ hwords hdangling
      intro hmem
      apply hnul
      rw [List.cons_append, List.append_assoc]
      exact List.mem_cons_of_mem _ hmem

/-- What follows the flags does not begin with a plus sign. -/
theorem NodeSet.Spells.head (h : nodes.Spells words) (htext : Spaced whitespace text words) :
    text.head? ≠ some '+' := by
  cases nodes with
  | absent =>
      rw [show words = [] from h] at htext
      rw [htext.eq_nil]
      simp
  | all =>
      rw [show words = [['*']] from h] at htext
      rw [htext.eq_single]
      decide
  | ids ids =>
      rcases h with ⟨word, hids, rfl⟩
      rw [htext.eq_single]
      rcases word with _ | ⟨c, t⟩
      · exact absurd hids (not_idText_nil ids)
      · intro hplus
        have hdigit := hids.isDigit_head
        rw [List.head?_cons, Option.some.injEq] at hplus
        rw [hplus] at hdigit
        exact absurd hdigit (by decide)

theorem PolicyName.takes_absent (h : policy.Takes nodes) :
    nodes = .absent ↔ policy.entry.2 = mpolDefault ∨ policy.entry.2 = mpolNoop := by
  cases policy with
  | default => exact iff_of_true h (.inl rfl)
  | noop => exact iff_of_true h (.inr rfl)
  | preferred => exact iff_of_false h (by decide)
  | interleaved => exact iff_of_false h (by decide)
  | bind =>
      rcases h with ⟨ids, rfl⟩
      exact iff_of_false (by simp) (by decide)

theorem getArgNodemask_spelled {numaMaxNode : Int} (h : nodes.Spells words)
    (htakes : policy.Takes nodes) (hmax : numaMaxNode < 2 ^ 31)
    (hids : ∀ ids, nodes = .ids ids → ∀ id ∈ ids, (id : Int) ≤ numaMaxNode)
    (htext : Spaced whitespace text words) (cmdName : CStr) :
    ∃ mask, getArgNodemask cmdName numaMaxNode text policy.entry.2 = (some mask, []) ∧
      mask.map nodeBits = nodes.mask := by
  have habsent := PolicyName.takes_absent htakes
  rw [or_iff_not_and_not] at habsent
  cases nodes with
  | absent =>
      refine ⟨none, ?_, rfl⟩
      rw [getArgNodemask, if_neg (habsent.mp rfl)]
  | all =>
      -- the star, for the policies that allow it
      have hgiven := not_not.mp (mt habsent.mpr (by simp))
      rw [show words = [['*']] from h] at htext
      have hstar : policy.entry.2 = mpolInterleave ∨ policy.entry.2 = mpolPreferred := by
        cases policy with
        | default => cases htakes
        | noop => cases htakes
        | bind => rcases htakes with ⟨_, hc⟩; cases hc
        | preferred => exact .inr rfl
        | interleaved => exact .inl rfl
      refine ⟨none, ?_, rfl⟩
      rw [htext.eq_single, getArgNodemask, if_pos hgiven, requiredArg, if_pos (by simp)]
      simp only [List.head?_cons, ne_eq, not_true_eq_false, if_false, List.tail_cons]
      rw [if_neg]
      tauto
  | ids ids =>
      have hgiven := not_not.mp (mt habsent.mpr (by simp))
      rcases h with ⟨word, htextids, rfl⟩
      have hnodemask : getNodemask numaMaxNode word = (some (ids.map narrowed), []) := by
        apply (honest_getIds _ _ _ _ _ _ _ _).eq
        rw [getIds_eq_some _ _ _ _ _ _ _ _ _ (Nat.lt_succ_self _)]
        refine ⟨ids, htextids, ?_, by simp⟩
        intro id hid
        have hle := hids ids rfl id hid
        rw [narrowed_of_lt (by omega)]
        exact hle
      have hnarrow : ids.map narrowed = ids.map Int.ofNat := by
        apply List.map_congr_left
        intro id hid
        have hle := hids ids rfl id hid
        exact narrowed_of_lt (by omega)
      refine ⟨some (ids.map narrowed), ?_, by rw [hnarrow]; rfl⟩
      have hstar : word.head? ≠ some '*' := by
        rcases word with _ | ⟨c, t⟩
        · simp
        · intro hstar
          have hdigit := htextids.isDigit_head
          rw [List.head?_cons, Option.some.injEq] at hstar
          rw [hstar] at hdigit
          exact absurd hdigit (by decide)
      rw [htext.eq_single, getArgNodemask, if_pos hgiven, requiredArg,
        if_pos (htext.eq_single ▸ htext.ne_nil)]
      simp only [if_pos hstar, hnodemask]
      rfl

end Memtoy
