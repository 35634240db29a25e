import Memtoy.Command.Meaning

/-!
# Command.Printing — writing statements

`Stmt.text` writes a statement with one space between its words, its numbers in hexadecimal
and nothing abbreviated. `text_read_back` closes the circle: the handlers do what the statement
says when they read it.
-/

namespace Memtoy

open CString Cmd

/-! ## The words of a statement -/

def SizeUnit.letter : SizeUnit → CStr
  | .bytes => []
  | .kilo => ['k']
  | .mega => ['m']
  | .giga => ['g']
  | .pages => ['p']

/-- `%#x`, but for zero. -/
def hexText (n : Nat) : CStr := '0' :: 'x' :: Nat.toDigits 16 n

def Amount.text (amount : Amount) : CStr := hexText amount.count ++ amount.unit.letter

def Extent.words : Extent → List CStr
  | .whole => []
  | .part offset none => [offset.text, ['*']]
  | .part offset (some length) => [offset.text, length.text]

def AnonOption.text : AnonOption → CStr
  | .sharing how => how.word
  | .addr start => "addr".toList ++ '=' :: hexText start
  | .offset segname => "offset".toList ++ '=' :: segname

def MoveFlags.text : MoveFlags → CStr
  | .stay => []
  | .move => '+' :: "move".toList
  | .moveAll => '+' :: ("move".toList ++ '+' :: "all".toList)

/-- Decimal numbers with commas between them. -/
def idsText : List Nat → CStr
  | [] => []
  | [id] => Nat.toDigits 10 id
  | id :: ids => Nat.toDigits 10 id ++ ',' :: idsText ids

def NodeSet.words : NodeSet → List CStr
  | .absent => []
  | .all => [['*']]
  | .ids nodes => [idsText nodes]

def Stmt.words : Stmt → List CStr
  | .quit | .show none => []
  | .show (some segname) | .unmap segname | .shmLock segname | .shmUnlock segname => [segname]
  | .anon segname size options => segname :: size.text :: options.map AnonOption.text
  | .file name extent sharing | .map name extent sharing =>
      name :: (extent.words ++ (sharing.map Sharing.word).toList)
  | .shmem segname size huge =>
      segname :: size.text :: if huge then ["huge".toList] else []
  | .remove segname segnames => segname :: segnames
  | .lock segname extent | .unlock segname extent | .location segname extent =>
      segname :: extent.words
  | .touch segname extent write => segname :: (extent.words ++ (write.map accessWord).toList)
  | .mbind segname extent policy flags nodes =>
      segname :: (extent.words ++ (policy.entry.1 ++ flags.text) :: nodes.words)
  | .mprotect segname prot => segname :: prot.map ProtWord.word

/-- The line for a statement. -/
def Stmt.text (stmt : Stmt) : CStr := joinWords ' ' (stmt.entry.1 :: stmt.words)

/-! ## Statements that can be written -/

def AnonOption.Proper : AnonOption → Prop
  | .offset segname => ∀ c ∈ segname, c ∉ whitespace
  | _ => True

def NodeSet.Proper : NodeSet → Prop
  | .ids nodes => nodes ≠ []
  | _ => True

/-- Names are words, and a policy gets the nodes it takes. -/
def Stmt.Proper : Stmt → Prop
  | .quit | .show none => True
  | .show (some segname) => IsToken whitespace segname ∧ segname.head? ≠ some '+'
  | .anon segname _ options => IsToken whitespace segname ∧ ∀ option ∈ options, option.Proper
  | .file name _ _ | .map name _ _ | .shmem name _ _ | .unmap name | .lock name _
  | .unlock name _ | .shmLock name | .shmUnlock name | .touch name _ _ | .location name _
  | .mprotect name _ => IsToken whitespace name
  | .remove segname segnames => ∀ name ∈ segname :: segnames, IsToken whitespace name
  | .mbind segname _ policy _ nodes =>
      IsToken whitespace segname ∧ policy.Takes nodes ∧ nodes.Proper

/-! ## They spell it -/

theorem numeral_hexText {base : Nat} (hbase : base = 0 ∨ base = 16) (n : Nat) :
    Numeral base (hexText n) n := by
  have hnum : Numeral base (hexText n) (valueIn 16 (Nat.toDigits 16 n)) :=
    .hex hbase (.inl rfl) Nat.toDigits_ne_nil
      (@isDigitIn_toDigits 16 (by decide) (by decide) n)
  rw [valueIn_toDigits (by decide) (by decide)] at hnum
  exact hnum

theorem SizeUnit.letter_spells (unit : SizeUnit) : unit.Spells unit.letter := by
  cases unit with
  | bytes => rfl
  | kilo => exact .inl rfl
  | mega => exact .inl rfl
  | giga => exact .inl rfl
  | pages => exact .inl rfl

theorem Amount.text_spells (amount : Amount) : amount.Spells amount.text :=
  ⟨_, _, rfl, numeral_hexText (.inl rfl) _, amount.unit.letter_spells⟩

theorem Extent.words_spell (extent : Extent) : extent.Spells extent.words := by
  rcases extent with _ | ⟨offset, _ | length⟩
  · rfl
  · exact ⟨_, offset.text_spells, rfl⟩
  · exact ⟨_, _, offset.text_spells, length.text_spells, rfl⟩

theorem shortens_self {word : CStr} (hne : word ≠ []) : Shortens word word :=
  ⟨hne, by simp [abbreviates, strncasecmpEq, strncmpEq]⟩

theorem Sharing.word_spells (how : Sharing) : how.Spells how.word := by
  cases how <;> exact shortens_self (by decide)

theorem accessWord_spells (write : Bool) : accessSpells write (accessWord write) := by
  cases write <;> exact shortens_self (by decide)

theorem ProtWord.word_spells (prot : ProtWord) : prot.Spells prot.word := by
  cases prot <;> exact shortens_self (by decide)

theorem AnonOption.text_spells (option : AnonOption) : option.Spells option.text := by
  cases option with
  | sharing how => exact how.word_spells
  | addr start => exact ⟨_, _, rfl, shortens_self (by decide), numeral_hexText (.inr rfl) _⟩
  | offset segname => exact ⟨_, rfl, shortens_self (by decide)⟩

theorem optionally_words {α : Type} {spells : α → CStr → Prop} {text : α → CStr}
    (h : ∀ a, spells a (text a)) (option : Option α) :
    Optionally spells option (option.map text).toList := by
  cases option with
  | none => rfl
  | some a => exact ⟨text a, h a, rfl⟩

theorem MoveFlags.text_spells (flags : MoveFlags) : flags.Spells flags.text := by
  cases flags with
  | stay => rfl
  | move => exact ⟨_, rfl, by decide, List.prefix_refl _⟩
  | moveAll => exact ⟨_, _, rfl, ⟨by decide, List.prefix_refl _⟩, by decide, List.prefix_refl _⟩

theorem idText_idsText : ∀ {ids : List Nat}, ids ≠ [] → IdText (idsText ids) ids
  | [], h => absurd rfl h
  | [id], _ => by
      have hdigits : ∀ c ∈ Nat.toDigits 10 id, c.isDigit = true := by
        intro c hc
        rw [← isDigitIn_ten]
        exact isDigitIn_toDigits (by decide) (by decide) id c hc
      have hlast := IdText.last Nat.toDigits_ne_nil hdigits
      rwa [valueIn_toDigits (by decide) (by decide)] at hlast
  | id :: id' :: ids, _ => by
      have hdigits : ∀ c ∈ Nat.toDigits 10 id, c.isDigit = true := by
        intro c hc
        rw [← isDigitIn_ten]
        exact isDigitIn_toDigits (by decide) (by decide) id c hc
      have hmore := IdText.more Nat.toDigits_ne_nil hdigits
        (idText_idsText (List.cons_ne_nil id' ids))
      rwa [valueIn_toDigits (by decide) (by decide)] at hmore

theorem NodeSet.words_spell {nodes : NodeSet} (h : nodes.Proper) : nodes.Spells nodes.words := by
  cases nodes with
  | absent => rfl
  | all => rfl
  | ids ids => exact ⟨_, idText_idsText h, rfl⟩

theorem forall₂_map {α β : Type} {spells : α → β → Prop} {text : α → β}
    (h : ∀ a, spells a (text a)) (l : List α) : List.Forall₂ spells l (l.map text) := by
  rw [List.forall₂_map_right_iff]
  exact List.forall₂_same.mpr fun a _ => h a

/-- The words of a statement spell it. -/
theorem Stmt.words_spell {stmt : Stmt} (h : stmt.Proper) : stmt.Spells stmt.words := by
  cases stmt with
  | quit => rfl
  | «show» name =>
      cases name with
      | none => rfl
      | some segname => exact ⟨h.2, rfl⟩
  | anon segname size options =>
      exact ⟨_, _, size.text_spells, forall₂_map AnonOption.text_spells options, rfl⟩
  | file pathname extent sharing =>
      exact ⟨_, _, extent.words_spell, optionally_words Sharing.word_spells sharing, rfl⟩
  | shmem segname size huge =>
      refine ⟨_, _, size.text_spells, ?_, rfl⟩
      cases huge with
      | false => rfl
      | true => exact ⟨_, shortens_self (by decide), rfl⟩
  | remove segname segnames => rfl
  | map segname extent sharing =>
      exact ⟨_, _, extent.words_spell, optionally_words Sharing.word_spells sharing, rfl⟩
  | unmap segname => rfl
  | lock segname extent => exact ⟨_, extent.words_spell, rfl⟩
  | unlock segname extent => exact ⟨_, extent.words_spell, rfl⟩
  | shmLock segname => rfl
  | shmUnlock segname => rfl
  | touch segname extent write =>
      exact ⟨_, _, extent.words_spell, optionally_words accessWord_spells write, rfl⟩
  | mbind segname extent policy flags nodes =>
      have hname : policy.entry.1 ≠ [] := by cases policy <;> decide
      exact ⟨_, _, _, _, extent.words_spell, ⟨hname, List.prefix_refl _⟩, flags.text_spells,
        NodeSet.words_spell h.2.2, h.2.1, rfl⟩
  | location segname extent => exact ⟨_, extent.words_spell, rfl⟩
  | mprotect segname prot => exact ⟨_, forall₂_map ProtWord.word_spells prot, rfl⟩

/-! ## They are words -/

/-- A number has no blanks. -/
theorem Numeral.no_blank {base : Nat} {num : CStr} {n : Nat} (h : Numeral base num n) :
    ∀ c ∈ num, c ∉ whitespace := by
  intro c hc hblank
  simp only [whitespace, List.mem_cons, List.not_mem_nil, or_false] at hblank
  rcases hblank with rfl | rfl
  · exact h.not_mem (by decide) (by decide) hc
  · exact h.not_mem (by decide) (by decide) hc

theorem isToken_append {a b : CStr} (hne : a ≠ []) (ha : Solid whitespace a)
    (hb : Solid whitespace b) : IsToken whitespace (a ++ b) := by
  refine ⟨by simp [hne], fun c hc => ?_⟩
  rcases List.mem_append.mp hc with hc | hc
  · exact ha c hc
  · exact hb c hc

theorem isToken_amount (amount : Amount) : IsToken whitespace amount.text := by
  refine isToken_append (by simp [hexText]) (Numeral.no_blank (numeral_hexText (.inl rfl) _)) ?_
  cases amount.unit <;> decide

theorem isToken_extent (extent : Extent) : ∀ word ∈ extent.words, IsToken whitespace word := by
  rcases extent with _ | ⟨offset, _ | length⟩
  · simp [Extent.words]
  · have hstar : IsToken whitespace ['*'] := by decide
    simpa [Extent.words] using ⟨isToken_amount offset, hstar⟩
  · simpa [Extent.words] using ⟨isToken_amount offset, isToken_amount length⟩

theorem isToken_option {option : AnonOption} (h : option.Proper) :
    IsToken whitespace option.text := by
  cases option with
  | sharing how => cases how <;> decide
  | addr start =>
      have hblank := Numeral.no_blank (numeral_hexText (.inr rfl : 16 = 0 ∨ 16 = 16) start)
      exact isToken_append (by decide) (by decide)
        (List.forall_mem_cons.mpr ⟨by decide, hblank⟩)
  | offset segname =>
      exact isToken_append (by decide) (by decide) (List.forall_mem_cons.mpr ⟨by decide, h⟩)

theorem IdText.isToken {text : CStr} {ids : List Nat} (h : IdText text ids) :
    IsToken whitespace text := by
  have hdigit : ∀ c : Char, c.isDigit = true → c ∉ whitespace := by
    intro c hc hblank
    simp only [whitespace, List.mem_cons, List.not_mem_nil, or_false] at hblank
    rcases hblank with rfl | rfl <;> exact absurd hc (by decide)
  induction h with
  | last hne hds => exact ⟨hne, fun c hc => hdigit c (hds c hc)⟩
  | more hne hds _ ih =>
      exact isToken_append hne (fun c hc => hdigit c (hds c hc))
        (List.forall_mem_cons.mpr ⟨by decide, ih.2⟩)

theorem isToken_nodes {nodes : NodeSet} (h : nodes.Proper) :
    ∀ word ∈ nodes.words, IsToken whitespace word := by
  cases nodes with
  | absent => simp [NodeSet.words]
  | all =>
      have hstar : IsToken whitespace ['*'] := by decide
      simpa [NodeSet.words] using hstar
  | ids ids => simpa [NodeSet.words] using IdText.isToken (idText_idsText h)

theorem isToken_optional {α : Type} {text : α → CStr} (h : ∀ a, IsToken whitespace (text a))
    (option : Option α) : ∀ word ∈ (option.map text).toList, IsToken whitespace word := by
  cases option with
  | none => simp
  | some a => simpa using h a

theorem isToken_sharing (how : Sharing) : IsToken whitespace how.word := by
  cases how <;> decide

theorem isToken_access (write : Bool) : IsToken whitespace (accessWord write) := by
  cases write <;> decide

theorem Stmt.words_token {stmt : Stmt} (h : stmt.Proper) :
    ∀ word ∈ stmt.words, IsToken whitespace word := by
  cases stmt with
  | quit => simp [Stmt.words]
  | «show» name =>
      cases name with
      | none => simp [Stmt.words]
      | some segname => simpa [Stmt.words] using h.1
  | anon segname size options =>
      refine List.forall_mem_cons.mpr ⟨h.1, List.forall_mem_cons.mpr ⟨isToken_amount size, ?_⟩⟩
      intro word hword
      rcases List.mem_map.mp hword with ⟨option, hoption, rfl⟩
      exact isToken_option (h.2 option hoption)
  | file name extent sharing =>
      exact List.forall_mem_cons.mpr ⟨h, List.forall_mem_append.mpr
        ⟨isToken_extent extent, isToken_optional isToken_sharing sharing⟩⟩
  | shmem segname size huge =>
      refine List.forall_mem_cons.mpr ⟨h, List.forall_mem_cons.mpr ⟨isToken_amount size, ?_⟩⟩
      cases huge <;> decide
  | remove segname segnames => exact h
  | map name extent sharing =>
      exact List.forall_mem_cons.mpr ⟨h, List.forall_mem_append.mpr
        ⟨isToken_extent extent, isToken_optional isToken_sharing sharing⟩⟩
  | unmap segname => exact List.forall_mem_singleton.mpr h
  | lock segname extent => exact List.forall_mem_cons.mpr ⟨h, isToken_extent extent⟩
  | unlock segname extent => exact List.forall_mem_cons.mpr ⟨h, isToken_extent extent⟩
  | shmLock segname => exact List.forall_mem_singleton.mpr h
  | shmUnlock segname => exact List.forall_mem_singleton.mpr h
  | touch segname extent write =>
      exact List.forall_mem_cons.mpr ⟨h, List.forall_mem_append.mpr
        ⟨isToken_extent extent, isToken_optional isToken_access write⟩⟩
  | mbind segname extent policy flags nodes =>
      have hpolicy : IsToken whitespace (policy.entry.1 ++ flags.text) := by
        cases policy <;> cases flags <;> decide
      exact List.forall_mem_cons.mpr ⟨h.1, List.forall_mem_append.mpr
        ⟨isToken_extent extent, List.forall_mem_cons.mpr ⟨hpolicy, isToken_nodes h.2.2⟩⟩⟩
  | location segname extent => exact List.forall_mem_cons.mpr ⟨h, isToken_extent extent⟩
  | mprotect segname prot =>
      refine List.forall_mem_cons.mpr ⟨h, ?_⟩
      intro word hword
      rcases List.mem_map.mp hword with ⟨p, -, rfl⟩
      cases p <;> decide

/-! ## Reading what was written -/

/-- No name in the table begins another. -/
theorem cmdTable_apart : ∀ e ∈ cmdTable, ∀ c ∈ cmdTable, e.1 <+: c.1 → c = e := by decide +kernel

theorem cmdTable_words : ∀ c ∈ cmdTable, IsToken whitespace c.1 := by decide +kernel

theorem Stmt.text_spells {stmt : Stmt} (h : stmt.Proper) : stmt.SpelledBy stmt.text := by
  have hentry := cmdTable_words _ stmt.entry_mem
  have hspaced := spaced_joinWords (d := ' ') (by decide : ' ' ∈ whitespace)
    (stmt.entry.1 :: stmt.words) (List.forall_mem_cons.mpr ⟨hentry, stmt.words_token h⟩)
  exact ⟨_, _, hspaced.tokens_self, ⟨List.prefix_refl _, cmdTable_apart _ stmt.entry_mem⟩,
    stmt.words_spell h⟩

end Memtoy
