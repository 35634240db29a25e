import Memtoy.Lib.Scan

/-!
# Phrase — a text as a sequence of words

The words of a text are what `strtok_r` returns one after the other. `Spaced` is the grammar
of the texts that begin and end with a word; each reading function takes one word off such a
text and leaves such a text.
-/

namespace CString

variable {delim : List Char} {word text : CStr} {words : List CStr}

/-- A word: a token `strtok_r` can return. -/
def IsToken (delim : List Char) (word : CStr) : Prop := word ≠ [] ∧ ∀ c ∈ word, c ∉ delim

/-- A text without delimiters. -/
def Solid (delim : List Char) (text : CStr) : Prop := ∀ c ∈ text, c ∉ delim

instance (delim : List Char) (text : CStr) : Decidable (Solid delim text) :=
  List.decidableBAll (fun c => c ∉ delim) text

instance (delim : List Char) (word : CStr) : Decidable (IsToken delim word) :=
  inferInstanceAs (Decidable (word ≠ [] ∧ Solid delim word))

/-- Words with delimiters between them, and none in front or behind. -/
inductive Spaced (delim : List Char) : CStr → List CStr → Prop where
  | nil : Spaced delim [] []
  | last {word : CStr} : IsToken delim word → Spaced delim word [word]
  | more {word gap text : CStr} {words : List CStr} {d : Char} : IsToken delim word → d ∈ delim →
      (∀ c ∈ gap, c ∈ delim) → words ≠ [] → Spaced delim text words →
      Spaced delim (word ++ d :: (gap ++ text)) (word :: words)

namespace Spaced

/-! ## Where it begins and ends -/

theorem isToken (h : Spaced delim text words) : ∀ w ∈ words, IsToken delim w := by
  induction h with
  | nil => simp
  | last hword => simpa using hword
  | more hword _ _ _ _ ih => simpa using ⟨hword, ih⟩

/-- The text begins as its first word does. -/
theorem head (h : Spaced delim text (word :: words)) :
    text.head? = word.head? ∧ word ≠ [] ∧ ∀ c, word.head? = some c → c ∉ delim := by
  have hword : IsToken delim word := h.isToken word List.mem_cons_self
  refine ⟨?_, hword.1, fun c hc => hword.2 c (List.mem_of_mem_head? hc)⟩
  cases h with
  | last => rfl
  | more => rw [List.head?_append_of_ne_nil _ hword.1]

theorem eq_nil (h : Spaced delim text []) : text = [] := by
  cases h
  rfl

theorem ne_nil (h : Spaced delim text (word :: words)) : text ≠ [] := by
  rcases h.head with ⟨hhead, hne, -⟩
  rintro rfl
  rw [List.head?_nil, eq_comm, List.head?_eq_none_iff] at hhead
  exact hne hhead

/-- One word is the whole text. -/
theorem eq_single (h : Spaced delim text [word]) : text = word := by
  cases h with
  | last => rfl
  | more _ _ _ hne => exact absurd rfl hne

theorem first (h : Spaced delim text words) : ∀ c, text.head? = some c → c ∉ delim := by
  intro c hc
  rcases words with _ | ⟨word, words⟩
  · rw [h.eq_nil] at hc
    cases hc
  · rcases h.head with ⟨hhead, -, hdelim⟩
    exact hdelim c (hhead ▸ hc)

/-- There is nothing to skip in front of it. -/
theorem skip (h : Spaced delim text words) : skipSpan delim text = text := by
  rcases text with _ | ⟨c, text⟩
  · rfl
  · simp [skipSpan, h.first c rfl]

/-- What is in front of it can be skipped. -/
theorem skip_gap (h : Spaced delim text words) {gap : CStr} (hgap : ∀ c ∈ gap, c ∈ delim) :
    skipSpan delim (gap ++ text) = text := by
  apply dropWhile_append_stop
  · exact fun c hc => by simpa using hgap c hc
  · exact fun c hc => by simpa using h.first c hc

/-! ## Its words -/

/-- The first word, and what stands behind it. -/
theorem split (h : Spaced delim text (word :: words)) :
    ∃ rest, text = word ++ rest ∧ (∀ c, rest.head? = some c → c ∈ delim) ∧
      Spaced delim (skipSpan delim rest) words ∧
      Spaced delim (skipSpan delim rest.tail) words := by
  cases h with
  | last => exact ⟨[], by simp, by simp, .nil, .nil⟩
  | @more _ gap text words d hword hd hgap _ hrest =>
      refine ⟨d :: (gap ++ text), rfl, ?_, ?_, ?_⟩
      · rintro c ⟨⟩
        exact hd
      · rw [← List.cons_append, hrest.skip_gap (by simpa using ⟨hd, hgap⟩)]
        exact hrest
      · rw [List.tail_cons, hrest.skip_gap hgap]
        exact hrest

/-- `strtok_r` takes the first word off. -/
theorem strtok (h : Spaced delim text (word :: words)) :
    (strtokR delim text).1 = some word ∧
      Spaced delim (skipSpan delim (strtokR delim text).2) words := by
  rcases h.split with ⟨rest, htext, hrest, -, hwords⟩
  have hspan : ∀ c ∈ word, decide (c ∉ delim) = true := by
    intro c hc
    simpa using (h.isToken word List.mem_cons_self).2 c hc
  have hstop : ∀ c, rest.head? = some c → decide (c ∉ delim) = false := by
    intro c hc
    simpa using hrest c hc
  have htok : strtokR delim text = (some word, rest.tail) := by
    simp only [strtokR, h.skip, if_neg h.ne_nil]
    rw [htext, takeWhile_append_stop hspan hstop, dropWhile_append_stop hspan hstop]
  rw [htok]
  exact ⟨rfl, hwords⟩

/-- A byte put in front of a text goes to its first word. -/
theorem push {c : Char} (hc : c ∉ delim) (h : Spaced delim text (word :: words)) :
    Spaced delim (c :: text) ((c :: word) :: words) := by
  have hpush : IsToken delim word → IsToken delim (c :: word) := fun hword =>
    ⟨by simp, by simpa using ⟨hc, hword.2⟩⟩
  cases h with
  | last hword => exact .last (hpush hword)
  | more hword hd hgap hne hrest => exact .more (hpush hword) hd hgap hne hrest

end Spaced

theorem tokens_gap {gap : CStr} (hgap : ∀ c ∈ gap, c ∈ delim) (text : CStr) :
    tokens delim (gap ++ text) = tokens delim text := by
  induction gap with
  | nil => rfl
  | cons d gap ih =>
      rw [List.forall_mem_cons] at hgap
      rw [← ih hgap.2]
      unfold tokens
      rw [List.cons_append, List.splitOnP_cons_eq_if_modifyHead, if_pos (by simpa using hgap.1),
        List.filter_cons_of_neg (by simp)]

theorem tokens_append {d : Char} (hword : IsToken delim word) (hd : d ∈ delim) (text : CStr) :
    tokens delim (word ++ d :: text) = word :: tokens delim text := by
  unfold tokens
  rw [List.splitOnP_append_cons_of_forall_mem (by simpa using hword.2) d (by simpa using hd),
    List.filter_cons_of_pos (by simpa using hword.1)]

theorem tokens_single (hword : IsToken delim word) : tokens delim word = [word] := by
  unfold tokens
  rw [List.splitOnP_eq_singleton (by simpa using hword.2)]
  simp [hword.1]

/-- Its words are the tokens a loop over `strtok_r` meets, with delimiters behind it or not. -/
theorem Spaced.tokens_eq (h : Spaced delim text words) {gap : CStr}
    (hgap : ∀ c ∈ gap, c ∈ delim) : tokens delim (text ++ gap) = words := by
  induction h with
  | nil =>
      rw [List.nil_append, ← List.append_nil gap, tokens_gap hgap]
      rfl
  | last hword =>
      cases gap with
      | nil => rw [List.append_nil, tokens_single hword]
      | cons d gap =>
          rw [List.forall_mem_cons] at hgap
          rw [tokens_append hword hgap.1, ← List.append_nil gap, tokens_gap hgap.2]
          rfl
  | more hword hd hgap' _ _ ih =>
      rw [List.append_assoc, List.cons_append, List.append_assoc, tokens_append hword hd,
        tokens_gap hgap', ih]

/-- Every text is its words with delimiters around them. -/
theorem exists_spaced (delim : List Char) (text : CStr) :
    ∃ pre body post, text = pre ++ (body ++ post) ∧ (∀ c ∈ pre, c ∈ delim) ∧
      (∀ c ∈ post, c ∈ delim) ∧ Spaced delim body (tokens delim text) := by
  have hsplit : ∃ pre body post words, text = pre ++ (body ++ post) ∧ (∀ c ∈ pre, c ∈ delim) ∧
      (∀ c ∈ post, c ∈ delim) ∧ Spaced delim body words := by
    induction text with
    | nil => exact ⟨[], [], [], [], rfl, by simp, by simp, .nil⟩
    | cons c text ih =>
        rcases ih with ⟨pre, body, post, words, rfl, hpre, hpost, hbody⟩
        by_cases hc : c ∈ delim
        · exact ⟨c :: pre, body, post, words, rfl, by simpa using ⟨hc, hpre⟩, hpost, hbody⟩
        · have hsingle : IsToken delim [c] := ⟨by simp, by simpa using hc⟩
          rcases words with _ | ⟨word, words⟩
          · -- there are no words yet
            refine ⟨[], [c], pre ++ post, [[c]], ?_, by simp, ?_, .last hsingle⟩
            · rw [hbody.eq_nil]
              rfl
            · simpa [or_imp, forall_and] using ⟨hpre, hpost⟩
          · rcases pre with _ | ⟨d, gap⟩
            · exact ⟨[], c :: body, post, _, rfl, by simp, hpost, hbody.push hc⟩
            · rw [List.forall_mem_cons] at hpre
              refine ⟨[], [c] ++ d :: (gap ++ body), post, [c] :: word :: words, ?_, by simp,
                hpost, .more hsingle hpre.1 hpre.2 (by simp) hbody⟩
              simp
  rcases hsplit with ⟨pre, body, post, words, rfl, hpre, hpost, hbody⟩
  refine ⟨pre, body, post, rfl, hpre, hpost, ?_⟩
  rw [tokens_gap hpre, hbody.tokens_eq hpost]
  exact hbody

namespace Spaced

theorem tokens_self (h : Spaced delim text words) : tokens delim text = words := by
  rw [← List.append_nil text]
  exact h.tokens_eq (by simp)

/-- A byte that is no delimiter is in one of the words. -/
theorem mem_iff (h : Spaced delim text words) {c : Char} (hc : c ∉ delim) :
    c ∈ text ↔ ∃ w ∈ words, c ∈ w := by
  induction h with
  | nil => simp
  | last => simp
  | more _ hd hgap _ _ ih =>
      have hno : ∀ d ∈ delim, c ≠ d := fun d hd heq => hc (heq ▸ hd)
      have hgap' : ∀ gap : CStr, (∀ d ∈ gap, d ∈ delim) → c ∉ gap := fun gap hgap hmem =>
        hc (hgap c hmem)
      simp [hno _ hd, hgap' _ hgap, ih]

/-- A text has one sequence of words. -/
theorem unique {words' : List CStr} (h : Spaced delim text words)
    (h' : Spaced delim text words') : words = words' := by
  rw [← h.tokens_self, h'.tokens_self]

end Spaced

/-! ## Writing words -/

/-- Words with one delimiter between them. -/
def joinWords (d : Char) (words : List CStr) : CStr := [d].intercalate words

theorem spaced_joinWords {d : Char} (hd : d ∈ delim) :
    ∀ words : List CStr, (∀ w ∈ words, IsToken delim w) → Spaced delim (joinWords d words) words
  | [], _ => .nil
  | [word], h => by
      rw [joinWords, List.intercalate_singleton]
      exact .last (h word List.mem_cons_self)
  | word :: word' :: words, h => by
      rw [List.forall_mem_cons] at h
      have hrest := spaced_joinWords hd (word' :: words) h.2
      have hjoin : joinWords d (word :: word' :: words) =
          word ++ d :: ([] ++ joinWords d (word' :: words)) := by
        rw [joinWords, List.intercalate_cons_cons, List.append_assoc]
        rfl
      rw [hjoin]
      exact .more h.1 hd (by simp) (by simp) hrest

end CString
