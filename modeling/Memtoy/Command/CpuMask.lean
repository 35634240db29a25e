import Memtoy.Command.Ids

/-!
# Command.CpuMask — cpu sets as text

`get_cpuset_from_mask` reads a comma-separated list of hexadecimal chunks, the high one
first, and `show_cpus` prints one. What the parser accepts is characterised by `IsChunk`,
what it means to accept by `IsHexChunk`: it takes a chunk for a mask if it starts with a
zero or has an `x` next, and drops the high bits of a chunk that has more than 32.
-/

namespace Memtoy

open CString Words

/-! ## The grammar -/

/-- The parts of a comma-separated list, with or without a comma at its end. -/
inductive Items : CStr → List CStr → Prop where
  | nil : Items [] []
  | last {num : CStr} : num ≠ [] → ',' ∉ num → Items num [num]
  | more {num s : CStr} {nums : List CStr} : ',' ∉ num → Items s nums →
      Items (num ++ ',' :: s) (num :: nums)

/-- The digits of a chunk, without the prefix if it has one. -/
def chunkDigits (num : CStr) : CStr := if hexPrefix num then num.drop 2 else num

def chunkValue (num : CStr) : Nat := valueIn 16 (chunkDigits num)

/-- A chunk the parser takes: hexadecimal digits behind `0x` or a zero. -/
structure IsChunk (num : CStr) : Prop where
  zero : num.head? = some '0'
  digits : ∀ c ∈ chunkDigits num, isDigitIn 16 c = true

/-- A chunk as the help text has it. -/
structure IsHexChunk (num : CStr) : Prop where
  hexPrefix : hexPrefix num = true
  digits : ∀ c ∈ num.drop 2, isDigitIn 16 c = true

/-- The 32 bits kept of a chunk. -/
def chunkWord (num : CStr) : BitVec 32 :=
  (BitVec.ofNat 64 (capped (chunkValue num))).truncate 32

/-- The text and the parts of a list determine each other. -/
theorem Items.unique {s : CStr} {nums nums' : List CStr} (h : Items s nums) (h' : Items s nums') :
    nums = nums' := by
  have hspan : ∀ {num rest : CStr}, ',' ∉ num →
      (num ++ ',' :: rest).takeWhile (· ≠ ',') = num := by
    intro num rest hno
    apply takeWhile_append_stop
    · intro c hc
      simpa using fun heq : c = ',' => hno (heq ▸ hc)
    · simp
  induction h generalizing nums' with
  | nil =>
      generalize htext : ([] : CStr) = text at h'
      cases h' with
      | nil => rfl
      | last hne _ => exact absurd htext.symm hne
      | more _ _ => exact absurd htext (by simp)
  | @last num hne hno =>
      generalize htext : num = text at h'
      cases h' with
      | nil => exact absurd htext hne
      | last _ _ => rfl
      | more _ _ =>
          rw [htext] at hno
          exact absurd (by simp) hno
  | @more num s nums hno _ ih =>
      generalize htext : num ++ ',' :: s = text at h'
      cases h' with
      | nil => exact absurd htext (by simp)
      | last _ hno' =>
          rw [← htext] at hno'
          exact absurd (by simp) hno'
      | @more num' s' nums' hno' hs' =>
          have hsame := congrArg (List.takeWhile (· ≠ ',')) htext
          rw [hspan hno, hspan hno'] at hsame
          subst hsame
          cases List.append_cancel_left htext
          rw [ih hs']

theorem hexPrefix_cases {s : CStr} (h : hexPrefix s = true) :
    ∃ x d t, s = '0' :: x :: d :: t ∧ (x = 'x' ∨ x = 'X') ∧ isDigitIn 16 d = true := by
  unfold hexPrefix at h
  split at h
  · next x d t =>
    rw [Bool.and_eq_true, decide_eq_true_eq] at h
    exact ⟨x, d, t, rfl, h.1, h.2⟩
  · cases h

theorem IsHexChunk.isChunk {num : CStr} (h : IsHexChunk num) : IsChunk num := by
  obtain ⟨x, d, t, rfl, -, -⟩ := hexPrefix_cases h.hexPrefix
  refine ⟨rfl, ?_⟩
  rw [chunkDigits, if_pos h.hexPrefix]
  exact h.digits

/-- A chunk is a number to `strtoul`. -/
theorem IsChunk.numeral {num : CStr} (h : IsChunk num) : Numeral 16 num (chunkValue num) := by
  have hds := h.digits
  unfold chunkValue chunkDigits at *
  by_cases hpre : hexPrefix num = true
  · rw [if_pos hpre] at hds ⊢
    obtain ⟨x, d, t, rfl, hx, -⟩ := hexPrefix_cases hpre
    exact .hex (Or.inr rfl) hx (by simp) hds
  · rw [if_neg hpre] at hds ⊢
    refine .digits ?_ hds
    rintro rfl
    cases h.zero

/-- The numbers to `strtoul` that start with a zero are chunks. -/
theorem isChunk_of_numeral {num : CStr} {value : Nat} (h : Numeral 16 num value)
    (hzero : num.head? = some '0') : IsChunk num ∧ value = chunkValue num := by
  cases h with
  | @hex x ds _ hx hne hds =>
      obtain ⟨d, t, rfl⟩ := List.exists_cons_of_ne_nil hne
      have hpre : hexPrefix ('0' :: x :: d :: t) = true := by
        show ((decide (x = 'x' ∨ x = 'X')) && isDigitIn 16 d) = true
        rw [hds d List.mem_cons_self, decide_eq_true hx]
        rfl
      have hdigits : chunkDigits ('0' :: x :: d :: t) = d :: t := by
        rw [chunkDigits, if_pos hpre]
        rfl
      refine ⟨⟨hzero, ?_⟩, ?_⟩
      · rw [hdigits]
        exact hds
      · rw [chunkValue, hdigits]
  | digits hne hds =>
      have hpre : hexPrefix num = false := by
        rw [← List.append_nil num]
        exact not_hexPrefix hne hds (by simp)
      have hdigits : chunkDigits num = num := by
        rw [chunkDigits, hpre]
        rfl
      refine ⟨⟨hzero, ?_⟩, ?_⟩
      · rw [hdigits]
        exact hds
      · rw [chunkValue, hdigits]
        rfl

theorem IsChunk.no_comma {num : CStr} (h : IsChunk num) : ',' ∉ num :=
  h.numeral.not_mem (by decide) (by decide)

/-! ## The loop -/

/-- `if (nr_chunks || bits) chunk[nr_chunks++] = bits;` -/
def pushChunk (chunk : List (BitVec 32)) (bits : BitVec 32) : List (BitVec 32) :=
  if chunk ≠ [] ∨ bits ≠ 0#32 then chunk ++ [bits] else chunk

theorem length_pushChunk (chunk : List (BitVec 32)) (bits : BitVec 32) :
    (pushChunk chunk bits).length ≤ chunk.length + 1 := by
  unfold pushChunk
  split <;> simp

theorem foldl_pushChunk_append {chunk : List (BitVec 32)} (hne : chunk ≠ []) (ws : List (BitVec 32)) :
    ws.foldl pushChunk chunk = chunk ++ ws := by
  induction ws generalizing chunk with
  | nil => simp
  | cons bits ws ih =>
      have hpush : pushChunk chunk bits = chunk ++ [bits] := by simp [pushChunk, hne]
      rw [List.foldl_cons, hpush, ih (by simp), List.append_assoc]
      rfl

/-- The chunks kept are those from the first that is not zero. -/
theorem foldl_pushChunk (ws : List (BitVec 32)) :
    ws.foldl pushChunk [] = ws.dropWhile (· = 0) := by
  induction ws with
  | nil => rfl
  | cons bits ws ih =>
      by_cases hzero : bits = 0
      · have hpush : pushChunk [] bits = [] := by simp [pushChunk, hzero]
        rw [List.foldl_cons, hpush, ih, List.dropWhile_cons_of_pos (by simpa using hzero)]
      · have hpush : pushChunk [] bits = [bits] := by simpa [pushChunk] using hzero
        rw [List.foldl_cons, hpush, foldl_pushChunk_append (by simp),
          List.dropWhile_cons_of_neg (by simpa using hzero)]
        rfl

/-- One turn, for a chunk that starts with a zero. -/
theorem maskChunks_zero {num rest : CStr} (hzero : num.head? = some '0') {word : Word}
    (hread : strtoul (num ++ rest) 16 = (word, rest)) (fuel : Nat) (chunk : List (BitVec 32)) :
    maskChunks (fuel + 1) (num ++ rest) chunk =
      if ncpuwords ≤ chunk.length then (none, [.tooManyCpus maxCpuId])
      else
        match rest with
        | [] => (some (pushChunk chunk (word.truncate 32)), [])
        | ',' :: args => maskChunks fuel args (pushChunk chunk (word.truncate 32))
        | _ => (none, [.expectedComma]) := by
  cases num with
  | nil => cases hzero
  | cons c t =>
      cases hzero
      rw [List.cons_append] at hread ⊢
      have hgo : ¬ ('0' ≠ '0' ∧ ((t ++ rest).head?.map Char.toLower) ≠ some 'x') :=
        fun h => h.1 rfl
      rw [maskChunks, if_neg hgo, hread]
      rfl

/-- What `strtoul` leaves of a text that starts with another byte than zero and goes on
with an `x`: all of it, or all but that byte. -/
theorem rest_of_no_zero {c x : Char} (hc : c ≠ '0') (hx : x = 'x' ∨ x = 'X') (t : CStr) :
    (strtoul (c :: x :: t) 16).2 = c :: x :: t ∨ (strtoul (c :: x :: t) 16).2 = x :: t := by
  show (scanNumber (c :: x :: t) 16).rest = _ ∨ (scanNumber (c :: x :: t) 16).rest = _
  rcases scanNumber_cases 16 (c :: x :: t) with hno | ⟨pre, hpre, sp, sg, num, rfl, hsp, hsg, hnum⟩
  · rw [hno]
    exact Or.inl rfl
  · refine Or.inr ?_
    generalize (scanNumber (c :: x :: t) 16).rest = rest at hpre ⊢
    generalize (scanNumber (c :: x :: t) 16).neg = neg at hsg
    generalize (scanNumber (c :: x :: t) 16).value = value at hnum
    obtain ⟨d, num', rfl, hd⟩ := hnum.head (Or.inr (Or.inr rfl))
    -- `x` is no white space, no sign and no digit
    have hspace : isSpace x = false := by
      rcases hx with rfl | rfl <;> decide
    have hdigit : isDigitIn 16 x = false := by
      rcases hx with rfl | rfl <;> decide
    have hxd : x ≠ d := by
      rintro rfl
      rw [hdigit] at hd
      cases hd
    have hsign : x ≠ '+' ∧ x ≠ '-' := by
      rcases hx with rfl | rfl <;> decide
    match sp, hsp with
    | a :: b :: sp, hsp =>
        injection hpre with _ hpre
        injection hpre with hxb _
        have hb := hsp b (by simp)
        rw [← hxb, hspace] at hb
        cases hb
    | [a], _ =>
        injection hpre with _ hpre
        cases hsg with
        | none =>
            injection hpre with hxd' _
            exact absurd hxd' hxd
        | plus =>
            injection hpre with hx' _
            exact absurd hx' hsign.1
        | minus =>
            injection hpre with hx' _
            exact absurd hx' hsign.2
    | [], _ =>
        cases hsg with
        | plus =>
            injection hpre with _ hpre
            injection hpre with hxd' _
            exact absurd hxd' hxd
        | minus =>
            injection hpre with _ hpre
            injection hpre with hxd' _
            exact absurd hxd' hxd
        | none =>
            injection hpre with hcd hpre
            cases hnum with
            | hex => exact absurd hcd hc
            | digits hne hds =>
                cases num' with
                | nil => exact hpre.symm
                | cons e num' =>
                    injection hpre with hxe _
                    have he := hds e (by simp)
                    rw [← hxe] at he
                    exact absurd (hdigit.symm.trans he) (by decide)

/-- A chunk that does not start with a zero is refused. -/
theorem maskChunks_no_zero (fuel : Nat) : ∀ {c : Char} (args : CStr) (chunk : List (BitVec 32)),
    c ≠ '0' → args.length < fuel → (maskChunks (fuel + 1) (c :: args) chunk).1 = none := by
  induction fuel with
  | zero =>
      intro c args chunk _ hlt
      exact absurd hlt (Nat.not_lt_zero _)
  | succ fuel ih =>
      intro c args chunk hc hlt
      rw [maskChunks]
      by_cases hx : args.head?.map Char.toLower = some 'x'
      · rw [if_neg (fun h => h.2 hx)]
        split
        · rfl
        · cases args with
          | nil => cases hx
          | cons x t =>
              have hlow : x.toLower = 'x' := by simpa using hx
              have hxx : x = 'x' ∨ x = 'X' := toLower_cases hlow (by decide)
              have hx0 : x ≠ '0' := by
                rcases hxx with rfl | rfl <;> decide
              have hcomma : x ≠ ',' := by
                rcases hxx with rfl | rfl <;> decide
              have hrest := rest_of_no_zero hc hxx t
              generalize strtoul (c :: x :: t) 16 = r at hrest ⊢
              obtain ⟨value, next⟩ := r
              dsimp only at hrest
              rcases hrest with hrest | hrest
              · subst hrest
                by_cases hcc : c = ','
                · subst hcc
                  exact ih t _ hx0 (by simpa using hlt)
                · simp [hcc]
              · subst hrest
                simp [hcomma]
      · rw [if_pos ⟨hc, hx⟩]

/-- There is no room for another chunk after the last word. -/
theorem not_foldl_pushChunk_le {chunk : List (BitVec 32)} (h : ncpuwords ≤ chunk.length)
    (bits : BitVec 32) (ws : List (BitVec 32)) :
    ¬ ((bits :: ws).foldl pushChunk chunk).length ≤ ncpuwords := by
  have hne : chunk ≠ [] := by
    rintro rfl
    exact absurd h (by decide)
  rw [foldl_pushChunk_append hne, List.length_append, List.length_cons]
  omega

theorem pushChunk_le {chunk : List (BitVec 32)} (h : ¬ ncpuwords ≤ chunk.length) (bits : BitVec 32) :
    (pushChunk chunk bits).length ≤ ncpuwords := by
  have hpush := length_pushChunk chunk bits
  omega

/-- Every list of chunks that fits is accepted. -/
theorem maskChunks_items {s : CStr} {nums : List CStr} (h : Items s nums)
    (hnums : ∀ num ∈ nums, IsChunk num) {fuel : Nat} (hfuel : s.length < fuel)
    {chunk : List (BitVec 32)} (hchunk : chunk.length ≤ ncpuwords) :
    (maskChunks fuel s chunk).1 =
      if ((nums.map chunkWord).foldl pushChunk chunk).length ≤ ncpuwords then
        some ((nums.map chunkWord).foldl pushChunk chunk)
      else none := by
  have hread : ∀ {num rest : CStr}, IsChunk num → (∀ c, rest.head? = some c → c = ',') →
      strtoul (num ++ rest) 16 = (BitVec.ofNat 64 (capped (chunkValue num)), rest) := by
    intro num rest hnum hrest
    apply strtoul_numeral (Or.inr (Or.inr rfl)) hnum.numeral
    intro c hc
    rw [hrest c hc]
    decide
  induction h generalizing fuel chunk with
  | nil =>
      obtain ⟨fuel, rfl⟩ := Nat.exists_eq_succ_of_ne_zero (Nat.ne_of_gt hfuel)
      rw [List.map_nil, List.foldl_nil, if_pos hchunk]
      rfl
  | @last num hne hno =>
      have hnum := hnums num (List.mem_singleton_self num)
      obtain ⟨fuel, rfl⟩ := Nat.exists_eq_succ_of_ne_zero (Nat.ne_of_gt (Nat.zero_lt_of_lt hfuel))
      have hnil : num = num ++ [] := (List.append_nil num).symm
      have hend : ∀ c, ([] : CStr).head? = some c → c = ',' := by
        rintro c ⟨⟩
      have hturn := maskChunks_zero hnum.zero (hread hnum hend) fuel chunk
      rw [← hnil] at hturn
      rw [hturn]
      by_cases hfull : ncpuwords ≤ chunk.length
      · rw [if_pos hfull, if_neg]
        exact not_foldl_pushChunk_le hfull _ []
      · rw [if_neg hfull, if_pos]
        · rfl
        · exact pushChunk_le hfull _
  | @more num s nums hno _ ih =>
      rw [List.forall_mem_cons] at hnums
      obtain ⟨fuel, rfl⟩ := Nat.exists_eq_succ_of_ne_zero (Nat.ne_of_gt (Nat.zero_lt_of_lt hfuel))
      have hcomma : ∀ c, (',' :: s).head? = some c → c = ',' := by
        rintro c ⟨⟩
        rfl
      rw [maskChunks_zero hnums.1.zero (hread hnums.1 hcomma) fuel chunk]
      by_cases hfull : ncpuwords ≤ chunk.length
      · rw [if_pos hfull, if_neg]
        exact not_foldl_pushChunk_le hfull _ _
      · rw [if_neg hfull]
        change (maskChunks fuel s (pushChunk chunk (chunkWord num))).1 = _
        rw [ih hnums.2 (by simp at hfuel; omega) (pushChunk_le hfull _)]
        rfl

/-- A text that starts with a zero begins with a chunk, if anything is read of it. -/
theorem chunk_of_zero (args : CStr) :
    (∃ word, strtoul ('0' :: args) 16 = (word, '0' :: args)) ∨
      ∃ num rest word, '0' :: args = num ++ rest ∧ IsChunk num ∧
        strtoul (num ++ rest) 16 = (word, rest) ∧ word.truncate 32 = chunkWord num := by
  rcases scanNumber_cases 16 ('0' :: args) with hno |
    ⟨pre, hpre, sp, sg, num, rfl, hsp, hsg, hnum⟩
  · exact Or.inl ⟨_, strtoul_of_scan hno⟩
  · generalize hscan : scanNumber ('0' :: args) 16 = scanned at hpre hsg hnum
    obtain ⟨neg, value, rest⟩ := scanned
    dsimp only at hpre hsg hnum
    -- a zero is neither white space nor a sign
    have hspace : sp = [] := by
      cases sp with
      | nil => rfl
      | cons a sp =>
          injection hpre with ha _
          have hzero := hsp a List.mem_cons_self
          rw [← ha] at hzero
          cases hzero
    subst hspace
    cases hsg with
    | plus => cases hpre
    | minus => cases hpre
    | none =>
        change '0' :: args = num ++ rest at hpre
        have hhead : num.head? = some '0' := by
          obtain ⟨d, num', rfl, -⟩ := hnum.head (Or.inr (Or.inr rfl))
          injection hpre with hd _
          rw [← hd]
          rfl
        obtain ⟨hchunk, rfl⟩ := isChunk_of_numeral hnum hhead
        have hread := strtoul_of_scan hscan
        rw [hpre] at hread
        exact Or.inr ⟨num, rest, _, hpre, hchunk, hread, rfl⟩

/-- Nothing else is accepted. -/
theorem items_of_maskChunks (fuel : Nat) : ∀ {s : CStr} {chunk r : List (BitVec 32)},
    s.length < fuel → chunk.length ≤ ncpuwords → (maskChunks fuel s chunk).1 = some r →
      ∃ nums, Items s nums ∧ (∀ num ∈ nums, IsChunk num) ∧
        r = (nums.map chunkWord).foldl pushChunk chunk ∧ r.length ≤ ncpuwords := by
  induction fuel with
  | zero =>
      intro s chunk r hlt
      exact absurd hlt (Nat.not_lt_zero _)
  | succ fuel ih =>
      intro s chunk r hlt hchunk haccepts
      cases s with
      | nil =>
          cases haccepts
          exact ⟨[], .nil, by simp, rfl, hchunk⟩
      | cons c args =>
          by_cases hc : c = '0'
          · subst hc
            rcases chunk_of_zero args with ⟨word, hread⟩ | ⟨num, rest, word, hsplit, hnum, hread, hword⟩
            · -- nothing read is refused
              rw [maskChunks, if_neg (fun h => h.1 rfl), hread] at haccepts
              split at haccepts <;> cases haccepts
            · rw [hsplit] at haccepts hlt ⊢
              rw [maskChunks_zero hnum.zero hread, hword] at haccepts
              have hpos : 0 < num.length := List.length_pos_of_mem (List.mem_of_mem_head? hnum.zero)
              rw [List.length_append] at hlt
              by_cases hfull : ncpuwords ≤ chunk.length
              · rw [if_pos hfull] at haccepts
                cases haccepts
              · rw [if_neg hfull] at haccepts
                rcases rest with _ | ⟨e, s⟩
                · cases haccepts
                  refine ⟨[num], ?_, by simpa using hnum, rfl, pushChunk_le hfull _⟩
                  rw [List.append_nil]
                  exact .last (List.ne_nil_of_length_pos hpos) hnum.no_comma
                · by_cases he : e = ','
                  · subst he
                    change (maskChunks fuel s _).1 = _ at haccepts
                    rw [List.length_cons] at hlt
                    obtain ⟨nums, hitems, hnums, hr, hlen⟩ :=
                      ih (by omega) (pushChunk_le hfull _) haccepts
                    refine ⟨num :: nums, .more hnum.no_comma hitems, ?_, hr, hlen⟩
                    rw [List.forall_mem_cons]
                    exact ⟨hnum, hnums⟩
                  · simp [he] at haccepts
          · have hno := maskChunks_no_zero fuel args chunk hc (by simpa using hlt)
            rw [hno] at haccepts
            cases haccepts

/-! ## The set -/

/-- The words written replace as many from `i` on. -/
theorem cpuBits_storeChunks (ws : List (BitVec 32)) : ∀ (csp : CpuSet) (i : Nat),
    i + ws.length ≤ ncpuwords →
      (storeChunks csp i ws).cpuBits
        = csp.cpuBits.take i ++ ws ++ csp.cpuBits.drop (i + ws.length) := by
  induction ws with
  | nil =>
      intro csp i _
      simp [storeChunks]
  | cons bits ws ih =>
      intro csp i hle
      rw [List.length_cons] at hle
      have hi : i < csp.cpuBits.length := by
        rw [CpuSet.length_cpuBits]
        omega
      rw [storeChunks, ih _ _ (by omega), CpuSet.cpuBits_store (by omega)]
      have htake : (csp.cpuBits.set i bits).take (i + 1) = csp.cpuBits.take i ++ [bits] := by
        rw [List.take_succ_eq_append_getElem (by rwa [List.length_set]), List.getElem_set_self,
          List.take_set_of_le le_rfl]
      have hdrop : (csp.cpuBits.set i bits).drop (i + 1 + ws.length)
          = csp.cpuBits.drop (i + (ws.length + 1)) := by
        rw [List.drop_set_of_lt (by omega), Nat.add_assoc, Nat.add_comm 1]
      rw [htake, hdrop, List.length_cons, List.append_assoc (List.take i _)]
      rfl

theorem cpuBits_zero : CpuSet.zero.cpuBits = List.replicate ncpuwords 0#32 := by decide

/-- A cleared set with words stored has these and zeros. -/
theorem cpuBits_store_zero {ws : List (BitVec 32)} (h : ws.length ≤ ncpuwords) :
    (storeChunks CpuSet.zero 0 ws).cpuBits
      = ws ++ List.replicate (ncpuwords - ws.length) 0#32 := by
  rw [cpuBits_storeChunks ws _ 0 (by omega), cpuBits_zero]
  simp

theorem value_store_zero {ws : List (BitVec 32)} (h : ws.length ≤ ncpuwords) :
    (storeChunks CpuSet.zero 0 ws).value = number ws := by
  rw [← CpuSet.number_cpuBits, cpuBits_store_zero h, number_append_zeros]

/-- The words kept of a list of chunks. -/
def keptWords (nums : List CStr) : List (BitVec 32) := (nums.map chunkWord).dropWhile (· = 0)

/-- What `get_cpuset_from_mask` accepts, and what it makes of it. -/
theorem getCpusetFromMask_eq_some {s : CStr} {r : Nat × CpuSet} :
    (getCpusetFromMask s).1 = some r ↔
      ∃ nums, Items s nums ∧ (∀ num ∈ nums, IsChunk num) ∧ (keptWords nums).length ≤ ncpuwords ∧
        r = ((keptWords nums).length, storeChunks CpuSet.zero 0 (keptWords nums).reverse) := by
  have hempty : ([] : List (BitVec 32)).length ≤ ncpuwords := Nat.zero_le _
  simp only [getCpusetFromMask, Option.map_eq_some_iff]
  constructor
  · rintro ⟨chunk, hchunk, rfl⟩
    obtain ⟨nums, hitems, hnums, hr, hlen⟩ :=
      items_of_maskChunks _ (Nat.lt_succ_self _) hempty hchunk
    rw [foldl_pushChunk] at hr
    subst hr
    exact ⟨nums, hitems, hnums, hlen, rfl⟩
  · rintro ⟨nums, hitems, hnums, hlen, rfl⟩
    refine ⟨keptWords nums, ?_, rfl⟩
    rw [maskChunks_items hitems hnums (Nat.lt_succ_self _) hempty, foldl_pushChunk]
    exact if_pos hlen

/-- An accepted list and what it says are both found in the text. -/
theorem items_of_accepted {s : CStr} {n : Nat} {csp : CpuSet}
    (h : (getCpusetFromMask s).1 = some (n, csp)) :
    ∃ nums, Items s nums ∧ (∀ num ∈ nums, IsChunk num) ∧ (keptWords nums).length ≤ ncpuwords ∧
      csp.value = number (keptWords nums).reverse := by
  obtain ⟨nums, hitems, hnums, hlen, hr⟩ := getCpusetFromMask_eq_some.mp h
  cases hr
  refine ⟨nums, hitems, hnums, hlen, ?_⟩
  rw [value_store_zero (by rwa [List.length_reverse])]

/-! ## When nothing is lost -/

/-- A chunk of up to 32 bits is kept. -/
theorem toNat_chunkWord {num : CStr} (h : chunkValue num < 2 ^ 32) :
    (chunkWord num).toNat = chunkValue num := by
  have hcap : capped (chunkValue num) = chunkValue num := Nat.min_eq_left (by omega)
  rw [chunkWord, BitVec.truncate_eq_setWidth, BitVec.toNat_setWidth, BitVec.toNat_ofNat, hcap]
  omega

theorem map_toNat_chunkWord {nums : List CStr} (h : ∀ num ∈ nums, chunkValue num < 2 ^ 32) :
    (nums.map chunkWord).map BitVec.toNat = nums.map chunkValue := by
  rw [List.map_map]
  apply List.map_congr_left
  intro num hnum
  exact toNat_chunkWord (h num hnum)

theorem map_toNat_dropWhile (ws : List (BitVec 32)) :
    (ws.dropWhile (· = 0)).map BitVec.toNat = (ws.map BitVec.toNat).dropWhile (· = 0) := by
  have hzero : ((fun n : Nat => decide (n = 0)) ∘ BitVec.toNat)
      = fun bits : BitVec 32 => decide (bits = 0) := by
    funext bits
    simp [BitVec.toNat_eq]
  rw [List.dropWhile_map, hzero]

/-- The words kept are the chunks after leading zeros. -/
theorem map_toNat_keptWords {nums : List CStr} (h : ∀ num ∈ nums, chunkValue num < 2 ^ 32) :
    (keptWords nums).map BitVec.toNat = (nums.map chunkValue).dropWhile (· = 0) := by
  rw [keptWords, map_toNat_dropWhile, map_toNat_chunkWord h]

/-- The number kept is the one the chunks are the digits of. -/
theorem number_keptWords {nums : List CStr} (h : ∀ num ∈ nums, chunkValue num < 2 ^ 32) :
    number (keptWords nums).reverse = Nat.ofDigits (2 ^ 32) (nums.map chunkValue).reverse := by
  calc number (keptWords nums).reverse
      = number (nums.map chunkWord).reverse := number_dropWhile_reverse _
    _ = Nat.ofDigits (2 ^ 32) (nums.map chunkValue).reverse := by
        rw [number, List.map_reverse, map_toNat_chunkWord h]

/-- What is accepted is a list of hexadecimal chunks of up to 32 bits, at most 32 of them
after leading zeros, and the set is the number they are the digits of. -/
def MaskExact (s : CStr) : Prop :=
  ∀ n csp, (getCpusetFromMask s).1 = some (n, csp) →
    ∃ nums, Items s nums ∧ (∀ num ∈ nums, IsHexChunk num ∧ chunkValue num < 2 ^ 32) ∧
      ((nums.map chunkValue).dropWhile (· = 0)).length ≤ 32 ∧
      csp.value = Nat.ofDigits (2 ^ 32) (nums.map chunkValue).reverse

/-- A list of chunks that fits, one of them without the prefix or too large. -/
def LosesChunk (s : CStr) : Prop :=
  ∃ nums, Items s nums ∧ (∀ num ∈ nums, IsChunk num) ∧ (keptWords nums).length ≤ ncpuwords ∧
    ∃ num ∈ nums, ¬ IsHexChunk num ∨ 2 ^ 32 ≤ chunkValue num

/-- Such a list is accepted all the same. -/
theorem LosesChunk.not_exact {s : CStr} (h : LosesChunk s) : ¬ MaskExact s := by
  obtain ⟨nums, hitems, hnums, hlen, num, hnum, hbad⟩ := h
  intro hexact
  have haccepts := getCpusetFromMask_eq_some.mpr ⟨nums, hitems, hnums, hlen, rfl⟩
  obtain ⟨nums', hitems', hnums', -, -⟩ := hexact _ _ haccepts
  rw [← hitems.unique hitems'] at hnums'
  have hgood := hnums' num hnum
  rcases hbad with hbad | hbad
  · exact hbad hgood.1
  · omega

/-- Masks are read without loss unless the list has such a chunk. -/
theorem mask_exact_iff (s : CStr) : MaskExact s ↔ ¬ LosesChunk s := by
  constructor
  · exact fun hexact hloses => hloses.not_exact hexact
  · intro hno n csp haccepts
    obtain ⟨nums, hitems, hnums, hlen, hvalue⟩ := items_of_accepted haccepts
    have hgood : ∀ num ∈ nums, IsHexChunk num ∧ chunkValue num < 2 ^ 32 := by
      intro num hnum
      by_contra hbad
      refine hno ⟨nums, hitems, hnums, hlen, num, hnum, ?_⟩
      rw [not_and_or, Nat.not_lt] at hbad
      exact hbad
    have hsmall : ∀ num ∈ nums, chunkValue num < 2 ^ 32 := fun num hnum => (hgood num hnum).2
    refine ⟨nums, hitems, hgood, ?_, ?_⟩
    · rw [← map_toNat_keptWords hsmall, List.length_map]
      exact hlen
    · rw [hvalue, number_keptWords hsmall]

/-- Cpu 32 in one chunk is lost, and `012` is taken for cpus 1 and 4. -/
theorem chunk_lost :
    (getCpusetFromMask "0x100000000".toList).1 = some (0, CpuSet.zero) ∧
      ¬ MaskExact "0x100000000".toList ∧
      (getCpusetFromMask "012".toList).1 = some (1, CpuSet.zero.store 0 0x12#32) ∧
      ¬ MaskExact "012".toList := by
  have hloses : ∀ num : CStr, num ≠ [] → ',' ∉ num → IsChunk num → (keptWords [num]).length ≤ ncpuwords →
      ¬ IsHexChunk num ∨ 2 ^ 32 ≤ chunkValue num → ¬ MaskExact num := by
    intro num hne hno hnum hlen hbad
    apply LosesChunk.not_exact
    exact ⟨[num], .last hne hno, by simpa using hnum, hlen, num, List.mem_singleton_self num, hbad⟩
  refine ⟨by decide +kernel, ?_, by decide +kernel, ?_⟩
  · apply hloses
    · decide
    · decide
    · exact ⟨by decide, forall_mem_of_all rfl⟩
    · decide +kernel
    · exact Or.inr (by decide +kernel)
  · apply hloses
    · decide
    · decide
    · exact ⟨by decide, forall_mem_of_all rfl⟩
    · decide +kernel
    · refine Or.inl fun h => ?_
      have hpre := h.hexPrefix
      revert hpre
      decide +kernel

end Memtoy
