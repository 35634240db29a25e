import Memtoy.Command.CpuMask
import Memtoy.Command.Handlers

/-!
# Command.CpuText — printing and reading cpu sets

`show_cpus` prints the words `get_cpuset_from_mask` reads, and a list of ids gives the
same set as a mask: two texts that stand for one number, `CpuSet.value`, stand for one set.
-/

namespace Memtoy

open CString Words

/-! ## The words printed -/

/-- The loop prints the words below `i`, from the first that is not zero if none was seen. -/
theorem showCpusFrom_eq (csp : CpuSet) : ∀ (i any : Nat), i ≤ ncpuwords →
    showCpusFrom csp i any =
      if any = 0 then ((csp.cpuBits.take i).reverse.dropWhile (· = 0)).map hexWord
      else (csp.cpuBits.take i).reverse.map hexWord := by
  intro i
  induction i with
  | zero =>
      intro any _
      simp [showCpusFrom]
  | succ i ih =>
      intro any hi
      have hlt : i < csp.cpuBits.length := by
        rw [CpuSet.length_cpuBits]
        exact hi
      have hword : csp.cpuBits.getD i 0#32 = csp.cpuBits[i] := by
        rw [List.getD_eq_getElem?_getD, List.getElem?_eq_getElem hlt]
        rfl
      rw [showCpusFrom, hword, List.take_succ_eq_append_getElem hlt, List.reverse_append,
        List.reverse_singleton, List.singleton_append]
      by_cases hany : any = 0
      · rw [if_pos hany]
        by_cases hzero : csp.cpuBits[i] = 0
        · rw [if_pos ⟨hzero, hany⟩, ih _ (by omega), if_pos hany,
            List.dropWhile_cons_of_pos (by simpa using hzero)]
        · rw [if_neg (fun h => hzero h.1), ih _ (by omega), if_neg (by omega),
            List.dropWhile_cons_of_neg (by simpa using hzero), List.map_cons]
      · rw [if_neg hany, if_neg (fun h => hany h.2), ih _ (by omega), if_neg (by omega), List.map_cons]

/-- The words printed are those of the set, the high one first, without leading zeros. -/
theorem showCpus_eq (csp : CpuSet) :
    showCpus csp = (csp.cpuBits.reverse.dropWhile (· = 0)).map hexWord := by
  have htake : csp.cpuBits.take ncpuwords = csp.cpuBits := by
    apply List.take_of_length_le
    rw [CpuSet.length_cpuBits]
  rw [showCpus, showCpusFrom_eq csp _ _ le_rfl, if_pos rfl, htake]

/-! ## A word as a chunk -/

theorem isHexChunk_hexWord (bits : BitVec 32) : IsHexChunk (hexWord bits) := by
  have hdigits := isDigitIn_hexDigits 8 bits.toNat
  constructor
  · show (true && isDigitIn 16 _) = true
    rw [Bool.true_and]
    apply hdigits
    simp [hexDigits]
  · exact hdigits

theorem chunkValue_hexWord (bits : BitVec 32) : chunkValue (hexWord bits) = bits.toNat := by
  rw [chunkValue, chunkDigits, if_pos (isHexChunk_hexWord bits).hexPrefix]
  apply valueIn_hexDigits
  exact bits.isLt

theorem chunkWord_hexWord (bits : BitVec 32) : chunkWord (hexWord bits) = bits := by
  apply BitVec.eq_of_toNat_eq
  have hlt : chunkValue (hexWord bits) < 2 ^ 32 := by
    rw [chunkValue_hexWord]
    exact bits.isLt
  rw [toNat_chunkWord hlt, chunkValue_hexWord]

theorem keptWords_map_hexWord (ws : List (BitVec 32)) :
    keptWords (ws.map hexWord) = ws.dropWhile (· = 0) := by
  have hid : chunkWord ∘ hexWord = id := funext chunkWord_hexWord
  rw [keptWords, List.map_map, hid, List.map_id]

/-- Chunks of up to eight digits have up to 32 bits. -/
theorem chunkValue_lt {num : CStr} (h : IsHexChunk num) (hlen : (num.drop 2).length ≤ 8) :
    chunkValue num < 2 ^ 32 := by
  rw [chunkValue, chunkDigits, if_pos h.hexPrefix]
  calc valueIn 16 (num.drop 2)
      < 16 ^ (num.drop 2).length := valueIn_lt h.digits
    _ ≤ 16 ^ 8 := Nat.pow_le_pow_right (by decide) hlen
    _ = 2 ^ 32 := by norm_num

/-- Parts joined with commas are a list. -/
theorem items_intercalate {nums : List CStr} (h : ∀ num ∈ nums, num ≠ [] ∧ ',' ∉ num) :
    Items ([','].intercalate nums) nums := by
  induction nums with
  | nil => exact .nil
  | cons num nums ih =>
      rw [List.forall_mem_cons] at h
      cases nums with
      | nil =>
          rw [List.intercalate_singleton]
          exact .last h.1.1 h.1.2
      | cons num' nums =>
          rw [List.intercalate_cons_cons, List.append_assoc]
          exact .more h.1.2 (ih h.2)

theorem IsHexChunk.plain {num : CStr} (h : IsHexChunk num) : num ≠ [] ∧ ',' ∉ num := by
  refine ⟨?_, h.isChunk.no_comma⟩
  rintro rfl
  exact absurd h.hexPrefix (by decide)

/-! ## The round trips -/

/-- A cleared set with the words of a set, without leading zeros, is that set. -/
theorem store_dropWhile (csp : CpuSet) :
    storeChunks CpuSet.zero 0 (csp.cpuBits.reverse.dropWhile (· = 0)).reverse = csp := by
  have hlen := (List.dropWhile_suffix (l := csp.cpuBits.reverse) fun bits => decide (bits = 0)).length_le
  rw [List.length_reverse, CpuSet.length_cpuBits] at hlen
  apply CpuSet.value_inj
  rw [value_store_zero (by rwa [List.length_reverse])]
  calc number (csp.cpuBits.reverse.dropWhile (· = 0)).reverse
      = number csp.cpuBits.reverse.reverse := number_dropWhile_reverse _
    _ = csp.value := by rw [List.reverse_reverse, CpuSet.number_cpuBits]

/-- The text printed is read back as the set. -/
theorem mask_of_show (csp : CpuSet) :
    (getCpusetFromMask ([','].intercalate (showCpus csp))).1 = some ((showCpus csp).length, csp) := by
  have hlen := (List.dropWhile_suffix (l := csp.cpuBits.reverse) fun bits => decide (bits = 0)).length_le
  rw [List.length_reverse, CpuSet.length_cpuBits] at hlen
  have hchunks : ∀ num ∈ showCpus csp, IsHexChunk num := by
    rw [showCpus_eq]
    intro num hnum
    obtain ⟨bits, -, rfl⟩ := List.mem_map.mp hnum
    exact isHexChunk_hexWord bits
  have hkept : keptWords (showCpus csp) = csp.cpuBits.reverse.dropWhile (· = 0) := by
    rw [showCpus_eq, keptWords_map_hexWord, List.dropWhile_idempotent]
  rw [getCpusetFromMask_eq_some]
  refine ⟨showCpus csp, ?_, ?_, ?_, ?_⟩
  · exact items_intercalate fun num hnum => (hchunks num hnum).plain
  · exact fun num hnum => (hchunks num hnum).isChunk
  · rwa [hkept]
  · rw [hkept, store_dropWhile, showCpus_eq, List.length_map]

/-- What is printed of a set that was read are the words kept. -/
theorem showCpus_store {ws : List (BitVec 32)} (h : ws.length ≤ ncpuwords)
    (hlead : ws.dropWhile (· = 0) = ws) :
    showCpus (storeChunks CpuSet.zero 0 ws.reverse) = ws.map hexWord := by
  have hrev : ws.reverse.length ≤ ncpuwords := by rwa [List.length_reverse]
  rw [showCpus_eq, cpuBits_store_zero hrev, List.reverse_append, List.reverse_reverse,
    List.reverse_replicate, List.dropWhile_append_of_pos (by simp), hlead]

/-- The values printed of a mask are those of its chunks, from the first that is not zero. -/
theorem show_of_mask {s : CStr} {nums : List CStr} (hitems : Items s nums)
    (hnums : ∀ num ∈ nums, IsHexChunk num ∧ (num.drop 2).length ≤ 8) {n : Nat} {csp : CpuSet}
    (haccepts : (getCpusetFromMask s).1 = some (n, csp)) :
    (showCpus csp).map chunkValue = (nums.map chunkValue).dropWhile (· = 0) := by
  obtain ⟨nums', hitems', -, hlen, hr⟩ := getCpusetFromMask_eq_some.mp haccepts
  rw [← hitems.unique hitems'] at hlen hr
  cases hr
  have hsmall : ∀ num ∈ nums, chunkValue num < 2 ^ 32 :=
    fun num hnum => chunkValue_lt (hnums num hnum).1 (hnums num hnum).2
  have hval : chunkValue ∘ hexWord = BitVec.toNat := funext chunkValue_hexWord
  have hlead : (keptWords nums).dropWhile (· = 0) = keptWords nums := List.dropWhile_idempotent ..
  rw [showCpus_store hlen hlead, List.map_map, hval, map_toNat_keptWords hsmall]

/-- Displaying and parsing are inverse. -/
theorem mask_show_roundtrip :
    (∀ csp : CpuSet, (getCpusetFromMask ([','].intercalate (showCpus csp))).1
      = some ((showCpus csp).length, csp)) ∧
    (∀ (s : CStr) (nums : List CStr) (n : Nat) (csp : CpuSet), Items s nums →
      (∀ num ∈ nums, IsHexChunk num ∧ (num.drop 2).length ≤ 8) →
      (getCpusetFromMask s).1 = some (n, csp) →
      (showCpus csp).map chunkValue = (nums.map chunkValue).dropWhile (· = 0)) := by
  constructor
  · exact mask_of_show
  · intro s nums n csp hitems hnums haccepts
    exact show_of_mask hitems hnums haccepts

/-- Chunks of at most 32 bits, as a check of their text. -/
theorem short_hexChunks {nums : List CStr}
    (h : nums.all (fun num => hexPrefix num && (num.drop 2).all (isDigitIn 16) &&
      decide ((num.drop 2).length ≤ 8)) = true) :
    ∀ num ∈ nums, IsHexChunk num ∧ (num.drop 2).length ≤ 8 := by
  intro num hnum
  have hchecks := List.all_eq_true.mp h num hnum
  rw [Bool.and_eq_true, Bool.and_eq_true, decide_eq_true_eq, List.all_eq_true] at hchecks
  exact ⟨⟨hchecks.1.1, hchecks.1.2⟩, hchecks.2⟩

theorem mask_show_roundtrip_three :
    (showCpus (CpuSet.zero.store 1 1#32)).map chunkValue = [0, 1, 0].dropWhile (· = 0) := by
  have hitems : Items ("0x0".toList ++ ',' :: ("0x1".toList ++ ',' :: "0x0".toList))
      ["0x0".toList, "0x1".toList, "0x0".toList] := by
    apply Items.more (by decide)
    apply Items.more (by decide)
    apply Items.last (by decide) (by decide)
  have hnums : ∀ num ∈ ["0x0".toList, "0x1".toList, "0x0".toList],
      IsHexChunk num ∧ (num.drop 2).length ≤ 8 := short_hexChunks (by decide)
  exact mask_show_roundtrip.2 _ _ 2 _ hitems hnums (by decide +kernel)

/-! ## The two forms of an argument -/

/-- A list of ids has digits and commas only. -/
theorem IdText.chars {s : CStr} {ids : List Nat} (h : IdText s ids) :
    ∀ c ∈ s, c.isDigit = true ∨ c = ',' := by
  induction h with
  | last _ hds => exact fun c hc => Or.inl (hds c hc)
  | more _ hds _ ih =>
      intro c hc
      rcases List.mem_append.mp hc with hc | hc
      · exact Or.inl (hds c hc)
      · rcases List.mem_cons.mp hc with rfl | hc
        · exact Or.inr rfl
        · exact ih c hc

theorem skipBlanks_cons {c : Char} (h : c ∉ whitespace) (s : CStr) :
    skipBlanks (c :: s) = c :: s := by
  simp [skipBlanks, skipSpan, h]

/-- A list of ids is not taken for a mask. -/
theorem cpusArg_ids {s : CStr} {ids : List Nat} (h : IdText s ids) :
    cpusArg (skipBlanks s) = getCpusetFromIds s := by
  have hchars := h.chars
  cases s with
  | nil => exact absurd h (not_idText_nil ids)
  | cons c t =>
      have hblank : c ∉ whitespace := by
        intro hmem
        rcases hchars c List.mem_cons_self with hc | rfl
        · simp only [whitespace, List.mem_cons, List.not_mem_nil, or_false] at hmem
          rcases hmem with rfl | rfl <;> cases hc
        · revert hmem
          decide
      have hhex : ¬ startsWithHex (c :: t) = true := by
        intro hx
        unfold startsWithHex at hx
        obtain ⟨x, hhead, hlow⟩ := Option.map_eq_some_iff.mp (of_decide_eq_true hx).2
        have hmem : x ∈ c :: t := List.mem_cons_of_mem _ (List.mem_of_mem_head? hhead)
        have hxx : x = 'x' ∨ x = 'X' := toLower_cases hlow (by decide)
        have hplain := hchars x hmem
        revert hplain
        rcases hxx with rfl | rfl <;> decide
      rw [skipBlanks_cons hblank, cpusArg, if_neg hhex]

/-- A list of hexadecimal chunks is taken for a mask. -/
theorem cpusArg_mask {t : CStr} {nums : List CStr} (h : Items t nums) (hne : nums ≠ [])
    (hnums : ∀ num ∈ nums, IsHexChunk num) : cpusArg (skipBlanks t) = getCpusetFromMask t := by
  obtain ⟨x, u, rfl, hx⟩ : ∃ x u, t = '0' :: x :: u ∧ x.toLower = 'x' := by
    have hchunk : ∀ {num : CStr}, IsHexChunk num → ∃ x u, num = '0' :: x :: u ∧ x.toLower = 'x' := by
      intro num hnum
      obtain ⟨x, d, u, rfl, hx, -⟩ := hexPrefix_cases hnum.hexPrefix
      refine ⟨x, d :: u, rfl, ?_⟩
      rcases hx with rfl | rfl <;> decide
    cases h with
    | nil => exact absurd rfl hne
    | last _ _ => exact hchunk (hnums _ (List.mem_singleton_self _))
    | more _ _ =>
        obtain ⟨x, u, rfl, hx⟩ := hchunk (hnums _ List.mem_cons_self)
        exact ⟨x, _, rfl, hx⟩
  have hhex : startsWithHex ('0' :: x :: u) = true := by
    simp [startsWithHex, hx]
  rw [skipBlanks_cons (by decide), cpusArg, if_pos hhex]

/-- A mask of cpus up to the largest id fits. -/
theorem length_keptWords_le {nums : List CStr} {k : Nat}
    (h : number (keptWords nums).reverse < 2 ^ (32 * k)) : (keptWords nums).length ≤ k := by
  have hhead := List.head?_dropWhile_not (fun bits => decide (bits = 0)) (nums.map chunkWord)
  generalize hkept : keptWords nums = kept at h ⊢
  rw [keptWords] at hkept
  rw [hkept] at hhead
  rcases kept with _ | ⟨bits, ws⟩
  · exact Nat.zero_le _
  · have hbits : bits ≠ 0#32 := by simpa using hhead
    rw [List.reverse_cons] at h
    have hlt := Nat.lt_of_le_of_lt (two_pow_le_number ws.reverse hbits) h
    rw [List.length_reverse] at hlt
    have hexp := (Nat.pow_lt_pow_iff_right (by decide)).mp hlt
    rw [List.length_cons]
    omega

/-- An enumeration and a mask of the same cpus give the same set. -/
theorem cpus_forms_agree {S : Finset Nat} (hne : S.Nonempty) (hmax : ∀ c ∈ S, c ≤ maxCpuId)
    {s : CStr} {ids : List Nat} (hs : IdText s ids) (hids : ids.toFinset = S)
    {t : CStr} {nums : List CStr} (ht : Items t nums)
    (hnums : ∀ num ∈ nums, IsHexChunk num ∧ (num.drop 2).length ≤ 8)
    (hmask : ∀ c, (Nat.ofDigits (2 ^ 32) (nums.map chunkValue).reverse).testBit c = true ↔ c ∈ S) :
    ∃ n m csp, (getCpusetFromIds s).1 = some (n, csp) ∧ (getCpusetFromMask t).1 = some (m, csp) ∧
      (cpusArg (skipBlanks s)).1 = some (n, csp) ∧ (cpusArg (skipBlanks t)).1 = some (m, csp) := by
  have hmem : ∀ {c}, c ∈ ids ↔ c ∈ S := by
    intro c
    rw [← hids, List.mem_toFinset]
  -- the ids are small enough to be read as they are
  have hsmall : ∀ id ∈ ids, id ≤ 128 := fun id hid => hmax id (hmem.mp hid)
  have hnarrow : ids.map narrowed = ids.map Int.ofNat := by
    apply List.map_congr_left
    intro id hid
    have hid' := hsmall id hid
    exact narrowed_of_lt (by omega)
  have hread : (getCpusetFromIds s).1 = some ((ids.map narrowed).length,
      (ids.map narrowed).foldl CpuSet.set CpuSet.zero) := by
    refine getCpusetFromIds_eq_some.mpr ⟨ids, hs, ?_, rfl⟩
    intro id hid
    have hid' := hsmall id hid
    rw [narrowed_of_lt (by omega)]
    exact_mod_cast hid'
  -- the mask has few enough words
  have hchunks : ∀ num ∈ nums, chunkValue num < 2 ^ 32 :=
    fun num hnum => chunkValue_lt (hnums num hnum).1 (hnums num hnum).2
  have hnumber := number_keptWords hchunks
  have hlen : (keptWords nums).length ≤ ncpuwords := by
    apply length_keptWords_le
    rw [hnumber]
    apply Nat.lt_pow_two_of_testBit
    intro c hc
    rw [← Bool.not_eq_true, hmask]
    intro hcS
    have hc' : c ≤ 128 := hmax c hcS
    have hwords : ncpuwords = 32 := rfl
    omega
  have hmaskread := getCpusetFromMask_eq_some.mpr
    ⟨nums, ht, fun num hnum => (hnums num hnum).1.isChunk, hlen, rfl⟩
  have hnil : nums ≠ [] := by
    rintro rfl
    obtain ⟨c, hc⟩ := hne
    have hbit := (hmask c).mpr hc
    simp at hbit
  -- both sets have the bits of `S`
  have hsame : storeChunks CpuSet.zero 0 (keptWords nums).reverse
      = (ids.map narrowed).foldl CpuSet.set CpuSet.zero := by
    apply CpuSet.value_inj
    apply Nat.eq_of_testBit_eq
    intro c
    have hlt : ∀ id ∈ ids, id < cpuSetsize := by
      intro id hid
      have hid' := hsmall id hid
      simp only [cpuSetsize]
      omega
    rw [value_store_zero (by rwa [List.length_reverse]), hnumber, hnarrow, testBit_foldl_set hlt,
      Bool.eq_iff_iff, hmask, decide_eq_true_iff, hmem]
  rw [hsame] at hmaskread
  refine ⟨_, _, _, hread, hmaskread, ?_, ?_⟩
  · rw [cpusArg_ids hs]
    exact hread
  · rw [cpusArg_mask ht hnil fun num hnum => (hnums num hnum).1]
    exact hmaskread

theorem cpus_forms_agree_pair :
    ∃ n m csp, (getCpusetFromIds "32,0,32".toList).1 = some (n, csp) ∧
      (getCpusetFromMask "0x0,0x1,0X01".toList).1 = some (m, csp) ∧
      (cpusArg (skipBlanks "32,0,32".toList)).1 = some (n, csp) ∧
      (cpusArg (skipBlanks "0x0,0x1,0X01".toList)).1 = some (m, csp) := by
  have hs : IdText ("32".toList ++ ',' :: ("0".toList ++ ',' :: "32".toList)) [32, 0, 32] := by
    apply IdText.more (by decide) (forall_mem_of_all rfl)
    apply IdText.more (by decide) (forall_mem_of_all rfl)
    apply IdText.last (by decide) (forall_mem_of_all rfl)
  have ht : Items ("0x0".toList ++ ',' :: ("0x1".toList ++ ',' :: "0X01".toList))
      ["0x0".toList, "0x1".toList, "0X01".toList] := by
    apply Items.more (by decide)
    apply Items.more (by decide)
    apply Items.last (by decide) (by decide)
  have hnums : ∀ num ∈ ["0x0".toList, "0x1".toList, "0X01".toList],
      IsHexChunk num ∧ (num.drop 2).length ≤ 8 := short_hexChunks (by decide)
  have hmask : ∀ c, (Nat.ofDigits (2 ^ 32)
      (["0x0".toList, "0x1".toList, "0X01".toList].map chunkValue).reverse).testBit c = true ↔
      c ∈ ({32, 0} : Finset Nat) := by
    intro c
    have hvalue : Nat.ofDigits (2 ^ 32)
        (["0x0".toList, "0x1".toList, "0X01".toList].map chunkValue).reverse = 2 ^ 32 * 1 + 1 := by
      decide +kernel
    rw [hvalue, Nat.testBit_two_pow_mul_add _ (by decide), Finset.mem_insert, Finset.mem_singleton]
    split <;> simp only [Nat.testBit_one_eq_true_iff_self_eq_zero] <;> omega
  exact cpus_forms_agree (by decide) (by decide) hs (by decide) ht hnums hmask

end Memtoy
