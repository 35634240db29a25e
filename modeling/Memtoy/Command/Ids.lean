import Memtoy.Command.Args

/-!
# Command.Ids — lists of node and cpu ids

`get_nodemask` and `get_cpuset_from_ids` read the same grammar, `IdText`, but compare the
numbers after `strtoul` has cut them to `ULONG_MAX` and the assignment to an `int` has
dropped the high bits. `getIds_eq_some` says what they accept; `id_lists_exact_iff` when
this is what was written.
-/

namespace Memtoy

open CString Words

/-! ## The grammar -/

/-- A comma-separated list of decimal numbers, and the numbers. -/
inductive IdText : CStr → List Nat → Prop where
  | last {ds : CStr} : ds ≠ [] → (∀ c ∈ ds, c.isDigit = true) → IdText ds [valueIn 10 ds]
  | more {ds s : CStr} {ids : List Nat} : ds ≠ [] → (∀ c ∈ ds, c.isDigit = true) →
      IdText s ids → IdText (ds ++ ',' :: s) (valueIn 10 ds :: ids)

/-- What an `int` makes of a number `strtoul` has read. -/
def narrowed (id : Nat) : Int := toInt32 (BitVec.ofNat 64 (capped id))

/-- Small numbers are themselves. -/
theorem narrowed_of_lt {id : Nat} (h : id < 2 ^ 31) : narrowed id = id := by
  have hcap : capped id = id := Nat.min_eq_left (by omega)
  unfold narrowed toInt32
  rw [hcap, BitVec.toInt_eq_toNat_of_lt]
  · rw [BitVec.toNat_setWidth, BitVec.toNat_ofNat]
    omega
  · rw [BitVec.toNat_setWidth, BitVec.toNat_ofNat]
    omega

/-- A list begins with digits up to its end or a comma. -/
theorem idText_iff {ds rest : CStr} {ids : List Nat} (hne : ds ≠ [])
    (hds : ∀ c ∈ ds, c.isDigit = true) (hrest : ∀ c, rest.head? = some c → c.isDigit = false) :
    IdText (ds ++ rest) ids ↔ (rest = [] ∧ ids = [valueIn 10 ds]) ∨
      ∃ s ids', rest = ',' :: s ∧ IdText s ids' ∧ ids = valueIn 10 ds :: ids' := by
  have hspan := takeWhile_append_stop (p := Char.isDigit) hds hrest
  constructor
  · generalize htext : ds ++ rest = text at hspan
    intro h
    cases h with
    | last hne' hds' =>
        rw [List.takeWhile_eq_self_iff.mpr hds'] at hspan
        subst hspan
        exact Or.inl ⟨by simpa using htext, rfl⟩
    | @more ds' s ids' hne' hds' hs =>
        rw [takeWhile_append_stop (p := Char.isDigit) hds' (by simp)] at hspan
        subst hspan
        exact Or.inr ⟨s, ids', List.append_cancel_left htext, hs, rfl⟩
  · rintro (⟨rfl, rfl⟩ | ⟨s, ids', rfl, hs, rfl⟩)
    · rw [List.append_nil]
      exact .last hne hds
    · exact .more hne hds hs

/-- A text is a list of one sequence of numbers at most. -/
theorem IdText.unique {s : CStr} {ids ids' : List Nat} (h : IdText s ids) (h' : IdText s ids') :
    ids = ids' := by
  induction h generalizing ids' with
  | @last ds hne hds =>
      rw [← List.append_nil ds] at h'
      rcases (idText_iff hne hds (by simp)).mp h' with ⟨-, rfl⟩ | ⟨s, ids', hcons, -⟩
      · rfl
      · cases hcons
  | more hne hds _ ih =>
      rcases (idText_iff hne hds (by simp)).mp h' with ⟨hnil, -⟩ | ⟨s, ids', hcons, hs, rfl⟩
      · cases hnil
      · cases hcons
        rw [ih hs]

theorem not_idText_nil (ids : List Nat) : ¬ IdText [] ids := by
  generalize htext : ([] : CStr) = text
  intro h
  cases h with
  | last hne _ => exact hne htext.symm
  | more hne _ _ =>
      have hnil := List.append_eq_nil_iff.mp htext.symm
      exact hne hnil.1

/-- A list begins with a digit. -/
theorem IdText.isDigit_head {c : Char} {s : CStr} {ids : List Nat} (h : IdText (c :: s) ids) :
    c.isDigit = true := by
  generalize htext : c :: s = text at h
  cases h with
  | last hne hds =>
      rw [← htext] at hds
      exact hds c List.mem_cons_self
  | more hne hds _ =>
      obtain ⟨d, ds, rfl⟩ := List.exists_cons_of_ne_nil hne
      cases htext
      exact hds c List.mem_cons_self

/-! ## The loop -/

section Loop

variable (digitMsg bigMsg : Complaint) (charMsg : CStr → Complaint) (max : Int)

/-- One turn, with the digits it consumes. -/
theorem getIds_digits {ds rest : CStr} (hne : ds ≠ []) (hds : ∀ c ∈ ds, c.isDigit = true)
    (hrest : ∀ c, rest.head? = some c → c.isDigit = false) (fuel : Nat) (next : Option CStr)
    (ids : List Int) :
    getIds digitMsg bigMsg charMsg max (fuel + 1) (ds ++ rest) next ids =
      if max < narrowed (valueIn 10 ds) then (none, [bigMsg, charMsg (charAt rest)])
      else
        match rest with
        | [] => (some (ids ++ [narrowed (valueIn 10 ds)]), [])
        | ',' :: args =>
            getIds digitMsg bigMsg charMsg max fuel args (some rest)
              (ids ++ [narrowed (valueIn 10 ds)])
        | _ => (none, [charMsg (charAt rest)]) := by
  have hdigit : ∀ c ∈ ds, isDigitIn 10 c = true := by
    intro c hc
    rw [isDigitIn_ten]
    exact hds c hc
  have hstops : Stops 10 rest := by
    intro c hc
    refine ⟨?_, fun h => absurd rfl h⟩
    rw [maxBase, if_pos rfl, isDigitIn_ten]
    exact hrest c hc
  have hnum : Numeral 10 ds (valueIn 10 ds) := .digits hne hdigit
  have hread := strtoul_numeral (Or.inr (Or.inl rfl)) hnum hstops
  obtain ⟨c, t, rfl⟩ := List.exists_cons_of_ne_nil hne
  have hc := hds c List.mem_cons_self
  rw [List.cons_append] at hread ⊢
  simp only [getIds, hc, not_true_eq_false, if_false, hread]
  rfl

/-- A turn that comes to the end of the text, or goes on behind a comma. -/
theorem getIds_digits_eq_some {ds rest : CStr} (hne : ds ≠ []) (hds : ∀ c ∈ ds, c.isDigit = true)
    (hrest : ∀ c, rest.head? = some c → c.isDigit = false) (fuel : Nat) (next : Option CStr)
    (ids ids' : List Int) :
    (getIds digitMsg bigMsg charMsg max (fuel + 1) (ds ++ rest) next ids).1 = some ids' ↔
      narrowed (valueIn 10 ds) ≤ max ∧
        ((rest = [] ∧ ids' = ids ++ [narrowed (valueIn 10 ds)]) ∨
          ∃ s, rest = ',' :: s ∧ (getIds digitMsg bigMsg charMsg max fuel s (some rest)
            (ids ++ [narrowed (valueIn 10 ds)])).1 = some ids') := by
  rw [getIds_digits digitMsg bigMsg charMsg max hne hds hrest, ← Int.not_lt]
  by_cases hbig : max < narrowed (valueIn 10 ds)
  · simp [hbig]
  · rw [if_neg hbig]
    -- behind the id stands the end, a comma, or what belongs to no list
    rcases rest with _ | ⟨r, s⟩
    · simp [hbig, eq_comm]
    · by_cases hr : r = ','
      · subst hr
        simp [hbig]
      · simp [hbig, hr]

/-- A text that begins with a digit begins with all the digits up to another byte. -/
theorem exists_digits {c : Char} (hc : c.isDigit = true) (s : CStr) :
    ∃ ds rest, c :: s = ds ++ rest ∧ ds ≠ [] ∧ (∀ d ∈ ds, d.isDigit = true) ∧
      ∀ d, rest.head? = some d → d.isDigit = false := by
  refine ⟨(c :: s).takeWhile Char.isDigit, (c :: s).dropWhile Char.isDigit,
    List.takeWhile_append_dropWhile.symm, by simp [hc], fun d hd => List.mem_takeWhile_imp hd, ?_⟩
  intro d hd
  have hhead := List.head?_dropWhile_not Char.isDigit (c :: s)
  rw [hd] at hhead
  simpa using hhead

/-- What is accepted, and the ids it gives. -/
theorem getIds_eq_some (fuel : Nat) : ∀ (s : CStr) (next : Option CStr) (ids ids' : List Int),
    s.length < fuel →
      ((getIds digitMsg bigMsg charMsg max fuel s next ids).1 = some ids' ↔
        ∃ vs, IdText s vs ∧ (∀ v ∈ vs, narrowed v ≤ max) ∧ ids' = ids ++ vs.map narrowed) := by
  induction fuel with
  | zero =>
      intro s next ids ids' hlt
      exact absurd hlt (Nat.not_lt_zero _)
  | succ fuel ih =>
      intro s next ids ids' hlt
      cases s with
      | nil =>
          constructor
          · intro h
            cases h
          · rintro ⟨vs, htext, -⟩
            exact absurd htext (not_idText_nil vs)
      | cons c s =>
          by_cases hc : c.isDigit = true
          · obtain ⟨ds, rest, hsplit, hne, hds, hrest⟩ := exists_digits hc s
            rw [hsplit] at hlt ⊢
            have hpos := List.length_pos_of_ne_nil hne
            have hshort : ∀ s', rest = ',' :: s' → s'.length < fuel := by
              rintro s' rfl
              simp only [List.length_append, List.length_cons] at hlt
              omega
            rw [getIds_digits_eq_some digitMsg bigMsg charMsg max hne hds hrest]
            simp only [idText_iff hne hds hrest]
            constructor
            · rintro ⟨hfit, ⟨rfl, rfl⟩ | ⟨s', rfl, hgo⟩⟩
              · exact ⟨_, Or.inl ⟨rfl, rfl⟩, by simpa using hfit, rfl⟩
              · obtain ⟨vs, hs', hle, rfl⟩ := (ih s' _ _ _ (hshort s' rfl)).mp hgo
                refine ⟨_, Or.inr ⟨s', vs, rfl, hs', rfl⟩, ?_, by simp⟩
                exact List.forall_mem_cons.mpr ⟨hfit, hle⟩
            · rintro ⟨vs, ⟨rfl, rfl⟩ | ⟨s', vs', rfl, hs', rfl⟩, hle, rfl⟩
              · exact ⟨by simpa using hle, Or.inl ⟨rfl, rfl⟩⟩
              · rw [List.forall_mem_cons] at hle
                refine ⟨hle.1, Or.inr ⟨s', rfl, (ih s' _ _ _ (hshort s' rfl)).mpr ?_⟩⟩
                exact ⟨vs', hs', hle.2, by simp⟩
          · have hno : (getIds digitMsg bigMsg charMsg max (fuel + 1) (c :: s) next ids).1 = none := by
              simp [getIds, hc]
            rw [hno]
            constructor
            · intro h
              cases h
            · rintro ⟨vs, htext, -⟩
              exact absurd htext.isDigit_head hc

end Loop

/-! ## The sets -/

theorem testBit_foldl_or (ids : List Nat) (bits c : Nat) :
    (ids.foldl (fun bits id => bits ||| 2 ^ id) bits).testBit c
      = (bits.testBit c || decide (c ∈ ids)) := by
  induction ids generalizing bits with
  | nil => simp
  | cons id ids ih =>
      rw [List.foldl_cons, ih, Nat.testBit_or, Nat.testBit_two_pow]
      by_cases heq : id = c
      · simp [heq]
      · simp [heq, Ne.symm heq]

/-- The mask `nodemask_set` has built has the bits of the ids. -/
theorem testBit_nodeBits (ids : List Nat) (c : Nat) :
    (nodeBits (ids.map Int.ofNat)).testBit c = decide (c ∈ ids) := by
  have hfold : nodeBits (ids.map Int.ofNat) = ids.foldl (fun bits id => bits ||| 2 ^ id) 0 := by
    unfold nodeBits
    rw [List.foldl_map]
    congr 1
    funext bits id
    simp [Nat.shiftLeft_eq]
  rw [hfold, testBit_foldl_or]
  simp

/-- The set `CPU_SET` has built has the bits of the ids. -/
theorem testBit_foldl_set {ids : List Nat} (h : ∀ id ∈ ids, id < cpuSetsize) (c : Nat) :
    ((ids.map Int.ofNat).foldl CpuSet.set CpuSet.zero).value.testBit c = decide (c ∈ ids) := by
  have hfold : ∀ csp : CpuSet, ((ids.map Int.ofNat).foldl CpuSet.set csp).value
      = ids.foldl (fun bits id => bits ||| 2 ^ id) csp.value := by
    induction ids with
    | nil => exact fun _ => rfl
    | cons id ids ih =>
        intro csp
        rw [List.forall_mem_cons] at h
        rw [List.map_cons, List.foldl_cons, List.foldl_cons, ih h.2, Int.ofNat_eq_natCast,
          CpuSet.value_set h.1]
  rw [hfold, testBit_foldl_or, CpuSet.value_zero]
  simp

/-- What `get_cpuset_from_ids` accepts, and what it makes of it. -/
theorem getCpusetFromIds_eq_some {s : CStr} {r : Nat × CpuSet} :
    (getCpusetFromIds s).1 = some r ↔
      ∃ ids, IdText s ids ∧ (∀ id ∈ ids, narrowed id ≤ maxCpuId) ∧
        r = ((ids.map narrowed).length, (ids.map narrowed).foldl CpuSet.set CpuSet.zero) := by
  simp only [getCpusetFromIds, Option.map_eq_some_iff,
    getIds_eq_some _ _ _ _ _ _ _ _ _ (Nat.lt_succ_self _), List.nil_append]
  constructor
  · rintro ⟨ids, ⟨vs, htext, hle, rfl⟩, rfl⟩
    exact ⟨vs, htext, hle, rfl⟩
  · rintro ⟨vs, htext, hle, rfl⟩
    exact ⟨_, ⟨vs, htext, hle, rfl⟩, rfl⟩

/-! ## The lists in range -/

/-- A list of ids up to `max`. -/
def Lists (max : Int) (s : CStr) (ids : List Nat) : Prop := IdText s ids ∧ ∀ id ∈ ids, (id : Int) ≤ max

/-- The parser accepts the lists of ids up to `max` and no other text, and its set has the
ids as its bits. -/
structure ReadsIds {α : Type} (max : Int) (s : CStr) (r : Option α) (bits : α → Nat) : Prop where
  accepts : (∃ a, r = some a) ↔ ∃ ids, Lists max s ids
  exact : ∀ a, r = some a →
    ∃ ids, Lists max s ids ∧ ∀ c, (bits a).testBit c = true ↔ c ∈ ids

/-- A list with an id above `max`, which is lost when the numbers become an `int`. -/
def Wraps (max : Int) (s : CStr) : Prop :=
  ∃ ids, IdText s ids ∧ (∀ id ∈ ids, narrowed id ≤ max) ∧ ∃ id ∈ ids, max < (id : Int)

/-- Both parsers read the ids unless one wraps. -/
theorem readsIds_iff {α : Type} {max : Int} (hmax : max < 2 ^ 31) {s : CStr} {r : Option α}
    (ofIds : List Int → α) {bits : α → Nat}
    (hr : ∀ a, r = some a ↔
      ∃ ids, IdText s ids ∧ (∀ id ∈ ids, narrowed id ≤ max) ∧ a = ofIds (ids.map narrowed))
    (hbits : ∀ ids : List Nat, (∀ id ∈ ids, (id : Int) ≤ max) →
      ∀ c, (bits (ofIds (ids.map Int.ofNat))).testBit c = true ↔ c ∈ ids) :
    ReadsIds max s r bits ↔ ¬ Wraps max s := by
  have hsmall : ∀ {id : Nat}, (id : Int) ≤ max → narrowed id = id := by
    intro id hid
    apply narrowed_of_lt
    omega
  constructor
  · rintro h ⟨ids, htext, hnarrow, id, hid, hbig⟩
    obtain ⟨ids', htext', hle⟩ := h.accepts.mp ⟨_, (hr _).mpr ⟨ids, htext, hnarrow, rfl⟩⟩
    rw [htext.unique htext'] at hid
    have hid' := hle id hid
    omega
  · intro hno
    have hlists : ∀ {ids : List Nat}, IdText s ids → (∀ id ∈ ids, narrowed id ≤ max) →
        ∀ id ∈ ids, (id : Int) ≤ max := by
      intro ids htext hnarrow id hid
      by_contra hbig
      exact hno ⟨ids, htext, hnarrow, id, hid, by omega⟩
    constructor
    · constructor
      · rintro ⟨a, ha⟩
        obtain ⟨ids, htext, hnarrow, -⟩ := (hr a).mp ha
        exact ⟨ids, htext, hlists htext hnarrow⟩
      · rintro ⟨ids, htext, hle⟩
        refine ⟨_, (hr _).mpr ⟨ids, htext, fun id hid => ?_, rfl⟩⟩
        rw [hsmall (hle id hid)]
        exact hle id hid
    · intro a ha
      obtain ⟨ids, htext, hnarrow, rfl⟩ := (hr a).mp ha
      have hle := hlists htext hnarrow
      refine ⟨ids, ⟨htext, hle⟩, ?_⟩
      have hmap : ids.map narrowed = ids.map Int.ofNat :=
        List.map_congr_left fun id hid => hsmall (hle id hid)
      rw [hmap]
      exact hbits ids hle

end Memtoy
