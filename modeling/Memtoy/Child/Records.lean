import Memtoy.Child.ListHead
import Memtoy.Child.Reap

/-!
# Child.Records — the list of children in memory

The functions on `gcp->children`, with their records where they are: linked into the list
by the `c_link` they begin with, allocated and freed. Every access to a record that is not
there is an error of the model. `Children` is the list of records alone, which the
functions are compared with.
-/

namespace Memtoy

open CString LinkedRing

/-! ## Memory -/

/-- `child_t`, without the link. -/
structure ChildToy extends Child where
  cCfd : Int
  cRfd : Int
  cErrs : Nat
deriving DecidableEq, Repr

/-- `&gcp->children` -/
def childrenHead : ListPtr := 1

structure ChildMem where
  links : ListHeap
  /-- The records; `none` where none is allocated. -/
  toys : ListPtr → Option ChildToy
  /-- History: the descriptors closed. -/
  closed : List Int
  /-- History: the processes sent SIGQUIT. -/
  quits : List Pid

namespace ChildMem

variable (m : ChildMem)

/-- The list head, or the `c_link` of an allocated record. -/
def Linkable (p : ListPtr) : Prop := p = childrenHead ∨ m.toys p ≠ none

instance (p : ListPtr) : Decidable (m.Linkable p) :=
  inferInstanceAs (Decidable (p = childrenHead ∨ m.toys p ≠ none))

/-- `lp->next` -/
def nextLink (lp : ListPtr) : Option ListPtr :=
  if m.Linkable lp then some (m.links.next lp) else none

/-- `list_del(&cp->c_link)` -/
def listDelLink (cp : ListPtr) : Option ChildMem :=
  if m.Linkable cp ∧ m.Linkable (m.links.prev cp) ∧ m.Linkable (m.links.next cp) then
    some { m with links := listDel m.links cp }
  else none

/-- `free(cp)` -/
def freeToy (cp : ListPtr) : ChildMem := { m with toys := Function.update m.toys cp none }

/-! ## The functions -/

/-- The loop of `child_find_by_name` and `child_find_by_pid`. -/
def findLoop (test : ChildToy → Bool) : Nat → ListPtr → Option (Option ListPtr)
  | 0, _ => none
  | fuel + 1, lp =>
      if lp = childrenHead then some none
      else do
        let thisOne ← m.toys lp
        if test thisOne then some (some lp) else findLoop test fuel (← m.nextLink lp)

/-- `child_find_by_name` and `child_find_by_pid`, with what they compare. -/
def find (fuel : Nat) (test : ChildToy → Bool) : Option (Option ListPtr) :=
  if listEmpty m.links childrenHead then some none
  else findLoop m test fuel (m.links.next childrenHead)

/-- `child_find_by_name()` -/
def findByName (fuel : Nat) (childName : CStr) : Option (Option ListPtr) :=
  m.find fuel (·.cName = childName)

/-- `child_find_by_pid()` -/
def findByPid (fuel : Nat) (cpid : Pid) : Option (Option ListPtr) := m.find fuel (·.cPid = cpid)

/-- The part of `child_spawn` that makes the record, at the address `calloc` returns, and
inserts it. -/
def insert (childp : ListPtr) (toy : ChildToy) : Option ChildMem :=
  if m.Linkable (m.links.prev childrenHead) then
    some { m with
      links := listAddTail m.links childp childrenHead
      toys := Function.update m.toys childp (some toy) }
  else none

/-- `child_reap()` -/
def reap (fuel : Nat) (cpid : Pid) : Option ChildMem := do
  match ← m.findByPid fuel cpid with
  | none => some m
  | some childp =>
      let m ← m.listDelLink childp
      let toy ← m.toys childp
      some { m.freeToy childp with closed := m.closed ++ [toy.cCfd, toy.cRfd] }

/-- The loop of `children_free`: `lp` and `safe`. -/
def freeLoop (doKill : Bool) : Nat → ListPtr → ListPtr → ChildMem → Option ChildMem
  | 0, _, _, _ => none
  | fuel + 1, lp, safe, m =>
      if lp = childrenHead then some m
      else do
        let m ← m.listDelLink lp
        let cp ← m.toys lp
        let m := { m.freeToy lp with quits := if doKill then m.quits ++ [cp.cPid] else m.quits }
        freeLoop doKill fuel safe (← m.nextLink safe) m

/-- `children_free()` -/
def childrenFree (fuel : Nat) (doKill : Bool) : Option ChildMem :=
  if listEmpty m.links childrenHead then some m
  else do
    let lp := m.links.next childrenHead
    freeLoop doKill fuel lp (← m.nextLink lp) m

/-- The loop of `children_list`: the rows it prints. -/
def listLoop : Nat → ListPtr → Option (List (Pid × Nat × CStr))
  | 0, _ => none
  | fuel + 1, lp =>
      if lp = childrenHead then some []
      else do
        let cp ← m.toys lp
        let rows ← listLoop fuel (← m.nextLink lp)
        some ((cp.cPid, cp.cErrs, cp.cName) :: rows)

/-- `children_list()` -/
def childrenList (fuel : Nat) : Option (List (Pid × Nat × CStr)) :=
  if listEmpty m.links childrenHead then some []
  else listLoop m fuel (m.links.next childrenHead)

end ChildMem

/-! ## Calls -/

/-- What is done with the list: by `child_spawn`, with the address of the new record; by
`child_send`, with the outcome of `write`; by `child_kick`, the SIGCLD handler, a `/`
without a name, `cleanup()` and a child just forked. -/
inductive ChildCall where
  | spawn (childp : ListPtr) (toy : ChildToy)
  | send (childName : CStr) (ok : Bool)
  | kick (childName : CStr)
  | reap (cpid : Pid)
  | list
  | free (doKill : Bool)

/-- What the caller has got: the record of the name looked up, or the rows to print. -/
inductive ChildAnswer where
  | done
  | found (toy : Option ChildToy)
  | rows (rows : List (Pid × Nat × CStr))
deriving DecidableEq, Repr

/-- `childp->c_errs` after a `write`. -/
def ChildToy.wrote (toy : ChildToy) (ok : Bool) : ChildToy :=
  { toy with cErrs := if ok then 0 else toy.cErrs + 1 }

def ChildCall.exec (fuel : Nat) (m : ChildMem) : ChildCall → Option (ChildAnswer × ChildMem)
  | .spawn childp toy => do
      match ← m.findByName fuel toy.cName with
      | some lp => some (.found (some (← m.toys lp)), m)
      | none => some (.done, ← m.insert childp toy)
  | .send childName ok => do
      match ← m.findByName fuel childName with
      | none => some (.found none, m)
      | some lp =>
          let toy ← m.toys lp
          some (.found (some toy),
            { m with toys := Function.update m.toys lp (some (toy.wrote ok)) })
  | .kick childName => do
      match ← m.findByName fuel childName with
      | none => some (.found none, m)
      | some lp => some (.found (some (← m.toys lp)), m)
  | .reap cpid => do some (.done, ← m.reap fuel cpid)
  | .list => do some (.rows (← m.childrenList fuel), m)
  | .free doKill => do some (.done, ← m.childrenFree fuel doKill)

/-- The list of children alone. -/
structure Children where
  toys : List ChildToy
  closed : List Int
  quits : List Pid
deriving DecidableEq, Repr

def ChildCall.apply (s : Children) : ChildCall → ChildAnswer × Children
  | .spawn _ toy =>
      match s.toys.find? (·.cName = toy.cName) with
      | some other => (.found (some other), s)
      | none => (.done, { s with toys := s.toys ++ [toy] })
  | .send childName ok =>
      (.found (s.toys.find? (·.cName = childName)),
        { s with toys := s.toys.map fun toy => if toy.cName = childName then toy.wrote ok else toy })
  | .kick childName => (.found (s.toys.find? (·.cName = childName)), s)
  | .reap cpid =>
      match s.toys.find? (·.cPid = cpid) with
      | none => (.done, s)
      | some toy =>
          (.done, { s with
            toys := s.toys.eraseP (·.cPid = cpid)
            closed := s.closed ++ [toy.cCfd, toy.cRfd] })
  | .list => (.rows (s.toys.map fun toy => (toy.cPid, toy.cErrs, toy.cName)), s)
  | .free doKill =>
      (.done, { s with
        toys := []
        quits := if doKill then s.quits ++ s.toys.map (·.cPid) else s.quits })

/-- `calloc` returns an address that is not in use. -/
def ChildCall.Ok (m : ChildMem) : ChildCall → Prop
  | .spawn childp _ => ¬ m.Linkable childp
  | _ => True

/-! ## Representation -/

/-- The records with their addresses, in the order of the list: no other record is
allocated. -/
structure ChildMem.Represents (m : ChildMem) (recs : List (ListPtr × ChildToy)) (s : Children) :
    Prop where
  ring : IsRing m.links childrenHead (recs.map Prod.fst)
  toys : ∀ r ∈ recs, m.toys r.1 = some r.2
  allocated : ∀ p, m.toys p ≠ none → p ∈ recs.map Prod.fst
  list : s.toys = recs.map Prod.snd
  names : (s.toys.map (·.cName)).Nodup
  closed : m.closed = s.closed
  quits : m.quits = s.quits

namespace ChildMem.Represents

variable {m : ChildMem} {recs l r : List (ListPtr × ChildToy)} {s : Children} {fuel : Nat}

theorem linkable_iff (h : m.Represents recs s) {p : ListPtr} :
    m.Linkable p ↔ p ∈ childrenHead :: recs.map Prod.fst := by
  rw [List.mem_cons]
  refine or_congr_right ⟨h.allocated p, ?_⟩
  intro hmem
  obtain ⟨x, hx, rfl⟩ := List.mem_map.mp hmem
  simp [h.toys x hx]

/-- The links from one record to the next, and to the head from the last one. -/
theorem nextLink_head (h : m.Represents recs s) :
    m.nextLink ((recs.map Prod.fst).head?.getD childrenHead) =
      some (m.links.next ((recs.map Prod.fst).head?.getD childrenHead)) :=
  if_pos (h.linkable_iff.mpr (first_mem _ _))

theorem nextLink_node (h : m.Represents recs s) {x : ListPtr × ChildToy}
    (hrecs : recs = l ++ x :: r) :
    m.nextLink x.1 = some ((r.map Prod.fst).head?.getD childrenHead) := by
  subst hrecs
  have hring := h.ring
  rw [List.map_append, List.map_cons] at hring
  rw [nextLink, if_pos (h.linkable_iff.mpr (by simp)), hring.next_node]

/-! ## The loops -/

theorem findLoop_eq (h : m.Represents recs s) (test : ChildToy → Bool) (hrecs : recs = l ++ r)
    (hfuel : r.length < fuel) :
    m.findLoop test fuel ((r.map Prod.fst).head?.getD childrenHead) =
      some ((r.find? fun x => test x.2).map Prod.fst) := by
  induction r generalizing l fuel with
  | nil =>
      obtain ⟨fuel, rfl⟩ := Nat.exists_eq_succ_of_ne_zero (Nat.ne_of_gt hfuel)
      simp [findLoop]
  | cons x r ih =>
      obtain ⟨fuel, rfl⟩ := Nat.exists_eq_succ_of_ne_zero (Nat.ne_of_gt (Nat.zero_lt_of_lt hfuel))
      have hmem : x ∈ recs := by simp [hrecs]
      have hne : x.1 ≠ childrenHead := by
        intro heq
        exact (List.nodup_cons.mp h.ring.nodup).1 (heq ▸ List.mem_map_of_mem hmem)
      have htail := ih (by rw [hrecs, List.append_cons]) (Nat.lt_of_succ_lt_succ hfuel)
      simp only [List.map_cons, List.head?_cons, Option.getD_some, findLoop, if_neg hne,
        h.toys x hmem, h.nextLink_node hrecs, Option.bind_eq_bind, Option.bind_some, htail]
      cases htest : test x.2 with
      | true => simp [htest]
      | false => simp [htest]

theorem find_eq (h : m.Represents recs s) (test : ChildToy → Bool) (hfuel : recs.length < fuel) :
    m.find fuel test = some ((recs.find? fun x => test x.2).map Prod.fst) := by
  have hloop := h.findLoop_eq test (l := []) rfl hfuel
  rw [← h.ring.next_head] at hloop
  have hempty := listEmpty_iff h.ring
  rw [List.map_eq_nil_iff] at hempty
  by_cases hnil : recs = []
  · rw [find, if_pos (hempty.mpr hnil), hnil]
    rfl
  · rw [find, if_neg (mt hempty.mp hnil), hloop]

/-- A lookup: no record passes the test, or the first that does is returned. -/
theorem find_cases (h : m.Represents recs s) (test : ChildToy → Bool) (hfuel : recs.length < fuel) :
    (m.find fuel test = some none ∧ s.toys.find? test = none) ∨
      ∃ l x r, recs = l ++ x :: r ∧ (∀ y ∈ l, test y.2 = false) ∧ test x.2 = true ∧
        m.find fuel test = some (some x.1) ∧ s.toys.find? test = some x.2 := by
  rw [h.find_eq test hfuel, h.list, List.find?_map]
  change (some (Option.map Prod.fst (recs.find? fun x => test x.2)) = some none ∧
    Option.map Prod.snd (recs.find? fun x => test x.2) = none) ∨ _
  cases hfind : recs.find? fun x => test x.2 with
  | none => exact .inl ⟨rfl, rfl⟩
  | some x =>
      obtain ⟨htest, l, r, hrecs, hl⟩ := List.find?_eq_some_iff_append.mp hfind
      refine .inr ⟨l, x, r, hrecs, fun y hy => by simpa using hl y hy, htest, rfl, ?_⟩
      change Option.map Prod.snd (recs.find? fun x => test x.2) = some x.2
      rw [hfind]
      rfl

theorem listLoop_eq (h : m.Represents recs s) (hrecs : recs = l ++ r) (hfuel : r.length < fuel) :
    m.listLoop fuel ((r.map Prod.fst).head?.getD childrenHead) =
      some (r.map fun x => (x.2.cPid, x.2.cErrs, x.2.cName)) := by
  induction r generalizing l fuel with
  | nil =>
      obtain ⟨fuel, rfl⟩ := Nat.exists_eq_succ_of_ne_zero (Nat.ne_of_gt hfuel)
      simp [listLoop]
  | cons x r ih =>
      obtain ⟨fuel, rfl⟩ := Nat.exists_eq_succ_of_ne_zero (Nat.ne_of_gt (Nat.zero_lt_of_lt hfuel))
      have hmem : x ∈ recs := by simp [hrecs]
      have hne : x.1 ≠ childrenHead := by
        intro heq
        exact (List.nodup_cons.mp h.ring.nodup).1 (heq ▸ List.mem_map_of_mem hmem)
      have htail := ih (by rw [hrecs, List.append_cons]) (Nat.lt_of_succ_lt_succ hfuel)
      simp only [List.map_cons, List.head?_cons, Option.getD_some, listLoop, if_neg hne,
        h.toys x hmem, h.nextLink_node hrecs, Option.bind_eq_bind, Option.bind_some, htail]

theorem childrenList_eq (h : m.Represents recs s) (hfuel : recs.length < fuel) :
    m.childrenList fuel = some (recs.map fun x => (x.2.cPid, x.2.cErrs, x.2.cName)) := by
  have hloop := h.listLoop_eq (l := []) rfl hfuel
  rw [← h.ring.next_head] at hloop
  have hempty := listEmpty_iff h.ring
  rw [List.map_eq_nil_iff] at hempty
  by_cases hnil : recs = []
  · rw [childrenList, if_pos (hempty.mpr hnil), hnil]
    rfl
  · rw [childrenList, if_neg (mt hempty.mp hnil), hloop]

/-! ## Changes -/

/-- The neighbours of a record are there. -/
theorem listDelLink_eq {x : ListPtr × ChildToy} (h : m.Represents (l ++ x :: r) s) :
    m.listDelLink x.1 = some { m with links := listDel m.links x.1 } := by
  have hring := h.ring
  rw [List.map_append, List.map_cons] at hring
  have hprev : m.Linkable (m.links.prev x.1) := by
    rw [hring.prev_node, h.linkable_iff, List.map_append]
    exact List.mem_append_left _ (last_mem childrenHead (l.map Prod.fst))
  have hnext : m.Linkable (m.links.next x.1) := by
    rw [hring.next_node, h.linkable_iff, List.map_append, List.map_cons]
    have hfirst := first_mem childrenHead (r.map Prod.fst)
    simp only [List.mem_cons, List.mem_append] at hfirst ⊢
    tauto
  exact if_pos ⟨h.linkable_iff.mpr (by simp), hprev, hnext⟩

/-- A record unlinked and freed. -/
theorem unlinked {x : ListPtr × ChildToy} (h : m.Represents (l ++ x :: r) s)
    (closed : List Int) (quits : List Pid) :
    Represents
      { links := listDel m.links x.1, toys := Function.update m.toys x.1 none
        closed := closed, quits := quits } (l ++ r)
      { toys := (l ++ r).map Prod.snd, closed := closed, quits := quits } := by
  have hring := h.ring
  rw [List.map_append, List.map_cons] at hring
  have hnodup := nodup_node.mp hring.nodup
  have hother : ∀ y ∈ l ++ r, y.1 ≠ x.1 := by
    intro y hy heq
    refine (List.nodup_cons.mp hnodup).1 ?_
    rw [← heq, ← List.map_append]
    exact List.mem_cons_of_mem _ (List.mem_map_of_mem hy)
  have hsub : (l ++ r).Sublist (l ++ x :: r) := by simp
  constructor
  case ring =>
    rw [List.map_append]
    exact listDel_ring hring
  case toys =>
    intro y hy
    dsimp only
    rw [Function.update_of_ne (hother y hy)]
    exact h.toys y (hsub.subset hy)
  case allocated =>
    intro p hp
    dsimp only at hp
    by_cases hpx : p = x.1
    · rw [hpx, Function.update_self] at hp
      exact absurd rfl hp
    · rw [Function.update_of_ne hpx] at hp
      have hmem := h.allocated p hp
      simp only [List.map_append, List.map_cons, List.mem_append, List.mem_cons] at hmem ⊢
      tauto
  case names =>
    have hnames := h.names
    rw [h.list] at hnames
    exact hnames.sublist ((hsub.map Prod.snd).map _)
  all_goals rfl

/-- The loop of `children_free` unlinks and frees the records one by one; the link to the
next one is read before. -/
theorem freeLoop_eq (doKill : Bool) (h : m.Represents r s) (hfuel : r.length < fuel) :
    ∃ m', freeLoop doKill fuel ((r.map Prod.fst).head?.getD childrenHead)
        (m.links.next ((r.map Prod.fst).head?.getD childrenHead)) m = some m' ∧
      m'.Represents [] { s with
        toys := []
        quits := if doKill then s.quits ++ s.toys.map (·.cPid) else s.quits } := by
  induction r generalizing m s fuel with
  | nil =>
      obtain ⟨fuel, rfl⟩ := Nat.exists_eq_succ_of_ne_zero (Nat.ne_of_gt hfuel)
      refine ⟨m, by simp [freeLoop], ?_⟩
      have hnil : s.toys = [] := h.list
      have hsame : ({ s with
          toys := []
          quits := if doKill then s.quits ++ s.toys.map (·.cPid) else s.quits } : Children) = s := by
        cases s
        subst hnil
        cases doKill <;> simp
      rw [hsame]
      exact h
  | cons x r ih =>
      obtain ⟨fuel, rfl⟩ := Nat.exists_eq_succ_of_ne_zero (Nat.ne_of_gt (Nat.zero_lt_of_lt hfuel))
      have hne : x.1 ≠ childrenHead := by
        intro heq
        exact (List.nodup_cons.mp h.ring.nodup).1 (by simp [heq])
      have hnext : m.links.next x.1 = (r.map Prod.fst).head?.getD childrenHead :=
        IsRing.next_node (l := []) h.ring
      generalize hq : (if doKill then m.quits ++ [x.2.cPid] else m.quits) = quits
      have hfreed := unlinked (l := []) h m.closed quits
      obtain ⟨m', hloop, hm'⟩ := ih hfreed (Nat.lt_of_succ_lt_succ hfuel)
      refine ⟨m', ?_, ?_⟩
      · have hdel := listDelLink_eq (l := []) h
        have hlink := hfreed.nextLink_head
        simp only [List.nil_append] at hlink hloop
        simp only [List.map_cons, List.head?_cons, Option.getD_some, freeLoop, if_neg hne, hdel,
          Option.bind_eq_bind, Option.bind_some, h.toys x (by simp), hnext, hq, freeToy, hlink]
        exact hloop
      · have hlist : s.toys = x.2 :: r.map Prod.snd := h.list
        rw [h.closed] at hm'
        subst hq
        cases doKill <;> simpa [hlist, h.quits] using hm'

theorem childrenFree_eq (doKill : Bool) (h : m.Represents recs s) (hfuel : recs.length < fuel) :
    ∃ m', m.childrenFree fuel doKill = some m' ∧
      m'.Represents [] { s with
        toys := []
        quits := if doKill then s.quits ++ s.toys.map (·.cPid) else s.quits } := by
  obtain ⟨m', hloop, hm'⟩ := h.freeLoop_eq doKill hfuel
  refine ⟨m', ?_, hm'⟩
  have hempty := listEmpty_iff h.ring
  rw [List.map_eq_nil_iff] at hempty
  by_cases hnil : recs = []
  · rw [childrenFree, if_pos (hempty.mpr hnil), ← hloop, hnil]
    obtain ⟨fuel, rfl⟩ := Nat.exists_eq_succ_of_ne_zero (Nat.ne_of_gt (Nat.zero_lt_of_lt hfuel))
    simp [freeLoop]
  · rw [childrenFree, if_neg (mt hempty.mp hnil)]
    have hlink := h.nextLink_head
    rw [← h.ring.next_head] at hlink hloop
    dsimp only
    rw [hlink]
    exact hloop

theorem insert_eq (h : m.Represents recs s) {childp : ListPtr} {toy : ChildToy}
    (hnew : ¬ m.Linkable childp) (hname : s.toys.find? (·.cName = toy.cName) = none) :
    ∃ m', m.insert childp toy = some m' ∧
      m'.Represents (recs ++ [(childp, toy)]) { s with toys := s.toys ++ [toy] } := by
  have hnotMem : childp ∉ childrenHead :: recs.map Prod.fst := mt h.linkable_iff.mpr hnew
  have hlink : m.Linkable (m.links.prev childrenHead) := by
    rw [h.ring.prev_head, h.linkable_iff]
    exact last_mem childrenHead _
  refine ⟨_, if_pos hlink, ?_⟩
  constructor
  case ring =>
    rw [List.map_append]
    exact listAddTail_ring h.ring hnotMem
  case toys =>
    intro y hy
    dsimp only
    rcases List.mem_append.mp hy with hold | hlast
    · have hne : y.1 ≠ childp := by
        rintro rfl
        exact hnotMem (List.mem_cons_of_mem _ (List.mem_map_of_mem hold))
      rw [Function.update_of_ne hne]
      exact h.toys y hold
    · rw [List.mem_singleton] at hlast
      rw [hlast, Function.update_self]
  case allocated =>
    intro p hp
    dsimp only at hp
    rw [List.map_append, List.mem_append]
    by_cases hpx : p = childp
    · exact .inr (by simp [hpx])
    · rw [Function.update_of_ne hpx] at hp
      exact .inl (h.allocated p hp)
  case list => simp [h.list]
  case names =>
    rw [List.map_append, List.nodup_append]
    refine ⟨h.names, by simp, ?_⟩
    intro name hmem name' hmem' heq
    obtain ⟨other, hother, rfl⟩ := List.mem_map.mp hmem
    rw [List.map_singleton, List.mem_singleton] at hmem'
    have hno := List.find?_eq_none.mp hname other hother
    exact hno (by simp [heq, hmem'])
  all_goals first | exact h.closed | exact h.quits

/-- The count of errors of one record, wherever it is. -/
theorem counted {x : ListPtr × ChildToy} (h : m.Represents (l ++ x :: r) s) (ok : Bool) :
    Represents { m with toys := Function.update m.toys x.1 (some (x.2.wrote ok)) }
      (l ++ (x.1, x.2.wrote ok) :: r)
      { s with toys := s.toys.map fun toy =>
          if toy.cName = x.2.cName then toy.wrote ok else toy } := by
  have hfst : (l ++ (x.1, x.2.wrote ok) :: r).map Prod.fst = (l ++ x :: r).map Prod.fst := by simp
  have hnames := h.names
  rw [h.list, List.map_append, List.map_append, List.map_cons, List.map_cons] at hnames
  have hnodup := List.perm_middle.nodup_iff.mp hnames
  have hother : ∀ y ∈ l ++ r, y.2.cName ≠ x.2.cName := by
    intro y hy heq
    refine (List.nodup_cons.mp hnodup).1 ?_
    rw [← heq, ← List.map_append, ← List.map_append]
    exact List.mem_map_of_mem (List.mem_map_of_mem hy)
  constructor
  case ring => rw [hfst]; exact h.ring
  case toys =>
    intro y hy
    dsimp only
    have hkeys := h.ring.nodup
    rw [List.map_append, List.map_cons] at hkeys
    have hkeys := (List.nodup_cons.mp hkeys).2
    have hkeys := (List.nodup_cons.mp (List.perm_middle.nodup_iff.mp hkeys)).1
    rw [← List.map_append] at hkeys
    by_cases hy' : y ∈ l ++ r
    · have hne : y.1 ≠ x.1 := fun heq => hkeys (heq ▸ List.mem_map_of_mem hy')
      rw [Function.update_of_ne hne]
      refine h.toys y ?_
      simp only [List.mem_append, List.mem_cons] at hy' ⊢
      tauto
    · have hyx : y = (x.1, x.2.wrote ok) := by
        simp only [List.mem_append, List.mem_cons] at hy hy'
        tauto
      rw [hyx, Function.update_self]
  case allocated =>
    intro p hp
    dsimp only at hp
    rw [hfst]
    by_cases hpx : p = x.1
    · simp [hpx]
    · rw [Function.update_of_ne hpx] at hp
      exact h.allocated p hp
  case list =>
    have hsame : ∀ t ⊆ l ++ r, (t.map Prod.snd).map (fun toy : ChildToy =>
        if toy.cName = x.2.cName then toy.wrote ok else toy) = t.map Prod.snd := by
      intro t ht
      rw [List.map_map]
      exact List.map_congr_left fun y hy => if_neg (hother y (ht hy))
    dsimp only
    rw [h.list, List.map_append, List.map_cons, List.map_append, List.map_cons, if_pos rfl,
      hsame l (by simp), hsame r (by simp), List.map_append, List.map_cons]
  case names =>
    have hsame : (s.toys.map fun toy =>
        if toy.cName = x.2.cName then toy.wrote ok else toy).map (·.cName) =
        s.toys.map (·.cName) := by
      rw [List.map_map]
      refine List.map_congr_left fun toy _ => ?_
      dsimp only [Function.comp]
      split <;> rfl
    dsimp only
    rw [hsame]
    exact h.names
  all_goals first | exact h.closed | exact h.quits

/-- The record of a child is unlinked, its descriptors are closed, and it is freed. -/
theorem reap_eq {x : ListPtr × ChildToy} {cpid : Pid} (h : m.Represents (l ++ x :: r) s)
    (hl : ∀ y ∈ l, decide (y.2.cPid = cpid) = false) (htest : decide (x.2.cPid = cpid) = true)
    (hfind : m.findByPid fuel cpid = some (some x.1)) :
    ∃ m', m.reap fuel cpid = some m' ∧ m'.Represents (l ++ r)
        { s with
          toys := s.toys.eraseP (·.cPid = cpid)
          closed := s.closed ++ [x.2.cCfd, x.2.cRfd] } := by
  have herase : s.toys.eraseP (·.cPid = cpid) = (l ++ r).map Prod.snd := by
    have hskip : ∀ toy ∈ l.map Prod.snd, ¬ decide (toy.cPid = cpid) = true := by
      intro toy htoy
      obtain ⟨y, hy, rfl⟩ := List.mem_map.mp htoy
      simpa using hl y hy
    rw [h.list, List.map_append, List.map_cons, List.eraseP_append_right _ hskip,
      List.eraseP_cons_of_pos (by exact htest), List.map_append]
  have hfreed := h.unlinked (m.closed ++ [x.2.cCfd, x.2.cRfd]) m.quits
  rw [herase, ← h.closed, ← h.quits]
  refine ⟨_, ?_, hfreed⟩
  simp only [reap, hfind, h.listDelLink_eq, h.toys x (by simp), Option.bind_eq_bind,
    Option.bind_some, freeToy]

end ChildMem.Represents

/-! ## Runs -/

/-- Each call does to the memory what it does to the list, and gives the same answer. -/
theorem ChildCall.exec_represents {m : ChildMem} {recs : List (ListPtr × ChildToy)} {s : Children}
    {fuel : Nat} {call : ChildCall} (h : m.Represents recs s) (hok : call.Ok m)
    (hfuel : recs.length < fuel) :
    ∃ m' recs', call.exec fuel m = some ((call.apply s).1, m') ∧
      m'.Represents recs' (call.apply s).2 ∧ recs'.length ≤ recs.length + 1 := by
  cases call with
  | spawn childp toy =>
      rcases h.find_cases (·.cName = toy.cName) hfuel with
        ⟨hfind, hspec⟩ | ⟨l, x, r, rfl, -, -, hfind, hspec⟩
      · obtain ⟨m', hinsert, hm'⟩ := h.insert_eq hok hspec
        exact ⟨m', _, by simp [exec, apply, ChildMem.findByName, hfind, hspec, hinsert],
          by simpa [apply, hspec] using hm', by simp⟩
      · exact ⟨m, _, by simp [exec, apply, ChildMem.findByName, hfind, hspec, h.toys x],
          by simpa [apply, hspec] using h, by simp⟩
  | send childName ok =>
      rcases h.find_cases (·.cName = childName) hfuel with
        ⟨hfind, hspec⟩ | ⟨l, x, r, rfl, -, htest, hfind, hspec⟩
      · have hsame : (s.toys.map fun toy =>
            if toy.cName = childName then toy.wrote ok else toy) = s.toys := by
          conv_rhs => rw [← List.map_id s.toys]
          refine List.map_congr_left fun toy htoy => if_neg ?_
          simpa using List.find?_eq_none.mp hspec toy htoy
        exact ⟨m, recs, by simp [exec, apply, ChildMem.findByName, hfind, hspec],
          by simpa [apply, hsame] using h, by simp⟩
      · have hname : x.2.cName = childName := by simpa using htest
        subst hname
        exact ⟨_, _, by simp [exec, apply, ChildMem.findByName, hfind, hspec, h.toys x],
          h.counted ok, by simp⟩
  | kick childName =>
      rcases h.find_cases (·.cName = childName) hfuel with
        ⟨hfind, hspec⟩ | ⟨l, x, r, rfl, -, -, hfind, hspec⟩
      · exact ⟨m, recs, by simp [exec, apply, ChildMem.findByName, hfind, hspec], h, by simp⟩
      · exact ⟨m, _, by simp [exec, apply, ChildMem.findByName, hfind, hspec, h.toys x], h,
          by simp⟩
  | reap cpid =>
      rcases h.find_cases (·.cPid = cpid) hfuel with
        ⟨hfind, hspec⟩ | ⟨l, x, r, rfl, hl, htest, hfind, hspec⟩
      · exact ⟨m, recs, by simp [exec, apply, ChildMem.reap, ChildMem.findByPid, hfind, hspec],
          by simpa [apply, hspec] using h, by simp⟩
      · obtain ⟨m', hreap, hfreed⟩ := h.reap_eq hl htest hfind
        refine ⟨m', l ++ r, ?_, ?_, by simp only [List.length_append, List.length_cons]; omega⟩
        · simp only [exec, apply, hreap, hspec, Option.bind_eq_bind, Option.bind_some]
        · simpa only [apply, hspec] using hfreed
  | list =>
      refine ⟨m, recs, ?_, h, by simp⟩
      simp [exec, apply, h.childrenList_eq hfuel, h.list]
  | free doKill =>
      obtain ⟨m', hfree, hm'⟩ := h.childrenFree_eq doKill hfuel
      exact ⟨m', [], by simp [exec, apply, hfree], hm', by simp⟩

/-- Calls one after the other: the answers, and the memory at the end. -/
def runCalls (fuel : Nat) : List ChildCall → ChildMem → Option (List ChildAnswer × ChildMem)
  | [], m => some ([], m)
  | call :: calls, m => do
      let (answer, m) ← call.exec fuel m
      let (answers, m) ← runCalls fuel calls m
      some (answer :: answers, m)

def applyCalls : List ChildCall → Children → List ChildAnswer × Children
  | [], s => ([], s)
  | call :: calls, s =>
      let (answers, s') := applyCalls calls (call.apply s).2
      ((call.apply s).1 :: answers, s')

/-- Every `calloc` of the run returns an address that is not in use then. -/
def CallocOk (fuel : Nat) : List ChildCall → ChildMem → Prop
  | [], _ => True
  | call :: calls, m =>
      call.Ok m ∧ ∀ answer m', call.exec fuel m = some (answer, m') → CallocOk fuel calls m'

theorem runCalls_represents {calls : List ChildCall} {m : ChildMem}
    {recs : List (ListPtr × ChildToy)} {s : Children} {fuel : Nat} (h : m.Represents recs s)
    (hok : CallocOk fuel calls m) (hfuel : recs.length + calls.length < fuel) :
    ∃ m' recs', runCalls fuel calls m = some ((applyCalls calls s).1, m') ∧
      m'.Represents recs' (applyCalls calls s).2 := by
  induction calls generalizing m recs s with
  | nil => exact ⟨m, recs, rfl, h⟩
  | cons call calls ih =>
      rw [List.length_cons] at hfuel
      have hwalk : recs.length < fuel := by omega
      obtain ⟨m₁, recs₁, hexec, h₁, hlen⟩ := call.exec_represents h hok.1 hwalk
      obtain ⟨m₂, recs₂, hrun, h₂⟩ := ih h₁ (hok.2 _ m₁ hexec) (by omega)
      exact ⟨m₂, recs₂, by simp [runCalls, applyCalls, hexec, hrun], h₂⟩

/-- `INIT_LIST_HEAD(&gcp->children)`, whatever else is in memory. -/
def initChildren (links : ListHeap) : ChildMem where
  links := initListHead links childrenHead
  toys := fun _ => none
  closed := []
  quits := []

def noToys : Children where
  toys := []
  closed := []
  quits := []

theorem initChildren_represents (links : ListHeap) :
    (initChildren links).Represents [] noToys where
  ring := ⟨by simp, by simp [Linked, initChildren, initListHead, setNext, setPrev]⟩
  toys := by simp
  allocated := by simp [initChildren]
  list := rfl
  names := by simp [noToys]
  closed := rfl
  quits := rfl

/-- Two children, one of them reaped while the other gets a command, then `cleanup()`. -/
def sampleToys : List ChildCall :=
  [.spawn 2 ⟨⟨['a'], 10⟩, 5, 6, 0⟩, .spawn 3 ⟨⟨['b'], 11⟩, 7, 8, 0⟩, .send ['b'] false, .reap 10,
    .list, .free true]

theorem CallocOk.cons {fuel : Nat} {call : ChildCall} {calls : List ChildCall} {m m' : ChildMem}
    {answer : ChildAnswer} (hok : call.Ok m) (hexec : call.exec fuel m = some (answer, m'))
    (h : CallocOk fuel calls m') : CallocOk fuel (call :: calls) m := by
  refine ⟨hok, fun answer' m'' hexec' => ?_⟩
  rw [hexec] at hexec'
  cases hexec'
  exact h

/-- Looking a name up among the records is `childFindByName` on what the other modules
know of them. -/
theorem find?_name (toys : List ChildToy) (name : CStr) :
    (toys.find? (·.cName = name)).map ChildToy.toChild =
      childFindByName (toys.map ChildToy.toChild) name := by
  rw [childFindByName, List.find?_map]
  rfl

/-- `childReap` takes the first record with the pid out, as the memory does. -/
theorem eraseP_pid (recs : List ChildRec) (cpid : Pid) :
    recs.eraseP (·.cPid = cpid) = childReap recs cpid := by
  induction recs with
  | nil => rfl
  | cons first recs ih =>
      by_cases hpid : first.cPid = cpid
      · simp [childReap, childFindByPid, hpid]
      · rw [List.eraseP_cons_of_neg (by simpa using hpid), ih, childReap, childReap, childFindByPid,
          childFindByPid, List.find?_cons_of_neg (by simpa using hpid)]
        cases hfind : recs.find? (·.cPid = cpid) with
        | none => rfl
        | some childp =>
            have hne : ¬ (first == childp) = true := by
              rintro heq
              have hchild := List.find?_some hfind
              rw [← eq_of_beq heq] at hchild
              exact hpid (by simpa using hchild)
            exact (List.erase_cons_tail hne).symm

end Memtoy
