import Memtoy.Lib.LinkedRing

/-!
# Child.ListHead — `linux-list.h`

The list of children is a circular doubly linked list with the links inside the records.
The functions of the header are stores to a heap of `struct list_head`; `ListHeads` is what
the heap stands for, the entries of every list by the list's head. Any number of lists
may live in one heap.
-/

namespace Memtoy

open LinkedRing

/-! ## The functions -/

/-- A `struct list_head *`; 0 is NULL. -/
abbrev ListPtr := Nat

/-- The `struct list_head`s in memory. -/
abbrev ListHeap := Links ListPtr

/-- `ptr->next = v` -/
def setNext (m : ListHeap) (ptr v : ListPtr) : ListHeap :=
  { m with next := Function.update m.next ptr v }

/-- `ptr->prev = v` -/
def setPrev (m : ListHeap) (ptr v : ListPtr) : ListHeap :=
  { m with prev := Function.update m.prev ptr v }

/-- `INIT_LIST_HEAD(ptr)` -/
def initListHead (m : ListHeap) (ptr : ListPtr) : ListHeap :=
  setPrev (setNext m ptr ptr) ptr ptr

/-- `__list_add()`: insert a new entry between two known consecutive entries. -/
def rawListAdd (m : ListHeap) (new prev next : ListPtr) : ListHeap :=
  let m := setPrev m next new
  let m := setNext m new next
  let m := setPrev m new prev
  setNext m prev new

/-- `list_add()`: add a new entry after the head. -/
def listAdd (m : ListHeap) (new head : ListPtr) : ListHeap :=
  rawListAdd m new head (m.next head)

/-- `list_add_tail()`: add a new entry before the head. -/
def listAddTail (m : ListHeap) (new head : ListPtr) : ListHeap :=
  rawListAdd m new (m.prev head) head

/-- `__list_del()`: make the prev/next entries point to each other. -/
def rawListDel (m : ListHeap) (prev next : ListPtr) : ListHeap :=
  setNext (setPrev m next prev) prev next

/-- `list_del()`: the entry is in an undefined state after this. -/
def listDel (m : ListHeap) (entry : ListPtr) : ListHeap :=
  let m := rawListDel m (m.prev entry) (m.next entry)
  setNext (setPrev m entry 0) entry 0

/-- `list_del_init()` -/
def listDelInit (m : ListHeap) (entry : ListPtr) : ListHeap :=
  initListHead (rawListDel m (m.prev entry) (m.next entry)) entry

/-- `list_empty()` -/
def listEmpty (m : ListHeap) (head : ListPtr) : Bool := m.next head = head

/-- `list_for_each()`: the values of the loop counter, `none` when there are as many as
there is fuel. -/
def listForEach (m : ListHeap) (head : ListPtr) (fuel : Nat) : Option (List ListPtr) :=
  walk m head fuel (m.next head)

/-- `list_splice()`: join two lists. -/
def listSplice (m : ListHeap) (list head : ListPtr) : ListHeap :=
  let first := m.next list
  if first ≠ list then
    let last := m.prev list
    let at_ := m.next head
    let m := setPrev m first head
    let m := setNext m head first
    let m := setNext m last at_
    setPrev m at_ last
  else m

theorem rawListAdd_eq (m : ListHeap) (new prev next : ListPtr) :
    rawListAdd m new prev next = join (join m new next) prev new := rfl

theorem rawListDel_eq (m : ListHeap) (prev next : ListPtr) :
    rawListDel m prev next = join m prev next := rfl

/-! ## Calls -/

inductive ListOp where
  | init (ptr : ListPtr)
  | add (new head : ListPtr)
  | addTail (new head : ListPtr)
  | del (entry : ListPtr)
  | delInit (entry : ListPtr)
  | splice (list head : ListPtr)

def ListOp.exec (m : ListHeap) : ListOp → ListHeap
  | .init ptr => initListHead m ptr
  | .add new head => listAdd m new head
  | .addTail new head => listAddTail m new head
  | .del entry => listDel m entry
  | .delInit entry => listDelInit m entry
  | .splice list head => listSplice m list head

/-! ## What a heap stands for -/

/-- The entries of the lists in a heap, by their heads. -/
abbrev ListHeads := ListPtr → Option (List ListPtr)

/-- The pointer is the head or an entry of a list. -/
def InUse (ls : ListHeads) (p : ListPtr) : Prop := ∃ head xs, ls head = some xs ∧ p ∈ head :: xs

def IsEntry (ls : ListHeads) (p : ListPtr) : Prop := ∃ head xs, ls head = some xs ∧ p ∈ xs

/-- Take an entry out of the list it is in. -/
def unlink (ls : ListHeads) (entry : ListPtr) : ListHeads :=
  fun head => (ls head).map (·.erase entry)

/-- What the functions are for. A spliced list that was not empty is not a list any more:
its head still points into the other one. -/
def ListOp.apply (ls : ListHeads) : ListOp → ListHeads
  | .init ptr => Function.update ls ptr (some [])
  | .add new head => Function.update ls head ((ls head).map (new :: ·))
  | .addTail new head => Function.update ls head ((ls head).map (· ++ [new]))
  | .del entry => unlink ls entry
  | .delInit entry => Function.update (unlink ls entry) entry (some [])
  | .splice list head =>
      match ls list, ls head with
      | some (first :: ys), some xs =>
          Function.update (Function.update ls list none) head (some (first :: ys ++ xs))
      | _, _ => ls

/-- What a caller has to see to: a new entry or head is not in use, an old one is. -/
def ListOp.Ok (ls : ListHeads) : ListOp → Prop
  | .init ptr => ptr ≠ 0 ∧ ¬ InUse ls ptr
  | .add new head | .addTail new head => new ≠ 0 ∧ ¬ InUse ls new ∧ ls head ≠ none
  | .del entry | .delInit entry => IsEntry ls entry
  | .splice list head => list ≠ head ∧ ls list ≠ none ∧ ls head ≠ none

/-- Every call of a run meets what its caller has to see to. -/
def CallsOk : List ListOp → ListHeads → Prop
  | [], _ => True
  | op :: ops, ls => op.Ok ls ∧ CallsOk ops (op.apply ls)

/-- The heap holds the lists: each is a ring, no two share a node, and none has NULL. -/
structure ListHolds (m : ListHeap) (ls : ListHeads) : Prop where
  ring : ∀ head xs, ls head = some xs → IsRing m head xs
  apart : ∀ head xs head' xs', ls head = some xs → ls head' = some xs' → head ≠ head' →
    ∀ c ∈ head :: xs, c ∉ head' :: xs'
  null : ¬ InUse ls 0

variable {m m' : ListHeap} {ls : ListHeads} {head entry new : ListPtr} {xs ys : List ListPtr}

/-! ## One list -/

theorem listAddTail_ring (hring : IsRing m head xs) (hnew : new ∉ head :: xs) :
    IsRing (listAddTail m new head) head (xs ++ [new]) := by
  rw [listAddTail, rawListAdd_eq, hring.prev_head]
  rw [← List.append_nil xs] at hring hnew
  simpa using hring.insert hnew

theorem listDel_ring {l r : List ListPtr} (hring : IsRing m head (l ++ entry :: r)) :
    IsRing (listDel m entry) head (l ++ r) := by
  have hremove := hring.remove
  rw [← rawListDel_eq, ← hring.prev_node, ← hring.next_node] at hremove
  have hnodup := nodup_node.mp hring.nodup
  refine hremove.congr fun c hc => ?_
  have hne : c ≠ entry := by
    rintro rfl
    exact (List.nodup_cons.mp hnodup).1 hc
  simp [listDel, setNext, setPrev, hne]

theorem listEmpty_iff (hring : IsRing m head xs) : listEmpty m head = true ↔ xs = [] := by
  rw [listEmpty, decide_eq_true_eq, hring.next_head]
  cases xs with
  | nil => simp
  | cons first xs =>
      simp only [List.head?_cons, Option.getD_some, reduceCtorEq, iff_false]
      rintro rfl
      exact (List.nodup_cons.mp hring.nodup).1 (by simp)

/-! ## Changes to a heap -/

namespace ListHolds

/-- Stores to a node that is not in use. -/
theorem store (h : ListHolds m ls) (hfree : ¬ InUse ls new)
    (hsame : ∀ c, c ≠ new → m'.next c = m.next c ∧ m'.prev c = m.prev c) : ListHolds m' ls where
  ring := by
    intro head xs hxs
    refine (h.ring head xs hxs).congr fun c hc => hsame c ?_
    rintro rfl
    exact hfree ⟨head, xs, hxs, hc⟩
  apart := h.apart
  null := h.null

/-- One list replaced by another, on nodes that no other list has. -/
theorem update (h : ListHolds m ls) (hring : IsRing m' head ys)
    (hothers : ∀ head' xs', head' ≠ head → ls head' = some xs' → IsRing m' head' xs')
    (hapart : ∀ c ∈ head :: ys, ∀ head' xs', head' ≠ head → ls head' = some xs' →
      c ∉ head' :: xs') (hnull : 0 ∉ head :: ys) :
    ListHolds m' (Function.update ls head (some ys)) where
  ring := by
    intro head' xs' hxs'
    by_cases hhead : head' = head
    · subst hhead
      rw [Function.update_self, Option.some.injEq] at hxs'
      exact hxs' ▸ hring
    · rw [Function.update_of_ne hhead] at hxs'
      exact hothers head' xs' hhead hxs'
  apart := by
    intro head₁ xs₁ head₂ xs₂ h₁ h₂ hne c hc₁ hc₂
    by_cases hhead₁ : head₁ = head
    · subst hhead₁
      rw [Function.update_self, Option.some.injEq] at h₁
      rw [Function.update_of_ne hne.symm] at h₂
      exact hapart c (h₁ ▸ hc₁) head₂ xs₂ hne.symm h₂ hc₂
    · rw [Function.update_of_ne hhead₁] at h₁
      by_cases hhead₂ : head₂ = head
      · subst hhead₂
        rw [Function.update_self, Option.some.injEq] at h₂
        exact hapart c (h₂ ▸ hc₂) head₁ xs₁ hne h₁ hc₁
      · rw [Function.update_of_ne hhead₂] at h₂
        exact h.apart head₁ xs₁ head₂ xs₂ h₁ h₂ hne c hc₁ hc₂
  null := by
    rintro ⟨head', xs', hxs', hmem⟩
    by_cases hhead : head' = head
    · subst hhead
      rw [Function.update_self, Option.some.injEq] at hxs'
      exact hnull (hxs' ▸ hmem)
    · rw [Function.update_of_ne hhead] at hxs'
      exact h.null ⟨head', xs', hxs', hmem⟩

/-- A list that is not looked at any more. -/
theorem forget (h : ListHolds m ls) : ListHolds m (Function.update ls head none) := by
  have hls : ∀ head' xs', Function.update ls head none head' = some xs' → ls head' = some xs' := by
    intro head' xs' hxs'
    by_cases hhead : head' = head
    · subst hhead
      simp at hxs'
    · rwa [Function.update_of_ne hhead] at hxs'
  refine ⟨?_, ?_, ?_⟩
  · exact fun head' xs' hxs' => h.ring head' xs' (hls head' xs' hxs')
  · exact fun head₁ xs₁ head₂ xs₂ h₁ h₂ =>
      h.apart head₁ xs₁ head₂ xs₂ (hls head₁ xs₁ h₁) (hls head₂ xs₂ h₂)
  · rintro ⟨head', xs', hxs', hmem⟩
    exact h.null ⟨head', xs', hls head' xs' hxs', hmem⟩

theorem init (h : ListHolds m ls) (hfree : ¬ InUse ls head) (hnull : head ≠ 0) :
    ListHolds (initListHead m head) (Function.update ls head (some [])) := by
  have hstore : ListHolds (initListHead m head) ls := by
    refine h.store hfree fun c hc => ?_
    simp [initListHead, setNext, setPrev, hc]
  refine hstore.update ?_ ?_ ?_ ?_
  · refine ⟨by simp, ?_⟩
    simp [Linked, initListHead, setNext, setPrev]
  · exact fun head' xs' _ hxs' => hstore.ring head' xs' hxs'
  · rintro c hc head' xs' - hxs' hmem
    rw [List.mem_singleton] at hc
    exact hfree ⟨head', xs', hxs', hc ▸ hmem⟩
  · simpa using hnull.symm

/-- A new entry between two neighbours of a list. -/
theorem insert {l r : List ListPtr} (h : ListHolds m ls) (hxs : ls head = some (l ++ r))
    (hfree : ¬ InUse ls new) (hnull : new ≠ 0) :
    ListHolds (rawListAdd m new (l.getLast?.getD head) (r.head?.getD head))
      (Function.update ls head (some (l ++ new :: r))) := by
  have hnew : ∀ head' xs', ls head' = some xs' → new ∉ head' :: xs' :=
    fun head' xs' hxs' hmem => hfree ⟨head', xs', hxs', hmem⟩
  have hprev : l.getLast?.getD head ∈ head :: (l ++ r) :=
    List.mem_append_left r (last_mem head l)
  have hnext : r.head?.getD head ∈ head :: (l ++ r) :=
    List.cons_subset_cons head (List.subset_append_right l r) (first_mem head r)
  rw [rawListAdd_eq]
  refine h.update ((h.ring head _ hxs).insert (hnew head _ hxs)) ?_ ?_ ?_
  · intro head' xs' hhead hxs'
    have hring := h.ring head' xs' hxs'
    refine (hring.join_of_notMem (hnew head' xs' hxs') ?_).join_of_notMem ?_ (hnew head' xs' hxs')
    · exact h.apart head _ head' xs' hxs hxs' hhead.symm _ hnext
    · exact h.apart head _ head' xs' hxs hxs' hhead.symm _ hprev
  · intro c hc head' xs' hhead hxs'
    by_cases hcnew : c = new
    · exact hcnew ▸ hnew head' xs' hxs'
    · refine h.apart head _ head' xs' hxs hxs' hhead.symm c ?_
      simp only [List.mem_cons, List.mem_append] at hc ⊢
      tauto
  · intro hmem
    refine h.null ⟨head, l ++ r, hxs, ?_⟩
    simp only [List.mem_cons, List.mem_append] at hmem ⊢
    rcases hmem with hmem | hmem | hmem | hmem
    · exact .inl hmem
    · exact .inr (.inl hmem)
    · exact absurd hmem.symm hnull
    · exact .inr (.inr hmem)

/-- An entry made to be passed over by its neighbours. -/
theorem remove {l r : List ListPtr} (h : ListHolds m ls) (hxs : ls head = some (l ++ entry :: r)) :
    ListHolds (rawListDel m (m.prev entry) (m.next entry))
      (Function.update ls head (some (l ++ r))) := by
  have hring := h.ring head _ hxs
  have hsub : ∀ c ∈ head :: (l ++ r), c ∈ head :: (l ++ entry :: r) := by
    intro c hc
    simp only [List.mem_cons, List.mem_append] at hc ⊢
    tauto
  have hprev : l.getLast?.getD head ∈ head :: (l ++ r) :=
    List.mem_append_left r (last_mem head l)
  have hnext : r.head?.getD head ∈ head :: (l ++ r) :=
    List.cons_subset_cons head (List.subset_append_right l r) (first_mem head r)
  rw [rawListDel_eq, hring.prev_node, hring.next_node]
  refine h.update hring.remove ?_ ?_ ?_
  · intro head' xs' hhead hxs'
    refine (h.ring head' xs' hxs').join_of_notMem ?_ ?_
    · exact h.apart head _ head' xs' hxs hxs' hhead.symm _ (hsub _ hprev)
    · exact h.apart head _ head' xs' hxs hxs' hhead.symm _ (hsub _ hnext)
  · exact fun c hc head' xs' hhead hxs' =>
      h.apart head _ head' xs' hxs hxs' hhead.symm c (hsub c hc)
  · exact fun hmem => h.null ⟨head, _, hxs, hsub 0 hmem⟩

/-- An entry is in no other list, so that unlinking it is a matter of its own. -/
theorem unlink_eq {l r : List ListPtr} (h : ListHolds m ls)
    (hxs : ls head = some (l ++ entry :: r)) :
    unlink ls entry = Function.update ls head (some (l ++ r)) := by
  have hnodup := (List.nodup_cons.mp (h.ring head _ hxs).nodup).2
  funext head'
  by_cases hhead : head' = head
  · subst hhead
    have hl : entry ∉ l := by
      intro hmem
      exact (List.nodup_append.mp hnodup).2.2 entry hmem entry (by simp) rfl
    rw [unlink, hxs, Function.update_self, Option.map_some, List.erase_append_right _ hl]
    simp
  · rw [Function.update_of_ne hhead, unlink]
    cases hxs' : ls head' with
    | none => rfl
    | some xs' =>
        have hnot := h.apart head _ head' xs' hxs hxs' (Ne.symm hhead) entry (by simp)
        rw [Option.map_some, List.erase_of_not_mem fun hmem => hnot (List.mem_cons_of_mem _ hmem)]

/-- What `list_del` and `list_del_init` begin with; the entry is not in use after it. -/
theorem rawDel (h : ListHolds m ls) (hentry : IsEntry ls entry) :
    ListHolds (rawListDel m (m.prev entry) (m.next entry)) (unlink ls entry) ∧
      ¬ InUse (unlink ls entry) entry := by
  obtain ⟨head, xs, hxs, hmem⟩ := hentry
  obtain ⟨l, r, rfl⟩ := List.append_of_mem hmem
  have hring := h.ring head _ hxs
  rw [h.unlink_eq hxs]
  refine ⟨h.remove hxs, ?_⟩
  rintro ⟨head', xs', hxs', hmem'⟩
  by_cases hhead : head' = head
  · subst hhead
    rw [Function.update_self, Option.some.injEq] at hxs'
    subst hxs'
    have hnodup := nodup_node.mp hring.nodup
    exact (List.nodup_cons.mp hnodup).1 hmem'
  · rw [Function.update_of_ne hhead] at hxs'
    exact h.apart head _ head' xs' hxs hxs' (Ne.symm hhead) entry (by simp) hmem'

theorem splice (h : ListHolds m ls) {list first : ListPtr} (hne : list ≠ head)
    (hys : ls list = some (first :: ys)) (hxs : ls head = some xs) :
    ListHolds (listSplice m list head)
      (Function.update (Function.update ls list none) head (some (first :: ys ++ xs))) := by
  have hfrom := h.ring list _ hys
  have hto := h.ring head xs hxs
  have hfirst : m.next list = first := hfrom.next_head
  have hlist : first ≠ list := by
    rintro rfl
    exact (List.nodup_cons.mp hfrom.nodup).1 (by simp)
  have hsplice : listSplice m list head =
      join (join m head first) ((first :: ys).getLast?.getD list) (xs.head?.getD head) := by
    rw [← hto.next_head, ← hfrom.prev_head]
    simp only [listSplice, hfirst, if_pos hlist]
    rfl
  have hdisj : ∀ c ∈ list :: first :: ys, c ∉ head :: xs := h.apart list _ head xs hys hxs hne
  have hlast : (first :: ys).getLast?.getD list ∈ list :: first :: ys := last_mem list (first :: ys)
  have hnext : xs.head?.getD head ∈ head :: xs := first_mem head xs
  rw [hsplice]
  refine h.forget.update ?_ ?_ ?_ ?_
  · exact hto.splice hfrom (by simp) fun c hc => hdisj c (List.mem_cons_of_mem _ hc)
  · intro head' xs' hhead hxs'
    by_cases hgone : head' = list
    · subst hgone
      simp at hxs'
    · rw [Function.update_of_ne hgone] at hxs'
      have hnotHead := h.apart head xs head' xs' hxs hxs' (Ne.symm hhead)
      have hnotList := h.apart list _ head' xs' hys hxs' (Ne.symm hgone)
      refine ((h.ring head' xs' hxs').join_of_notMem (hnotHead head (by simp))
        (hnotList first (by simp))).join_of_notMem (hnotList _ hlast) (hnotHead _ hnext)
  · intro c hc head' xs' hhead hxs'
    by_cases hgone : head' = list
    · subst hgone
      simp at hxs'
    · rw [Function.update_of_ne hgone] at hxs'
      rw [List.mem_cons, List.mem_append] at hc
      rcases hc with rfl | hc | hc
      · exact h.apart c xs head' xs' hxs hxs' (Ne.symm hhead) c (by simp)
      · exact h.apart list _ head' xs' hys hxs' (Ne.symm hgone) c (List.mem_cons_of_mem _ hc)
      · exact h.apart head xs head' xs' hxs hxs' (Ne.symm hhead) c (List.mem_cons_of_mem _ hc)
  · intro hmem
    rw [List.mem_cons, List.mem_append] at hmem
    rcases hmem with hmem | hmem | hmem
    · exact h.null ⟨head, xs, hxs, by simp [hmem]⟩
    · exact h.null ⟨list, _, hys, List.mem_cons_of_mem _ hmem⟩
    · exact h.null ⟨head, xs, hxs, List.mem_cons_of_mem _ hmem⟩

end ListHolds

/-! ## Runs -/

/-- Each function does to the heap what it is for. -/
theorem ListOp.exec_holds {op : ListOp} (h : ListHolds m ls) (hok : op.Ok ls) :
    ListHolds (op.exec m) (op.apply ls) := by
  cases op with
  | init ptr => exact h.init hok.2 hok.1
  | add new head =>
      obtain ⟨hnull, hfree, hhead⟩ := hok
      obtain ⟨xs, hxs⟩ := Option.ne_none_iff_exists'.mp hhead
      have hinsert := h.insert (l := []) hxs hfree hnull
      rw [← (h.ring head xs hxs).next_head] at hinsert
      simpa [ListOp.exec, ListOp.apply, listAdd, hxs] using hinsert
  | addTail new head =>
      obtain ⟨hnull, hfree, hhead⟩ := hok
      obtain ⟨xs, hxs⟩ := Option.ne_none_iff_exists'.mp hhead
      have hinsert := h.insert (r := []) (by rw [hxs, List.append_nil]) hfree hnull
      rw [← (h.ring head xs hxs).prev_head] at hinsert
      simpa [ListOp.exec, ListOp.apply, listAddTail, hxs] using hinsert
  | del entry =>
      obtain ⟨hdel, hfree⟩ := h.rawDel hok
      refine hdel.store hfree fun c hc => ?_
      simp [ListOp.exec, listDel, setNext, setPrev, hc]
  | delInit entry =>
      obtain ⟨hdel, hfree⟩ := h.rawDel hok
      obtain ⟨head, xs, hxs, hmem⟩ := hok
      refine hdel.init hfree ?_
      rintro rfl
      exact h.null ⟨head, xs, hxs, List.mem_cons_of_mem _ hmem⟩
  | splice list head =>
      obtain ⟨hne, hlist, hhead⟩ := hok
      obtain ⟨ys, hys⟩ := Option.ne_none_iff_exists'.mp hlist
      obtain ⟨xs, hxs⟩ := Option.ne_none_iff_exists'.mp hhead
      cases ys with
      | nil =>
          have hempty : m.next list = list := (h.ring list [] hys).next_head
          simpa [ListOp.exec, ListOp.apply, listSplice, hys, hempty] using h
      | cons first ys =>
          have hspliced := h.splice hne hys hxs
          simpa [ListOp.exec, ListOp.apply, hys, hxs] using hspliced

theorem calls_holds {ops : List ListOp} (h : ListHolds m ls) (hok : CallsOk ops ls) :
    ListHolds (ops.foldl ListOp.exec m) (ops.foldl ListOp.apply ls) := by
  induction ops generalizing m ls with
  | nil => exact h
  | cons op ops ih => exact ih (op.exec_holds h hok.1) hok.2

/-- No lists yet, whatever is in memory. -/
theorem holds_none (m : ListHeap) : ListHolds m (fun _ => none) where
  ring := fun _ _ hxs => absurd hxs (by simp)
  apart := fun _ _ _ _ hxs => absurd hxs (by simp)
  null := by
    rintro ⟨_, _, hxs, _⟩
    cases hxs

/-- Whatever is in memory first, after any calls on any number of lists every list is a
ring, `list_for_each` visits the entries that were put in, in their order, and
`list_empty` tells whether there are any. -/
theorem list_calls_refine (m : ListHeap) {ops : List ListOp} (hok : CallsOk ops fun _ => none) :
    ∀ head xs, ops.foldl ListOp.apply (fun _ => none) head = some xs →
      IsRing (ops.foldl ListOp.exec m) head xs ∧
        (∀ fuel, xs.length < fuel →
          listForEach (ops.foldl ListOp.exec m) head fuel = some xs) ∧
        (listEmpty (ops.foldl ListOp.exec m) head = true ↔ xs = []) := by
  intro head xs hxs
  have hring := (calls_holds (holds_none m) hok).ring head xs hxs
  exact ⟨hring, fun fuel hfuel => hring.walk_eq hfuel, listEmpty_iff hring⟩

/-- Two lists joined, then an entry of the second deleted. -/
def sampleCalls : List ListOp :=
  [.init 1, .addTail 2 1, .addTail 3 1, .init 4, .add 5 4, .splice 4 1, .del 2]

theorem list_calls_refine_two :
    IsRing (sampleCalls.foldl ListOp.exec ⟨id, id⟩) 1 [5, 3] := by
  refine (list_calls_refine ⟨id, id⟩ ?_ 1 [5, 3] ?_).1
  · simp only [CallsOk, sampleCalls, ListOp.Ok, ListOp.apply, InUse, IsEntry, not_exists, not_and,
      Function.update_apply]
    refine ⟨⟨by simp, by simp⟩, ⟨by simp, ?_, by simp⟩, ⟨by simp, ?_, by simp⟩, ⟨by simp, ?_⟩,
      ⟨by simp, ?_, by simp⟩, by simp, ⟨1, [5, 2, 3], by simp⟩, trivial⟩ <;>
    · intro head xs hxs
      split_ifs at hxs <;> cases hxs <;> simp_all
  · rfl

end Memtoy
