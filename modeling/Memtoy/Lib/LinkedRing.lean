import Mathlib.Data.List.Chain
import Mathlib.Logic.Function.Basic

/-!
# LinkedRing — circular doubly linked lists

A heap of nodes with a `next` and a `prev` pointer each, and the rings in it: a head
and the nodes that follow it, up to the head again. Rings are changed by `join`, which
makes one node follow another; the rules say what a ring is after nodes have been joined
in it, and that a ring without the joined nodes stays as it is.
-/

namespace LinkedRing

universe u

variable {α : Type u}

/-- The pointers of the nodes. -/
structure Links (α : Type u) where
  next : α → α
  prev : α → α

/-- `b` follows `a`, seen from both. -/
def Linked (m : Links α) (a b : α) : Prop := m.next a = b ∧ m.prev b = a

/-- From `h` on, the nodes `xs` follow each other, and then comes `h` again. -/
structure IsRing (m : Links α) (h : α) (xs : List α) : Prop where
  nodup : (h :: xs).Nodup
  chain : (h :: (xs ++ [h])).IsChain (Linked m)

variable {m m' : Links α} {h a b : α} {xs ys l r : List α}

/-- Only the pointers along a chain matter to it. -/
theorem chain_congr (hchain : l.IsChain (Linked m)) (hnext : ∀ c ∈ l.dropLast, m'.next c = m.next c)
    (hprev : ∀ c ∈ l.tail, m'.prev c = m.prev c) : l.IsChain (Linked m') := by
  rw [List.isChain_iff_forall_rel_of_append_cons_cons] at hchain ⊢
  rintro c d l₁ l₂ rfl
  obtain ⟨hcd, hdc⟩ := hchain rfl
  refine ⟨?_, ?_⟩
  · rw [hnext c (by simp), hcd]
  · rw [hprev d (by cases l₁ <;> simp), hdc]

/-- The last node of a chain, and what comes before it. -/
theorem exists_last (h : α) (l : List α) : ∃ l', h :: l = l' ++ [l.getLast?.getD h] := by
  rcases List.eq_nil_or_concat l with rfl | ⟨l', c, rfl⟩
  · exact ⟨[], by simp⟩
  · exact ⟨h :: l', by simp⟩

/-- The first node of a chain that ends in `h`, and what comes after it. -/
theorem exists_first (h : α) (r : List α) : ∃ r', r ++ [h] = r.head?.getD h :: r' := by
  cases r with
  | nil => exact ⟨[], by simp⟩
  | cons c r => exact ⟨r ++ [h], by simp⟩

theorem last_mem (h : α) (l : List α) : l.getLast?.getD h ∈ h :: l := by
  obtain ⟨l', hl⟩ := exists_last h l
  rw [hl]
  simp

theorem first_mem (h : α) (r : List α) : r.head?.getD h ∈ h :: r := by
  cases r <;> simp

theorem nodup_node : (h :: (l ++ a :: r)).Nodup ↔ (a :: (h :: (l ++ r))).Nodup := by
  rw [← List.cons_append, List.perm_middle.nodup_iff, List.cons_append]

/-- Around a ring, the head can come last. -/
theorem nodup_closed (hnodup : (h :: (l ++ r)).Nodup) : (l ++ (r ++ [h])).Nodup := by
  rw [← List.append_assoc]
  exact (List.perm_append_singleton h (l ++ r)).nodup_iff.mpr hnodup

namespace IsRing

/-- A ring is a chain up to a node and a chain from there on. -/
theorem chains (hring : IsRing m h (l ++ r)) :
    (h :: l).IsChain (Linked m) ∧ (r ++ [h]).IsChain (Linked m) ∧
      Linked m (l.getLast?.getD h) (r.head?.getD h) := by
  have hchain := hring.chain
  rw [List.append_assoc, ← List.cons_append, List.isChain_append] at hchain
  obtain ⟨hleft, hright, hjoint⟩ := hchain
  refine ⟨hleft, hright, hjoint _ ?_ _ ?_⟩
  · simp [List.getLast?_cons]
  · cases r <;> simp

/-- Two chains with their ends linked. -/
theorem of_chains (hnodup : (h :: (l ++ r)).Nodup) (hleft : (h :: l).IsChain (Linked m))
    (hright : (r ++ [h]).IsChain (Linked m))
    (hjoint : Linked m (l.getLast?.getD h) (r.head?.getD h)) : IsRing m h (l ++ r) := by
  refine ⟨hnodup, ?_⟩
  rw [List.append_assoc, ← List.cons_append, List.isChain_append]
  refine ⟨hleft, hright, ?_⟩
  intro c hc d hd
  rw [List.getLast?_cons, Option.mem_some_iff] at hc
  have hd' : r.head?.getD h = d := by
    cases r with
    | nil => simpa using hd
    | cons e r => simpa using hd
  rw [← hc, ← hd']
  exact hjoint

/-! ## Neighbours -/

theorem next_head (hring : IsRing m h xs) : m.next h = xs.head?.getD h :=
  (chains (l := []) hring).2.2.1

theorem prev_head (hring : IsRing m h xs) : m.prev h = xs.getLast?.getD h := by
  rw [← List.append_nil xs] at hring
  simpa using hring.chains.2.2.2

theorem prev_node (hring : IsRing m h (l ++ a :: r)) : m.prev a = l.getLast?.getD h := by
  simpa using hring.chains.2.2.2

theorem next_node (hring : IsRing m h (l ++ a :: r)) : m.next a = r.head?.getD h := by
  rw [List.append_cons] at hring
  simpa using hring.chains.2.2.1

/-- Only the pointers of its own nodes matter to a ring. -/
theorem congr (hring : IsRing m h xs)
    (hsame : ∀ c ∈ h :: xs, m'.next c = m.next c ∧ m'.prev c = m.prev c) : IsRing m' h xs := by
  refine ⟨hring.nodup, chain_congr hring.chain ?_ ?_⟩
  · intro c hc
    refine (hsame c ?_).1
    rwa [← List.cons_append, List.dropLast_concat] at hc
  · intro c hc
    refine (hsame c ?_).2
    simpa [or_comm] using hc

end IsRing

/-! ## Walks -/

section Walks

variable [DecidableEq α]

/-- `for (pos = ...; pos != h; pos = pos->next)`: the nodes visited, `none` when the loop
takes more turns than there is fuel. -/
def walk (m : Links α) (h : α) : Nat → α → Option (List α)
  | 0, _ => none
  | fuel + 1, pos => if pos = h then some [] else (walk m h fuel (m.next pos)).map (pos :: ·)

/-- A walk from a node visits the rest of the ring. -/
theorem IsRing.walk_rest {fuel : Nat} (hring : IsRing m h (l ++ r)) (hfuel : r.length < fuel) :
    walk m h fuel (r.head?.getD h) = some r := by
  induction r generalizing l fuel with
  | nil =>
      obtain ⟨fuel, rfl⟩ := Nat.exists_eq_succ_of_ne_zero (Nat.ne_of_gt hfuel)
      simp [walk]
  | cons c r ih =>
      obtain ⟨fuel, rfl⟩ := Nat.exists_eq_succ_of_ne_zero (Nat.ne_of_gt (Nat.zero_lt_of_lt hfuel))
      have hne : c ≠ h := by
        rintro rfl
        exact absurd hring.nodup (by simp)
      have hnext := hring.next_node
      rw [List.append_cons] at hring
      have htail := ih hring (Nat.lt_of_succ_lt_succ hfuel)
      simp only [List.head?_cons, Option.getD_some, walk, if_neg hne, hnext, htail,
        Option.map_some]

/-- A walk visits the nodes of a ring, each once and in order. -/
theorem IsRing.walk_eq {fuel : Nat} (hring : IsRing m h xs) (hfuel : xs.length < fuel) :
    walk m h fuel (m.next h) = some xs := by
  rw [hring.next_head]
  exact walk_rest (l := []) hring hfuel

end Walks

/-! ## Joining nodes -/

section Joins

variable [DecidableEq α]

/-- Make `b` follow `a`. -/
def join (m : Links α) (a b : α) : Links α where
  next := Function.update m.next a b
  prev := Function.update m.prev b a

theorem linked_join : Linked (join m a b) a b := by
  simp [Linked, join]

/-- Joining two nodes leaves a chain that neither goes on from the one nor comes to the
other. -/
theorem chain_join (hchain : l.IsChain (Linked m)) (ha : a ∉ l.dropLast) (hb : b ∉ l.tail) :
    l.IsChain (Linked (join m a b)) := by
  refine chain_congr hchain ?_ ?_
  · rintro c hc
    exact Function.update_of_ne (by rintro rfl; exact ha hc) _ _
  · rintro c hc
    exact Function.update_of_ne (by rintro rfl; exact hb hc) _ _

/-- A node in front of a chain. -/
theorem chain_cons_join (hchain : (b :: l).IsChain (Linked m)) (hnodup : (a :: b :: l).Nodup) :
    (a :: b :: l).IsChain (Linked (join m a b)) := by
  obtain ⟨ha, hb⟩ := List.nodup_cons.mp hnodup
  refine List.isChain_cons.mpr ⟨?_, chain_join hchain ?_ ?_⟩
  · rintro c hc
    cases hc
    exact linked_join
  · exact fun hmem => ha (List.dropLast_subset _ hmem)
  · exact (List.nodup_cons.mp hb).1

namespace IsRing

/-- The frame rule: a ring that neither node is in. -/
theorem join_of_notMem (hring : IsRing m h xs) (ha : a ∉ h :: xs) (hb : b ∉ h :: xs) :
    IsRing (join m a b) h xs := by
  refine hring.congr fun c hc => ⟨?_, ?_⟩
  · exact Function.update_of_ne (by rintro rfl; exact ha hc) _ _
  · exact Function.update_of_ne (by rintro rfl; exact hb hc) _ _

/-- Two chains closed to a ring by joining their ends. -/
theorem close (hnodup : (h :: (l ++ r)).Nodup) (hleft : (h :: l).IsChain (Linked m))
    (hright : (r ++ [h]).IsChain (Linked m)) :
    IsRing (join m (l.getLast?.getD h) (r.head?.getD h)) h (l ++ r) := by
  -- the last node of the one chain and the first node of the other
  obtain ⟨l', hl⟩ := exists_last h l
  obtain ⟨r', hr⟩ := exists_first h r
  have hlast : (l' ++ [l.getLast?.getD h] ++ r).Nodup := by
    rw [← hl]
    exact hnodup
  have hfirst : (l ++ (r.head?.getD h :: r')).Nodup := by
    rw [← hr]
    exact nodup_closed hnodup
  refine of_chains hnodup (chain_join hleft ?_ ?_) (chain_join hright ?_ ?_) linked_join
  · rw [hl, List.dropLast_concat]
    simp only [List.nodup_append] at hlast
    exact fun hmem => hlast.1.2.2 _ hmem _ (by simp) rfl
  · exact fun hmem => (List.nodup_append.mp hfirst).2.2 _ hmem _ (by simp) rfl
  · rw [List.dropLast_concat]
    exact fun hmem => (List.nodup_append.mp hlast).2.2 _ (by simp) _ hmem rfl
  · rw [hr]
    exact (List.nodup_cons.mp (List.nodup_append.mp hfirst).2.1).1

/-- A node between two that follow each other. -/
theorem insert (hring : IsRing m h (l ++ r)) (hnew : a ∉ h :: (l ++ r)) :
    IsRing (join (join m a (r.head?.getD h)) (l.getLast?.getD h) a) h (l ++ a :: r) := by
  obtain ⟨hleft, hright, -⟩ := hring.chains
  obtain ⟨r', hr⟩ := exists_first h r
  have hfirst := nodup_closed hring.nodup
  have hnodup : (h :: (l ++ a :: r)).Nodup :=
    nodup_node.mpr (List.nodup_cons.mpr ⟨hnew, hring.nodup⟩)
  rw [hr] at hright hfirst
  refine close (r := a :: r) hnodup (chain_join hleft ?_ ?_) ?_
  · exact fun hmem => hnew (List.mem_append_left r (List.dropLast_subset _ hmem))
  · exact fun hmem => (List.nodup_append.mp hfirst).2.2 _ hmem _ (by simp) rfl
  · rw [List.cons_append, hr]
    refine chain_cons_join hright (List.nodup_cons.mpr ⟨?_, (List.nodup_append.mp hfirst).2.1⟩)
    rw [← hr]
    intro hmem
    refine hnew ?_
    simp only [List.mem_append, List.mem_cons] at hmem ⊢
    tauto

/-- Unlink a node. -/
theorem remove (hring : IsRing m h (l ++ a :: r)) :
    IsRing (join m (l.getLast?.getD h) (r.head?.getD h)) h (l ++ r) := by
  obtain ⟨hleft, hright, -⟩ := hring.chains
  refine close (hring.nodup.sublist ?_) hleft hright.tail
  simp

/-- The nodes of another ring between the head and the first node. -/
theorem splice (hring : IsRing m h xs) (hother : IsRing m a ys) (hne : ys ≠ [])
    (hdisj : ∀ c ∈ ys, c ∉ h :: xs) :
    IsRing (join (join m h (ys.head?.getD a)) (ys.getLast?.getD a) (xs.head?.getD h)) h
      (ys ++ xs) := by
  obtain ⟨first, ys, rfl⟩ := List.exists_cons_of_ne_nil hne
  have hnodup : (h :: (first :: ys ++ xs)).Nodup := by
    have hboth := List.nodup_append.mpr
      ⟨(List.nodup_cons.mp hother.nodup).2, hring.nodup, fun c hc d hd heq =>
        hdisj c hc (heq ▸ hd)⟩
    exact nodup_node.mp hboth
  have hys : (first :: ys).IsChain (Linked m) := hother.chain.tail.left_of_append
  have hlast : (first :: ys).getLast?.getD a = (first :: ys).getLast?.getD h := by
    simp [List.getLast?_cons]
  have hclosed := nodup_closed hnodup
  rw [hlast, List.head?_cons, Option.getD_some]
  refine close hnodup (chain_cons_join hys ?_) (chain_join hring.chain.tail ?_ ?_)
  · exact hnodup.sublist (by simp)
  · rw [List.dropLast_concat]
    exact fun hmem => (List.nodup_cons.mp hring.nodup).1 hmem
  · intro hmem
    rw [List.cons_append, List.nodup_cons] at hclosed
    exact hclosed.1 (List.mem_append_right ys (List.mem_of_mem_tail hmem))

end IsRing

end Joins

end LinkedRing
