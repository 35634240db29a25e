import Memtoy.Command.Handlers

/-!
# Command.Nodes — the commands that use `mems_allowed`

`gcp->mems_allowed` is allocated by `refresh_mems_allowed`, on a platform with NUMA support
only, and used by `numa`, `migrate` and `mems`; `numa` has the ids of the allowed nodes
written into an array of `numa_max_node` entries. Each use of the mask and each write to the
array is an entry of a log (`NodeAccess`), so that "does so only when it has been allocated"
is a statement about what a run of commands logs. `nodeRun_law_iff` says for which runs it
is true.
-/

namespace Memtoy

open CString Cmd

/-! ## Accesses -/

/-- The part of `global_context` that has to do with nodes; `memsAllowed` is the mask
`mems_allowed` points to, `none` for NULL. -/
structure NodeCtx where
  numaMaxNode : Int
  memsAllowed : Option (Nat → Bool)

/-- A use of `*gcp->mems_allowed`, and whether it is allocated; or `*(fromids + index) = node`
for an array of `capacity` entries. -/
inductive NodeAccess where
  | useMask (allocated : Bool)
  | writeId (capacity index node : Nat)
deriving DecidableEq, Repr

/-- `numa_supported()` -/
def NodeCtx.numaSupported (c : NodeCtx) : Bool := ¬ c.numaMaxNode ≤ 0

/-- `refresh_mems_allowed()`: `membind` is the mask the kernel answers with, and `calloc`
does not fail. -/
def refreshMemsAllowed (membind : Nat → Bool) (c : NodeCtx) : NodeCtx :=
  if c.numaSupported then { c with memsAllowed := some membind } else c

/-- The loop of `get_current_nodeid_list`, for `n` nodes from `node` on, with `nr_nodes` ids
written; a use of a mask that is not there is the last thing that happens. -/
def nodeidLoop (mask : Option (Nat → Bool)) (capacity : Nat) :
    (n node nrNodes : Nat) → List NodeAccess
  | 0, _, _ => []
  | n + 1, node, nrNodes =>
      match mask with
      | none => [.useMask false]
      | some isset =>
          if isset node then
            .useMask true :: .writeId capacity nrNodes node ::
              nodeidLoop mask capacity n (node + 1) (nrNodes + 1)
          else .useMask true :: nodeidLoop mask capacity n (node + 1) nrNodes

/-- `for (node=0; node <= max_node; ++node)` -/
def NodeCtx.nodeCount (c : NodeCtx) : Nat := (c.numaMaxNode + 1).toNat

/-- `get_current_nodeid_list()` with an array of `capacity` entries. -/
def getCurrentNodeidList (membind : Nat → Bool) (capacity : Nat) (c : NodeCtx) :
    NodeCtx × List NodeAccess :=
  let c := refreshMemsAllowed membind c
  (c, nodeidLoop c.memsAllowed capacity c.nodeCount 0 0)

/-- `get_current_nodemask()`: the mask is used for every node, and once more to copy it. -/
def getCurrentNodemask (membind : Nat → Bool) (c : NodeCtx) : NodeCtx × List NodeAccess :=
  let c := refreshMemsAllowed membind c
  match c.memsAllowed with
  | none => (c, [.useMask false])
  | some _ => (c, List.replicate c.nodeCount (.useMask true) ++ [.useMask true])

/-! ## Commands -/

/-- What `numa_info` does with the nodes. -/
def numaInfoNodes (w : World) (c : NodeCtx) : NodeCtx × List NodeAccess :=
  if ¬ c.numaSupported then (c, [])
  else
    -- `nodeids = calloc(gcp->numa_max_node, sizeof(*nodeids))`
    getCurrentNodeidList w.memsAllowed c.numaMaxNode.toNat c

/-- What `migrate_process` does with the nodes: without `<from-node-id[s]>` it takes the
current ones. -/
def migrateNodes (w : World) (c : NodeCtx) (args : CStr) : NodeCtx × List NodeAccess :=
  if ¬ c.numaSupported then (c, [])
  else if args = [] then (c, [])
  else
    let (idlist, args) := nextToken args
    match (getNodemask c.numaMaxNode idlist).1 with
    | none => (c, [])
    | some _ => if args ≠ [] then (c, []) else getCurrentNodemask w.memsAllowed c

/-- `mems` refuses its argument. -/
def memsRefuses (numaMaxNode : Int) (args : CStr) : Bool :=
  let args := skipBlanks args
  if args = [] then false
  else if startsWithHex args then (getMemMask args).1.isNone
  else (getNodemask numaMaxNode args).1.isNone

/-- What `mems` does with the nodes. -/
def memsNodes (w : World) (c : NodeCtx) (args : CStr) : NodeCtx × List NodeAccess :=
  if memsRefuses c.numaMaxNode args then (c, [])
  else
    -- `show_mems`
    let c := refreshMemsAllowed w.memsAllowed c
    (c, [.useMask c.memsAllowed.isSome])

/-- A command line that is run: the handler, its arguments and what the system answers. -/
structure NodeCmd where
  world : World
  func : CmdFunc
  args : CStr

/-- No other handler looks at `mems_allowed`. -/
def NodeCmd.exec (cmd : NodeCmd) (c : NodeCtx) : NodeCtx × List NodeAccess :=
  match cmd.func with
  | .numaInfo => numaInfoNodes cmd.world c
  | .migrateProcess => migrateNodes cmd.world c cmd.args
  | .mems => memsNodes cmd.world c cmd.args
  | _ => (c, [])

/-- After `commands_init()`, with the context zeroed by `init_glctx`. -/
def nodeStart (numaMaxNode : Int) (membind : Nat → Bool) : NodeCtx :=
  refreshMemsAllowed membind ⟨numaMaxNode, none⟩

/-- A run of commands: each with the context it finds. -/
def nodeRun : NodeCtx → List NodeCmd → List (NodeCtx × NodeCmd)
  | _, [] => []
  | c, cmd :: cmds => (c, cmd) :: nodeRun (cmd.exec c).1 cmds

/-! ## The law -/

/-- The index and the node of a write to the array. -/
def NodeAccess.written : NodeAccess → Option (Nat × Nat)
  | .writeId _ index node => some (index, node)
  | .useMask _ => none

/-- What is to hold of a command: the mask is used when it is allocated, no id is written
behind the array, and `numa` writes the ids of exactly the allowed nodes, from the start of
the array on, in increasing order. -/
structure NodeLaw (c : NodeCtx) (cmd : NodeCmd) : Prop where
  allocated : ∀ b, .useMask b ∈ (cmd.exec c).2 → b = true
  inside : ∀ capacity i node, .writeId capacity i node ∈ (cmd.exec c).2 → i < capacity
  ids : cmd.func = .numaInfo → c.numaSupported = true → ∃ ids : List Nat,
    (cmd.exec c).2.filterMap NodeAccess.written = (List.range ids.length).zip ids ∧
    ids.Pairwise (· < ·) ∧
    ∀ node, node ∈ ids ↔ (node : Int) ≤ c.numaMaxNode ∧ cmd.world.memsAllowed node = true

/-- When the law holds: `mems` needs NUMA support to show anything, and the array of `numa`
has no entry for the last node, so that one node must not be allowed. -/
def NodeOk (numaMaxNode : Int) (cmd : NodeCmd) : Prop :=
  match cmd.func with
  | .numaInfo => numaMaxNode ≤ 0 ∨
      ∃ node : Nat, (node : Int) ≤ numaMaxNode ∧ cmd.world.memsAllowed node = false
  | .mems => 0 < numaMaxNode ∨ memsRefuses numaMaxNode cmd.args = true
  | _ => True

/-! ## The context -/

/-- The mask is allocated where there is NUMA support, and nowhere else. -/
def NodeInv (c : NodeCtx) : Prop := c.memsAllowed.isSome = c.numaSupported

theorem refresh_numaMaxNode (membind : Nat → Bool) (c : NodeCtx) :
    (refreshMemsAllowed membind c).numaMaxNode = c.numaMaxNode := by
  unfold refreshMemsAllowed
  split <;> rfl

theorem refresh_inv {c : NodeCtx} (h : NodeInv c) (membind : Nat → Bool) :
    NodeInv (refreshMemsAllowed membind c) := by
  unfold refreshMemsAllowed
  split
  · next hnuma => exact hnuma.symm
  · exact h

theorem nodeStart_inv (numaMaxNode : Int) (membind : Nat → Bool) :
    NodeInv (nodeStart numaMaxNode membind) := by
  unfold nodeStart refreshMemsAllowed
  split
  · next hnuma => exact hnuma.symm
  · next hnuma => exact (Bool.eq_false_iff.mpr hnuma).symm

/-- A command refreshes the mask, or leaves the context alone. -/
theorem exec_ctx (cmd : NodeCmd) (c : NodeCtx) :
    (cmd.exec c).1 = c ∨ (cmd.exec c).1 = refreshMemsAllowed cmd.world.memsAllowed c := by
  obtain ⟨w, func, args⟩ := cmd
  have hmask : ∀ c : NodeCtx, (getCurrentNodemask w.memsAllowed c).1 =
      refreshMemsAllowed w.memsAllowed c := by
    intro c
    unfold getCurrentNodemask
    simp only
    split <;> rfl
  unfold NodeCmd.exec
  split
  · unfold numaInfoNodes
    split
    · exact Or.inl rfl
    · exact Or.inr rfl
  · unfold migrateNodes
    split
    · exact Or.inl rfl
    · split
      · exact Or.inl rfl
      · simp only
        split
        · exact Or.inl rfl
        · split
          · exact Or.inl rfl
          · exact Or.inr (hmask c)
  · unfold memsNodes
    split
    · exact Or.inl rfl
    · exact Or.inr rfl
  · exact Or.inl rfl

theorem exec_inv {c : NodeCtx} (h : NodeInv c) (cmd : NodeCmd) : NodeInv (cmd.exec c).1 := by
  rcases exec_ctx cmd c with hc | hc
  · rw [hc]
    exact h
  · rw [hc]
    exact refresh_inv h _

theorem exec_numaMaxNode (cmd : NodeCmd) (c : NodeCtx) :
    (cmd.exec c).1.numaMaxNode = c.numaMaxNode := by
  rcases exec_ctx cmd c with hc | hc
  · rw [hc]
  · rw [hc, refresh_numaMaxNode]

/-! ## The ids -/

/-- What the loop writes: the nodes that are set, one after another. -/
theorem written_nodeidLoop (isset : Nat → Bool) (capacity : Nat) : ∀ n node nrNodes : Nat,
    (nodeidLoop (some isset) capacity n node nrNodes).filterMap NodeAccess.written =
      (List.range' nrNodes ((List.range' node n).filter isset).length).zip
        ((List.range' node n).filter isset) := by
  intro n
  induction n with
  | zero => simp [nodeidLoop]
  | succ n ih =>
      intro node nrNodes
      rw [nodeidLoop, List.range'_succ]
      by_cases hset : isset node = true
      · simp only [hset, if_true, List.filterMap_cons, NodeAccess.written, ih,
          List.filter_cons_of_pos hset, List.length_cons, List.range'_succ, List.zip_cons_cons]
      · simp only [hset, Bool.false_eq_true, if_false, List.filterMap_cons, NodeAccess.written, ih,
          List.filter_cons_of_neg hset]

/-- The loop uses the mask it is given, and the array it is given. -/
theorem mem_nodeidLoop {isset : Nat → Bool} {capacity : Nat} {a : NodeAccess} :
    ∀ {n node nrNodes : Nat}, a ∈ nodeidLoop (some isset) capacity n node nrNodes →
      a = .useMask true ∨ ∃ i node, a = .writeId capacity i node := by
  intro n
  induction n with
  | zero =>
      intro node nrNodes h
      cases h
  | succ n ih =>
      intro node nrNodes h
      rw [nodeidLoop] at h
      split at h
      · rcases List.mem_cons.mp h with rfl | h
        · exact Or.inl rfl
        · rcases List.mem_cons.mp h with rfl | h
          · exact Or.inr ⟨_, _, rfl⟩
          · exact ih h
      · rcases List.mem_cons.mp h with rfl | h
        · exact Or.inl rfl
        · exact ih h

/-- The allowed nodes, as `numa_info` finds them. -/
theorem currentNodes_eq (w : World) (c : NodeCtx) :
    currentNodes w c.numaMaxNode = (List.range' 0 c.nodeCount).filter w.memsAllowed := by
  rw [currentNodes, List.range_eq_range', NodeCtx.nodeCount]

theorem mem_currentNodes {w : World} {numaMaxNode : Int} {node : Nat} :
    node ∈ currentNodes w numaMaxNode ↔ (node : Int) ≤ numaMaxNode ∧ w.memsAllowed node = true := by
  rw [currentNodes, List.mem_filter, List.mem_range]
  constructor
  · rintro ⟨hlt, hset⟩
    exact ⟨by omega, hset⟩
  · rintro ⟨hle, hset⟩
    exact ⟨by omega, hset⟩

theorem currentNodes_sorted (w : World) (numaMaxNode : Int) :
    (currentNodes w numaMaxNode).Pairwise (· < ·) :=
  List.pairwise_lt_range.filter _

/-- The writes, one by one: id `i` goes to index `i`. -/
theorem writeId_mem_iff {isset : Nat → Bool} {capacity n first cap i node : Nat} :
    .writeId cap i node ∈ nodeidLoop (some isset) capacity n first 0 ↔
      cap = capacity ∧ ((List.range' first n).filter isset)[i]? = some node := by
  have hpair : (i, node) ∈ (nodeidLoop (some isset) capacity n first 0).filterMap NodeAccess.written ↔
      ((List.range' first n).filter isset)[i]? = some node := by
    rw [written_nodeidLoop, ← List.range_eq_range', List.mem_iff_getElem?]
    constructor
    · rintro ⟨j, hj⟩
      obtain ⟨hindex, hid⟩ := List.getElem?_zip_eq_some.mp hj
      obtain ⟨hlt, heq⟩ := List.getElem?_eq_some_iff.mp hindex
      rw [List.getElem_range] at heq
      rwa [heq] at hid
    · intro hid
      refine ⟨i, List.getElem?_zip_eq_some.mpr ⟨?_, hid⟩⟩
      exact List.getElem?_range (List.getElem?_eq_some_iff.mp hid).1
  rw [← hpair, List.mem_filterMap]
  constructor
  · intro hmem
    refine ⟨?_, _, hmem, rfl⟩
    rcases mem_nodeidLoop hmem with heq | ⟨i', node', heq⟩
    · cases heq
    · cases heq
      rfl
  · rintro ⟨rfl, a, ha, hwritten⟩
    rcases mem_nodeidLoop ha with rfl | ⟨i', node', rfl⟩
    · cases hwritten
    · cases hwritten
      exact ha

/-- There is room for all of them exactly when one node is not allowed. -/
theorem currentNodes_fit_iff (w : World) {numaMaxNode : Int} (hpos : 0 < numaMaxNode) :
    (currentNodes w numaMaxNode).length ≤ numaMaxNode.toNat ↔
      ∃ node : Nat, (node : Int) ≤ numaMaxNode ∧ w.memsAllowed node = false := by
  have hcount : (List.range (numaMaxNode + 1).toNat).length = numaMaxNode.toNat + 1 := by
    rw [List.length_range]
    omega
  have hlt : (currentNodes w numaMaxNode).length ≤ numaMaxNode.toNat ↔
      (currentNodes w numaMaxNode).length < (List.range (numaMaxNode + 1).toNat).length := by
    omega
  rw [hlt, currentNodes, List.length_filter_lt_length_iff_exists]
  constructor
  · rintro ⟨node, hmem, hno⟩
    have hrange := List.mem_range.mp hmem
    exact ⟨node, by omega, by simpa using hno⟩
  · rintro ⟨node, hle, hno⟩
    exact ⟨node, List.mem_range.mpr (by omega), by simp [hno]⟩

/-! ## Commands one by one -/

section Command

variable {c : NodeCtx} {w : World} {args : CStr}

theorem numaInfoNodes_supported (h : c.numaSupported = true) : numaInfoNodes w c =
    (refreshMemsAllowed w.memsAllowed c,
      nodeidLoop (some w.memsAllowed) c.numaMaxNode.toNat c.nodeCount 0 0) := by
  have hcount : (refreshMemsAllowed w.memsAllowed c).nodeCount = c.nodeCount := by
    rw [NodeCtx.nodeCount, NodeCtx.nodeCount, refresh_numaMaxNode]
  rw [numaInfoNodes, if_neg (by simp [h]), getCurrentNodeidList]
  simp only [hcount]
  rw [refreshMemsAllowed, if_pos h]

theorem numaSupported_iff : c.numaSupported = true ↔ 0 < c.numaMaxNode := by
  simp [NodeCtx.numaSupported]

/-- `numa`: the ids are the right ones in any case; they fit if one node is missing. -/
theorem numaInfo_law_iff : NodeLaw c ⟨w, .numaInfo, args⟩ ↔ NodeOk c.numaMaxNode ⟨w, .numaInfo, args⟩ := by
  show _ ↔ c.numaMaxNode ≤ 0 ∨ _
  by_cases hnuma : c.numaSupported = true
  · have hpos := numaSupported_iff.mp hnuma
    have hlog : (NodeCmd.exec ⟨w, .numaInfo, args⟩ c).2 =
        nodeidLoop (some w.memsAllowed) c.numaMaxNode.toNat c.nodeCount 0 0 :=
      congrArg Prod.snd (numaInfoNodes_supported hnuma)
    have hwrites : ∀ {capacity i node}, .writeId capacity i node ∈
        (NodeCmd.exec ⟨w, .numaInfo, args⟩ c).2 ↔
          capacity = c.numaMaxNode.toNat ∧ (currentNodes w c.numaMaxNode)[i]? = some node := by
      intro capacity i node
      rw [hlog, writeId_mem_iff, ← currentNodes_eq]
    rw [← currentNodes_fit_iff w hpos]
    constructor
    · intro h
      right
      by_contra hfull
      -- the id behind the array
      have hget := List.getElem?_eq_getElem (Nat.lt_of_not_le hfull)
      exact absurd (h.inside _ _ _ (hwrites.mpr ⟨rfl, hget⟩)) (lt_irrefl _)
    · rintro (hle | hfit)
      · omega
      · refine ⟨?_, ?_, fun _ _ => ⟨currentNodes w c.numaMaxNode, ?_, currentNodes_sorted w _,
          fun _ => mem_currentNodes⟩⟩
        · intro b hb
          rw [hlog] at hb
          rcases mem_nodeidLoop hb with heq | ⟨i, node, heq⟩
          · cases heq
            rfl
          · cases heq
        · intro capacity i node hwrite
          obtain ⟨rfl, hget⟩ := hwrites.mp hwrite
          exact Nat.lt_of_lt_of_le (List.getElem?_eq_some_iff.mp hget).1 hfit
        · rw [hlog, written_nodeidLoop, ← currentNodes_eq, ← List.range_eq_range']
  · have hle : c.numaMaxNode ≤ 0 := by
      by_contra hc
      exact hnuma (numaSupported_iff.mpr (by omega))
    refine iff_of_true ?_ (Or.inl hle)
    have hlog : (NodeCmd.exec ⟨w, .numaInfo, args⟩ c).2 = [] := by
      show (numaInfoNodes w c).2 = []
      rw [numaInfoNodes, if_pos (by simpa using hnuma)]
    exact ⟨by simp [hlog], by simp [hlog], fun _ h => absurd h hnuma⟩

/-- A log of uses of an allocated mask. -/
theorem law_of_uses {func : CmdFunc} (hfunc : func ≠ .numaInfo)
    (h : ∀ a ∈ (NodeCmd.exec ⟨w, func, args⟩ c).2, a = .useMask true) : NodeLaw c ⟨w, func, args⟩ := by
  refine ⟨?_, ?_, fun hc => absurd hc hfunc⟩
  · intro b hb
    cases h _ hb
    rfl
  · intro capacity i node hwrite
    cases h _ hwrite

/-- `migrate` has asked for NUMA support before it takes the current nodes. -/
theorem migrate_law : NodeLaw c ⟨w, .migrateProcess, args⟩ := by
  apply law_of_uses (by decide)
  show ∀ a ∈ (migrateNodes w c args).2, _
  unfold migrateNodes
  split
  · simp
  · next hnuma =>
    have hnuma' : c.numaSupported = true := by simpa using hnuma
    split
    · simp
    · simp only
      split
      · simp
      · split
        · simp
        · unfold getCurrentNodemask refreshMemsAllowed
          simp only [hnuma', if_true]
          intro a ha
          rcases List.mem_append.mp ha with ha | ha
          · exact List.eq_of_mem_replicate ha
          · exact List.mem_singleton.mp ha

/-- What `mems` does, if it is not refused: it shows the mask whether or not there is one. -/
theorem memsNodes_log (h : NodeInv c) (w : World) (args : CStr) : (memsNodes w c args).2 =
    if memsRefuses c.numaMaxNode args = true then [] else [.useMask c.numaSupported] := by
  have hmask : (refreshMemsAllowed w.memsAllowed c).memsAllowed.isSome = c.numaSupported := by
    rw [refresh_inv h w.memsAllowed, NodeCtx.numaSupported, NodeCtx.numaSupported,
      refresh_numaMaxNode]
  unfold memsNodes
  split
  · rfl
  · simp only [hmask]

/-- `mems` needs a mask to show, or a reason not to show it. -/
theorem mems_law_iff (h : NodeInv c) :
    NodeLaw c ⟨w, .mems, args⟩ ↔ NodeOk c.numaMaxNode ⟨w, .mems, args⟩ := by
  show _ ↔ 0 < c.numaMaxNode ∨ memsRefuses c.numaMaxNode args = true
  have hlog : (NodeCmd.exec ⟨w, .mems, args⟩ c).2 = (memsNodes w c args).2 := rfl
  by_cases hrefuses : memsRefuses c.numaMaxNode args = true
  · refine iff_of_true ?_ (Or.inr hrefuses)
    apply law_of_uses (by decide)
    rw [hlog, memsNodes_log h, if_pos hrefuses]
    simp
  · have huse : (memsNodes w c args).2 = [.useMask c.numaSupported] := by
      rw [memsNodes_log h, if_neg hrefuses]
    rw [or_iff_left hrefuses, ← numaSupported_iff]
    constructor
    · intro hlaw
      refine hlaw.allocated _ ?_
      rw [hlog, huse]
      exact List.mem_singleton_self _
    · intro hnuma
      apply law_of_uses (by decide)
      rw [hlog, huse, hnuma]
      simp

/-- Every command keeps the law exactly under its condition. -/
theorem law_iff (h : NodeInv c) (cmd : NodeCmd) : NodeLaw c cmd ↔ NodeOk c.numaMaxNode cmd := by
  obtain ⟨w, func, args⟩ := cmd
  cases func with
  | numaInfo => exact numaInfo_law_iff
  | mems => exact mems_law_iff h
  | migrateProcess => exact iff_of_true migrate_law trivial
  | _ =>
      refine iff_of_true ?_ trivial
      apply law_of_uses (by decide)
      intro a ha
      cases ha

end Command

/-! ## Runs -/

/-- The contexts of a run have one `numa_max_node`, and the invariant holds in them. -/
theorem nodeRun_law (cmds : List NodeCmd) : ∀ {c : NodeCtx}, NodeInv c →
    ((∀ p ∈ nodeRun c cmds, NodeLaw p.1 p.2) ↔ ∀ cmd ∈ cmds, NodeOk c.numaMaxNode cmd) := by
  induction cmds with
  | nil => simp [nodeRun]
  | cons cmd cmds ih =>
      intro c h
      have hrest := ih (exec_inv h cmd)
      rw [exec_numaMaxNode] at hrest
      rw [nodeRun, List.forall_mem_cons, List.forall_mem_cons, law_iff h cmd, hrest]

/-- On every platform and in every run of commands the mask is used only when it is allocated
and the ids fit into their array exactly when no `mems` shows the mask without NUMA support and
no `numa` finds all nodes allowed. -/
theorem nodeRun_law_iff (numaMaxNode : Int) (membind : Nat → Bool) (cmds : List NodeCmd) :
    (∀ p ∈ nodeRun (nodeStart numaMaxNode membind) cmds, NodeLaw p.1 p.2) ↔
      ∀ cmd ∈ cmds, NodeOk numaMaxNode cmd := by
  have hstart : (nodeStart numaMaxNode membind).numaMaxNode = numaMaxNode :=
    refresh_numaMaxNode membind ⟨numaMaxNode, none⟩
  rw [nodeRun_law cmds (nodeStart_inv numaMaxNode membind), hstart]

/-- `numa` with two nodes, both allowed, writes behind its array of one entry; `mems` without
NUMA support uses NULL. -/
theorem numa_two_nodes :
    (NodeCmd.exec ⟨sampleWorld, .numaInfo, []⟩ (nodeStart 1 fun _ => true)).2 =
        [.useMask true, .writeId 1 0 0, .useMask true, .writeId 1 1 1] ∧
      (NodeCmd.exec ⟨sampleWorld, .mems, []⟩ (nodeStart (-1) fun _ => true)).2 =
        [.useMask false] ∧
      ¬ (∀ p ∈ nodeRun (nodeStart 1 fun _ => true) [⟨sampleWorld, .numaInfo, []⟩],
        NodeLaw p.1 p.2) ∧
      ¬ ∀ p ∈ nodeRun (nodeStart (-1) fun _ => true) [⟨sampleWorld, .mems, []⟩],
        NodeLaw p.1 p.2 := by
  have hnuma : (NodeCmd.exec ⟨sampleWorld, .numaInfo, []⟩ (nodeStart 1 fun _ => true)).2 =
      [.useMask true, .writeId 1 0 0, .useMask true, .writeId 1 1 1] := by decide
  have hmems : (NodeCmd.exec ⟨sampleWorld, .mems, []⟩ (nodeStart (-1) fun _ => true)).2 =
      [.useMask false] := by decide
  refine ⟨hnuma, hmems, ?_, ?_⟩
  · intro h
    have hlaw := (h _ List.mem_cons_self).inside 1 1 1 (by rw [hnuma]; decide)
    exact absurd hlaw (by decide)
  · intro h
    have hlaw := (h _ List.mem_cons_self).allocated false (by rw [hmems]; decide)
    exact absurd hlaw (by decide)

/-! ## The handlers -/

/-- A handler that ends in a crash. -/
def Crashes {α : Type} (m : Cmd α) (w : World) (s : Shell) : Prop := (m w s).flow = .stop .crash

theorem crashes_orError {α β : Type} (r : Option α × List Complaint) (f : α → Cmd β) (w : World)
    (s : Shell) : Crashes (orError r >>= f) w s ↔ ∃ a, r.1 = some a ∧ Crashes (f a) w s := by
  obtain ⟨o, cs⟩ := r
  cases o with
  | none => simp [Crashes, bind, andThen, orError]
  | some a => simp [Crashes, bind, andThen, orError]

theorem crashes_showMems (w : World) (s : Shell) : Crashes showMems w s ↔ s.numaMaxNode ≤ 0 := by
  unfold Crashes showMems
  simp only [bind, andThen, Cmd.shell]
  split
  · next hle => exact iff_of_true rfl hle
  · next hgt => exact iff_of_false (fun hc => by cases hc) hgt

/-- `mems` crashes where it uses a mask that is not there. -/
theorem mems_crashes_iff {c : NodeCtx} (h : NodeInv c) {s : Shell}
    (hmax : c.numaMaxNode = s.numaMaxNode) (w : World) (args : CStr) :
    Crashes (mems args) w s ↔ .useMask false ∈ (memsNodes w c args).2 := by
  have hlog : .useMask false ∈ (memsNodes w c args).2 ↔
      memsRefuses c.numaMaxNode args = false ∧ s.numaMaxNode ≤ 0 := by
    rw [← hmax, ← not_lt, ← numaSupported_iff, memsNodes_log h]
    split
    · next hrefuses => simp [hrefuses]
    · next hrefuses => simp [hrefuses]
  have hmems : Crashes (mems args) w s ↔
      Crashes (if skipBlanks args = [] then showMems
        else if startsWithHex (skipBlanks args) then orError (getMemMask (skipBlanks args)) >>= fun _ => showMems
        else orError (getNodemask s.numaMaxNode (skipBlanks args)) >>= fun _ => showMems) w s :=
    Iff.rfl
  rw [hlog, hmems, memsRefuses, hmax]
  by_cases hnil : skipBlanks args = []
  · simp only [hnil, if_true, crashes_showMems, true_and]
  · simp only [hnil, if_false]
    by_cases hhex : startsWithHex (skipBlanks args) = true
    · simp only [hhex, if_true, crashes_orError, crashes_showMems]
      cases (getMemMask (skipBlanks args)).1 <;> simp
    · simp only [hhex, Bool.false_eq_true, if_false, crashes_orError, crashes_showMems]
      cases (getNodemask s.numaMaxNode (skipBlanks args)).1 <;> simp

end Memtoy
