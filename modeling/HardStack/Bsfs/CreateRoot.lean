import HardStack.Bsfs.Activate

/-! # Creating a hierarchy

`__bsfs_new_node` and `bsfs_create_root` with allocators that may fail. A ledger holds the objects that
are allocated; to release or to touch one that is not on it has no result. Where the root's node cannot
be made, `bsfs_create_root` releases the root and does not return: it goes on with a node that is `NULL`.
So it fails cleanly only before it has a root. -/

namespace HardStack.Bsfs.CreateRoot

open HardStack.Bsfs.Model HardStack.Bsfs.Walk HardStack.Bsfs.Activate HardStack.Lib.Forest
open HardStack.Rbtree.Model (RB_ROOT)

def ENOMEM : ℤ := 12

/-- `struct bsfs_root`: its node, the cursor of `ino_idr`, and `BSFS_ROOT_CREATE_DEACTIVATED`. -/
structure Root where
  kn : ℕ
  cursor : ℤ
  nextGeneration : ℕ
  syscallOps : ℕ
  createDeactivated : Bool

/-- The objects that are allocated, the root, the nodes, and what `bsfs_node` holds besides: its name,
the generation of its id, `priv` and `dir.root`. -/
structure Memory where
  live : Finset ℕ
  root : Root
  state : State
  name : ℕ → ℕ
  generation : ℕ → ℕ
  priv : ℕ → ℕ
  dirRoot : ℕ → ℕ

/-- What the allocators answer: an object or `NULL`, an id or an error. -/
structure Answers where
  kzalloc : Option ℕ
  kstrdupConst : Option ℕ
  kmemCacheZalloc : Option ℕ
  idrAllocCyclic : ℤ
  bsfsSetattr : ℤ

/-- The object that an allocator gives, as a pointer. -/
def pointer (answer : Option ℕ) : ℕ := answer.getD 0

def acquire (m : Memory) (answer : Option ℕ) : Memory :=
  match answer with
  | none => m
  | some p => { m with live := insert p m.live }

def release (m : Memory) (p : ℕ) : Option Memory :=
  if p ∈ m.live then some { m with live := m.live.erase p } else none

/-- An access to an object. -/
def touch (m : Memory) (p : ℕ) : Option Unit := if p ∈ m.live then some () else none

/-- `idr_alloc_cyclic`. -/
def idrAllocCyclic (m : Memory) (kn : ℕ) (ret : ℤ) : Memory :=
  if ret < 0 then m
  else { m with
    root := { m.root with cursor := ret + 1 }
    state := { m.state with inoIdr := Function.update m.state.inoIdr ret.toNat kn } }

/-- `root->next_generation` where the ids have started again. -/
def bumpGeneration (m : Memory) (cursor ret : ℤ) : Memory :=
  if 0 ≤ ret ∧ ret < cursor then
    { m with root := { m.root with nextGeneration := m.root.nextGeneration + 1 } }
  else m

def idrRemove (m : Memory) (ino : ℕ) : Memory :=
  { m with state := { m.state with inoIdr := Function.update m.state.inoIdr ino 0 } }

def idrDestroy (m : Memory) : Memory := { m with state := { m.state with inoIdr := fun _ => 0 } }

/-- The fields of the node: those that `__bsfs_new_node` sets, the others are `0`. -/
def freshNode (ino : ℕ) (type : NodeType) : Node where
  count := 1
  active := BS_DEACTIVATED_BIAS
  parent := 0
  ns := 0
  hash := 0
  type := type
  activated := false
  subdirs := 0
  target := 0
  ino := ino
  iattr := none

/-- The node is filled in: no children, and `rb` is cleared. -/
def initNode (m : Memory) (kn name gen ino : ℕ) (type : NodeType) : Memory :=
  let siblings := Function.update m.state.siblings kn (RB_ROOT (m.state.siblings kn))
  { m with
    state := { m.state.set kn (freshNode ino type) with
      siblings := Function.update siblings 0 ((siblings 0).setPc kn kn) }
    name := Function.update m.name kn name
    generation := Function.update m.generation kn gen }

/-- `__bsfs_new_node` from `idr_preload` on. `rootOwner`: the uid and the gid are the root's. -/
def registerNode (m : Memory) (a : Answers) (root name kn : ℕ) (rootOwner : Bool) (type : NodeType) :
    Option (Memory × ℕ) := do
  touch m root
  let cursor := m.root.cursor
  let ret := a.idrAllocCyclic
  let m := bumpGeneration (idrAllocCyclic m kn ret) cursor ret
  if ret < 0 then
    let m ← release m kn
    let m ← release m name
    some (m, 0)
  else
    touch m kn
    let m := initNode m kn name m.root.nextGeneration ret.toNat type
    if ¬ rootOwner ∧ a.bsfsSetattr < 0 then
      let m ← release (idrRemove m ret.toNat) kn
      let m ← release m name
      some (m, 0)
    else some (m, kn)

/-- `__bsfs_new_node`. -/
def newNode (m : Memory) (a : Answers) (root : ℕ) (rootOwner : Bool) (type : NodeType) :
    Option (Memory × ℕ) :=
  let name := pointer a.kstrdupConst
  let m := acquire m a.kstrdupConst
  if name = 0 then some (m, 0)
  else
    let kn := pointer a.kmemCacheZalloc
    let m := acquire m a.kmemCacheZalloc
    if kn = 0 then do
      let m ← release m name
      some (m, 0)
    else registerNode m a root name kn rootOwner type

/-- `bsfs_create_root`; `ERR_PTR(e)` is an error. -/
def createRoot (fuel : ℕ) (m : Memory) (a : Answers) (scops : ℕ) (createDeactivated : Bool) (priv : ℕ) :
    Option (Memory × Except ℤ ℕ) := do
  let m := acquire m a.kzalloc
  let root := pointer a.kzalloc
  if root = 0 then some (m, .error (-ENOMEM))
  else
    let m := { idrDestroy m with root := ⟨0, 0, 1, 0, false⟩ }
    let (m, kn) ← newNode m a root true .dir
    let m ← if kn = 0 then do
        touch m root
        release (idrDestroy m) root
      else some m
    touch m kn
    let m := { m with
      priv := Function.update m.priv kn priv
      dirRoot := Function.update m.dirRoot kn root }
    touch m root
    let m := { m with
      root := { m.root with syscallOps := scops, createDeactivated := createDeactivated, kn := kn } }
    if ¬ createDeactivated then
      let (state, _) ← activate fuel m.state kn
      some ({ m with state := state }, .ok root)
    else some (m, .ok root)

variable {m : Memory} {a : Answers} {root scops priv : ℕ} {createDeactivated : Bool}

/-- The allocators give objects that are not in use, and ids from 1 on. -/
structure Allocs (m : Memory) (a : Answers) : Prop where
  null : 0 ∉ m.live
  fresh : ∀ p ∈ a.kzalloc.toList ++ a.kstrdupConst.toList ++ a.kmemCacheZalloc.toList, p ≠ 0 ∧ p ∉ m.live
  nodup : (a.kzalloc.toList ++ a.kstrdupConst.toList ++ a.kmemCacheZalloc.toList).Nodup
  id : a.idrAllocCyclic < 0 ∨ 1 ≤ a.idrAllocCyclic

/-- None of the allocations for the node fails. -/
def NodeAllocated (a : Answers) : Prop :=
  a.kstrdupConst ≠ none ∧ a.kmemCacheZalloc ≠ none ∧ 0 ≤ a.idrAllocCyclic

/-- A node of its own, registered under its id. -/
structure NewNode (m : Memory) (kn : ℕ) : Prop where
  live : kn ∈ m.live
  node : ∃ ino, m.state.heap kn = some (freshNode ino .dir) ∧ m.state.inoIdr ino = kn
  childless : (m.state.siblings kn).root = 0

theorem release_insert {p : ℕ} {live : Finset ℕ} (h : m.live = insert p live) (hp : p ∉ live) :
    release m p = some { m with live := live } := by
  unfold release
  rw [h, if_pos (Finset.mem_insert_self p live), Finset.erase_insert hp]

theorem touch_of_mem {p : ℕ} (h : p ∈ m.live) : touch m p = some () := if_pos h

theorem bumpGeneration_live (m : Memory) (cursor ret : ℤ) : (bumpGeneration m cursor ret).live = m.live := by
  unfold bumpGeneration
  split_ifs <;> rfl

theorem bumpGeneration_state (m : Memory) (cursor ret : ℤ) : (bumpGeneration m cursor ret).state = m.state := by
  unfold bumpGeneration
  split_ifs <;> rfl

theorem initNode_newNode {kn name gen ino : ℕ} (hkn : kn ≠ 0) (hlive : kn ∈ m.live)
    (hino : m.state.inoIdr ino = kn) : NewNode (initNode m kn name gen ino .dir) kn where
  live := hlive
  node := ⟨ino, Function.update_self .., hino⟩
  childless := by
    unfold initNode
    dsimp only
    rw [Function.update_of_ne hkn, Function.update_self]
    rfl

theorem idrAllocCyclic_live (m : Memory) (kn : ℕ) (ret : ℤ) : (idrAllocCyclic m kn ret).live = m.live := by
  unfold idrAllocCyclic
  split_ifs <;> rfl

/-- The node gets its id. -/
theorem registerNode_some {name kn : ℕ} (hroot : root ∈ m.live) (hkn : kn ∈ m.live) (hkn0 : kn ≠ 0)
    (hret : 0 ≤ a.idrAllocCyclic) :
    ∃ m', registerNode m a root name kn true .dir = some (m', kn) ∧ NewNode m' kn ∧ root ∈ m'.live := by
  have hlive : (bumpGeneration (idrAllocCyclic m kn a.idrAllocCyclic) m.root.cursor a.idrAllocCyclic).live
      = m.live := by rw [bumpGeneration_live, idrAllocCyclic_live]
  have hino : (bumpGeneration (idrAllocCyclic m kn a.idrAllocCyclic) m.root.cursor
      a.idrAllocCyclic).state.inoIdr a.idrAllocCyclic.toNat = kn := by
    rw [bumpGeneration_state]
    unfold idrAllocCyclic
    rw [if_neg (not_lt.mpr hret)]
    exact Function.update_self ..
  unfold registerNode
  rw [touch_of_mem hroot, if_neg (not_lt.mpr hret), touch_of_mem (hlive ▸ hkn)]
  simp only [Option.bind_eq_bind, Option.bind_some, not_true_eq_false, false_and, if_false]
  exact ⟨_, rfl, initNode_newNode hkn0 (hlive ▸ hkn) hino, hlive ▸ hroot⟩

/-- There is no id: the node and its name are released. -/
theorem registerNode_none {name kn : ℕ} {live : Finset ℕ} (hroot : root ∈ m.live)
    (hm : m.live = insert kn (insert name live)) (hkn : kn ∉ insert name live) (hname : name ∉ live)
    (hret : a.idrAllocCyclic < 0) :
    ∃ m', registerNode m a root name kn true .dir = some (m', 0) ∧ m'.live = live := by
  have hlive : (bumpGeneration (idrAllocCyclic m kn a.idrAllocCyclic) m.root.cursor a.idrAllocCyclic).live
      = insert kn (insert name live) := by rw [bumpGeneration_live, idrAllocCyclic_live, hm]
  unfold registerNode
  rw [touch_of_mem hroot, if_pos hret, release_insert hlive hkn]
  show ∃ m', (release _ name).bind _ = some (m', 0) ∧ _
  rw [release_insert (show _ = insert name live from rfl) hname]
  exact ⟨_, rfl, rfl⟩

theorem pointer_eq_zero {answer : Option ℕ} (h : ∀ p ∈ answer.toList, p ≠ 0) :
    pointer answer = 0 ↔ answer = none := by
  cases answer with
  | none => exact iff_of_true rfl rfl
  | some p => exact iff_of_false (h p (by simp)) (by simp)

/-- **`__bsfs_new_node`**, if its allocations succeed. -/
theorem newNode_some (hroot : root ∈ m.live) (h : NodeAllocated a)
    (hname : pointer a.kstrdupConst ≠ 0) (hkn : pointer a.kmemCacheZalloc ≠ 0) :
    ∃ m', newNode m a root true .dir = some (m', pointer a.kmemCacheZalloc) ∧
      NewNode m' (pointer a.kmemCacheZalloc) ∧ root ∈ m'.live := by
  obtain ⟨hname', hkn', hret⟩ := h
  obtain ⟨name, hname'⟩ := Option.ne_none_iff_exists'.mp hname'
  obtain ⟨kn, hkn'⟩ := Option.ne_none_iff_exists'.mp hkn'
  unfold newNode
  dsimp only
  rw [if_neg hname, if_neg hkn]
  refine registerNode_some ?_ ?_ hkn hret
  · rw [hname', hkn']
    exact Finset.mem_insert_of_mem (Finset.mem_insert_of_mem hroot)
  · rw [hkn']
    exact Finset.mem_insert_self kn _

/-- **`__bsfs_new_node`**, if one of its allocations fails: it has released the others. -/
theorem newNode_none (hroot : root ∈ m.live) (h : ¬ NodeAllocated a)
    (hfresh : ∀ p ∈ a.kstrdupConst.toList ++ a.kmemCacheZalloc.toList, p ≠ 0 ∧ p ∉ m.live)
    (hnd : (a.kstrdupConst.toList ++ a.kmemCacheZalloc.toList).Nodup) :
    ∃ m', newNode m a root true .dir = some (m', 0) ∧ m'.live = m.live := by
  unfold newNode
  cases hname : a.kstrdupConst with
  | none => exact ⟨m, rfl, rfl⟩
  | some name =>
    rw [hname] at hfresh hnd
    obtain ⟨hname0, hnameLive⟩ := hfresh name (by simp)
    cases hkn : a.kmemCacheZalloc with
    | none =>
      show ∃ m', (if name = 0 then _ else (release (acquire m (some name)) name).bind _) = _ ∧ _
      rw [if_neg hname0, release_insert (show _ = insert name m.live from rfl) hnameLive]
      exact ⟨_, rfl, rfl⟩
    | some kn =>
      rw [hkn] at hfresh hnd
      obtain ⟨hkn0, hknLive⟩ := hfresh kn (by simp)
      have hret : a.idrAllocCyclic < 0 := by
        by_contra hge
        exact h ⟨by simp [hname], by simp [hkn], not_lt.mp hge⟩
      have hne : kn ≠ name := by
        rintro rfl
        simp at hnd
      show ∃ m', (if name = 0 then _ else if kn = 0 then _ else _) = _ ∧ _
      rw [if_neg hname0, if_neg hkn0]
      refine registerNode_none (Finset.mem_insert_of_mem (Finset.mem_insert_of_mem hroot)) rfl ?_ hnameLive hret
      rw [Finset.mem_insert, not_or]
      exact ⟨hne, hknLive⟩

/-! ### `bsfs_create_root` -/

/-- What the call leaves behind: a root with its node, or nothing. -/
def Outcome (m m' : Memory) (createDeactivated : Bool) : Except ℤ ℕ → Prop
  | .ok root => root ∈ m'.live ∧ m'.root.kn ∈ m'.live ∧ ∃ node, m'.state.heap m'.root.kn = some node ∧
      m'.state.inoIdr node.ino = m'.root.kn ∧ (node.isActive = true ↔ createDeactivated = false)
  | .error e => e < 0 ∧ m'.live = m.live

/-- The call comes to an end without touching what is not allocated. -/
def CreatesRoot (m : Memory) (a : Answers) (scops : ℕ) (createDeactivated : Bool) (priv : ℕ) : Prop :=
  ∃ N, ∀ fuel ≥ N, ∃ m' r, createRoot fuel m a scops createDeactivated priv = some (m', r) ∧
    Outcome m m' createDeactivated r

/-- The new node is a subtree of its own. -/
theorem NewNode.subtree {kn : ℕ} (h : NewNode m kn) (hkn : kn ≠ 0) : Subtree m.state kn .nil := by
  obtain ⟨ino, hnode, -⟩ := h.node
  refine ⟨⟨0, hkn, freshNode ino .dir, hnode, rfl, fun _ => ⟨.nil, ?_, rfl⟩, fun _ => rfl⟩, trivial, by simp [Forest.nodes]⟩
  exact ⟨h.childless, trivial, List.nodup_nil⟩

/-- The root with its memory cleared. -/
def zeroedRoot (m : Memory) (root : ℕ) : Memory :=
  { idrDestroy (acquire m (some root)) with root := ⟨0, 0, 1, 0, false⟩ }

/-- The end of `bsfs_create_root`, with a node. -/
theorem createRoot_of_newNode {kn : ℕ} {m₁ : Memory} (hroot : a.kzalloc = some root) (hroot0 : root ≠ 0)
    (hnew : newNode (zeroedRoot m root) a root true .dir = some (m₁, kn)) (h : NewNode m₁ kn) (hkn : kn ≠ 0)
    (hlive : root ∈ m₁.live) : CreatesRoot m a scops createDeactivated priv := by
  have hsub := h.subtree hkn
  obtain ⟨ino, hnode, hino⟩ := h.node
  refine ⟨2, fun fuel hfuel => ?_⟩
  have hrun : createRoot fuel m a scops createDeactivated priv =
      let m₂ := { m₁ with
        priv := Function.update m₁.priv kn priv
        dirRoot := Function.update m₁.dirRoot kn root
        root := { m₁.root with syscallOps := scops, createDeactivated := createDeactivated, kn := kn } }
      if ¬ createDeactivated then
        (activate fuel m₁.state kn).bind fun r => some ({ m₂ with state := r.1 }, .ok root)
      else some (m₂, .ok root) := by
    unfold createRoot
    rw [hroot]
    show (if root = 0 then _ else (newNode (zeroedRoot m root) a root true .dir).bind _) = _
    rw [if_neg hroot0, hnew]
    simp only [Option.bind_some, if_neg hkn, Option.bind_eq_bind, touch_of_mem h.live, pointer,
      Option.getD_some]
    rw [touch_of_mem (by exact hlive)]
    rfl
  rw [hrun]
  dsimp only
  cases createDeactivated with
  | true => exact ⟨_, _, rfl, hlive, h.live, freshNode ino .dir, hnode, hino,
      iff_of_false (Bool.eq_false_iff.mp rfl) (by decide)⟩
  | false =>
    rw [activate_spec hsub (show 1 < fuel from hfuel)]
    refine ⟨_, _, rfl, hlive, h.live, activated (freshNode ino .dir), ?_, hino, iff_of_true rfl rfl⟩
    show (if kn ∈ order kn .nil then (m₁.state.heap kn).map activated else _) = _
    rw [if_pos (show kn ∈ order kn .nil from List.mem_singleton_self kn), hnode]
    rfl

/-- Without a node the call releases the root, and follows `NULL`. -/
theorem createRoot_of_null {m₁ : Memory} (hroot : a.kzalloc = some root) (hroot0 : root ≠ 0)
    (hnew : newNode (zeroedRoot m root) a root true .dir = some (m₁, 0)) (hlive : m₁.live = insert root m.live)
    (hmem : root ∉ m.live) (hnull : 0 ∉ m.live) (fuel : ℕ) :
    createRoot fuel m a scops createDeactivated priv = none := by
  have hdestroyed : release (idrDestroy m₁) root = some { idrDestroy m₁ with live := m.live } :=
    release_insert hlive hmem
  have htouch : ∀ m₂ : Memory, m₂.live = m.live → touch m₂ 0 = none := fun m₂ h => if_neg (h ▸ hnull)
  unfold createRoot
  rw [hroot]
  show (if root = 0 then _ else (newNode (zeroedRoot m root) a root true .dir).bind _) = _
  rw [if_neg hroot0, hnew]
  simp only [Option.bind_some, if_true, Option.bind_eq_bind, pointer, Option.getD_some, hdestroyed]
  rw [touch_of_mem (hlive ▸ Finset.mem_insert_self root m.live), Option.bind_some,
    htouch { idrDestroy m₁ with live := m.live } rfl]
  rfl

/-- **`bsfs_create_root`** creates a root or fails cleanly if and only if the root cannot be allocated or
none of the allocations for its node fails. -/
theorem createsRoot_iff (h : Allocs m a) (scops : ℕ) (createDeactivated : Bool) (priv : ℕ) :
    CreatesRoot m a scops createDeactivated priv ↔ a.kzalloc = none ∨ NodeAllocated a := by
  obtain ⟨hnull, hfresh, hnd, -⟩ := h
  cases hroot : a.kzalloc with
  | none =>
    refine iff_of_true ⟨0, fun fuel _ => ⟨m, .error (-ENOMEM), ?_, by decide, rfl⟩⟩ (Or.inl rfl)
    unfold createRoot
    rw [hroot]
    rfl
  | some root =>
    rw [hroot, List.append_assoc] at hfresh hnd
    obtain ⟨hroot0, hrootLive⟩ := hfresh root (by simp)
    rw [or_iff_right (by simp)]
    have hzero : root ∈ (zeroedRoot m root).live := Finset.mem_insert_self root m.live
    have hfresh' : ∀ p ∈ a.kstrdupConst.toList ++ a.kmemCacheZalloc.toList,
        p ≠ 0 ∧ p ∉ (zeroedRoot m root).live := by
      intro p hp
      obtain ⟨hp0, hpLive⟩ := hfresh p (List.mem_append_right _ hp)
      refine ⟨hp0, fun hmem => ?_⟩
      rcases Finset.mem_insert.mp hmem with rfl | hmem
      · exact List.disjoint_of_nodup_append hnd (List.mem_singleton_self _) hp
      · exact hpLive hmem
    by_cases hnode : NodeAllocated a
    · refine iff_of_true ?_ hnode
      have hname : pointer a.kstrdupConst ≠ 0 := fun h0 => hnode.1
        ((pointer_eq_zero fun p hp => (hfresh' p (List.mem_append_left _ hp)).1).mp h0)
      have hkn : pointer a.kmemCacheZalloc ≠ 0 := fun h0 => hnode.2.1
        ((pointer_eq_zero fun p hp => (hfresh' p (List.mem_append_right _ hp)).1).mp h0)
      obtain ⟨m₁, hnew, hm₁, hlive⟩ := newNode_some hzero hnode hname hkn
      exact createRoot_of_newNode hroot hroot0 hnew hm₁ hkn hlive
    · refine iff_of_false ?_ hnode
      obtain ⟨m₁, hnew, hlive⟩ := newNode_none hzero hnode hfresh' (List.Nodup.of_append_right hnd)
      rintro ⟨N, hN⟩
      obtain ⟨m', r, hrun, -⟩ := hN N le_rfl
      rw [createRoot_of_null hroot hroot0 hnew hlive hrootLive hnull] at hrun
      cases hrun

/-- An empty memory. -/
def emptyMemory : Memory where
  live := ∅
  root := ⟨0, 0, 0, 0, false⟩
  state := ⟨fun _ => none, fun _ => ⟨fun _ => 0, fun _ _ => 0, 0, ()⟩, fun _ => 0, false⟩
  name := fun _ => 0
  generation := fun _ => 0
  priv := fun _ => 0
  dirRoot := fun _ => 0

/-- No allocation fails. -/
theorem createsRoot_iff_all : CreatesRoot emptyMemory ⟨some 8, some 16, some 24, 1, 0⟩ 0 false 0 ↔
    some 8 = none ∨ NodeAllocated ⟨some 8, some 16, some 24, 1, 0⟩ :=
  createsRoot_iff ⟨by decide, by decide, by decide, by decide⟩ 0 false 0

/-- There is no memory for the name. -/
theorem not_createsRoot_name : ¬ CreatesRoot emptyMemory ⟨some 8, none, none, 1, 0⟩ 0 false 0 := by
  rintro ⟨N, hN⟩
  obtain ⟨m', r, hrun, -⟩ := hN N le_rfl
  rw [createRoot_of_null rfl (by decide) rfl rfl (by decide) (by decide)] at hrun
  cases hrun

end HardStack.Bsfs.CreateRoot
