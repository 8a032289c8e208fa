import HardStack.Cma.Model
import HardStack.Lib.Run

/-! # Runs of the driver

Only the holder of the lock is inside `CMA_ioctl`, so that the region list differs from the held ranges
only by what its point in the code says (`At`). Where the lock is free, they are the same, and
`CMA_remove` gives nothing back: what is on the list then is lost. -/

namespace HardStack.Cma.Run

open HardStack.Cma.Model

variable {pageToVirt : ℕ → ℕ} {mem mem' : Mem} {pc pc' : Pc} {answer : Answer} {s s' : State}
  {entered : List Info × Multiset Block}

/-- The ranges that a region list describes. -/
def blocks (regions : List Info) : Multiset Block := ↑(regions.map Info.block)

/-- A process of the driver makes a step. -/
def Step (pageToVirt : ℕ → ℕ) (s s' : State) : Prop := ∃ event, exec pageToVirt s event = some s'

/-- What is promised of every state: the list describes the held ranges whenever the lock is free, an
ioctl that fails leaves both as it has found them, and a process that has returned does not hold the
lock. -/
structure Safe (s : State) : Prop where
  describes : s.lock = none → s.mem.held = blocks s.mem.regions
  failing : ∀ p rvl, s.pc p = .unlock rvl → rvl ≠ 0 →
    s.mem.regions = s.entered.1 ∧ s.mem.held = s.entered.2
  returned : ∀ p, s.lock = some p ↔ s.pc p ≠ .user

/-! ### The holder of the lock -/

/-- List and ranges are as they were when the lock was taken. -/
def Untouched (entered : List Info × Multiset Block) (mem : Mem) : Prop :=
  mem.regions = entered.1 ∧ mem.held = entered.2

/-- What holds at a point of `CMA_ioctl`. -/
def At (entered : List Info × Multiset Block) (mem : Mem) : Pc → Prop
  | .user => False
  | .insert info page =>
    mem.regions = entered.1 ∧ mem.held = ⟨page, info.length >>> PAGE_SHIFT⟩ ::ₘ entered.2
  | .allocCopyTo info region page => mem.regions = region :: entered.1 ∧
    mem.held = region.block ::ₘ entered.2 ∧ region.block = ⟨page, info.length >>> PAGE_SHIFT⟩
  | .errTo region page nrPages rvl => mem.regions = region :: entered.1 ∧
    mem.held = ⟨page, nrPages⟩ ::ₘ entered.2 ∧ rvl ≠ 0
  | .errToRelease page nrPages rvl =>
    mem.regions = entered.1 ∧ mem.held = ⟨page, nrPages⟩ ::ₘ entered.2 ∧ rvl ≠ 0
  | .releaseDma info region =>
    Untouched entered mem ∧ region ∈ mem.regions ∧ region.block = info.block
  | .delete region => region ∈ mem.regions ∧ mem.held = blocks (mem.regions.erase region)
  | .unlock rvl => mem.held = blocks mem.regions ∧ (rvl ≠ 0 → Untouched entered mem)
  | _ => Untouched entered mem

/-- Every range that was obtained is held or has gone back. -/
def Balanced (mem : Mem) : Prop := mem.obtained = mem.released + mem.held

theorem obtain_balanced (h : Balanced mem) (block : Block) : Balanced (mem.obtain block) := by
  show block ::ₘ mem.obtained = mem.released + block ::ₘ mem.held
  rw [show mem.obtained = mem.released + mem.held from h, Multiset.add_cons]

theorem release_balanced (h : Balanced mem) {block : Block} (hheld : block ∈ mem.held) :
    Balanced (mem.release block) := by
  show mem.obtained = block ::ₘ mem.released + mem.held.erase block
  rw [Multiset.cons_add, ← Multiset.add_cons, Multiset.cons_erase hheld]
  exact h

theorem blocks_cons (region : Info) (regions : List Info) :
    blocks (region :: regions) = region.block ::ₘ blocks regions := rfl

theorem blocks_erase {region : Info} {regions : List Info} (h : region ∈ regions) :
    (blocks regions).erase region.block = blocks (regions.erase region) := by
  have hperm := (List.perm_cons_erase h).map Info.block
  rw [show blocks regions = blocks (region :: regions.erase region) from Multiset.coe_eq_coe.mpr hperm,
    blocks_cons, Multiset.erase_cons_head]

theorem mem_blocks {region : Info} {regions : List Info} (h : region ∈ regions) :
    region.block ∈ blocks regions :=
  Multiset.mem_coe.mpr (List.mem_map_of_mem h)

/-- The block that a new region describes is the one that was obtained for it. -/
theorem block_new (virt page length : ℕ) :
    (Info.mk virt (pageToPhys page) 0 length).block = ⟨page, length >>> PAGE_SHIFT⟩ := by
  unfold Info.block pageToPhys
  rw [Nat.shiftLeft_shiftRight]

/-- **A step under the lock.** -/
theorem inside_spec (hent : entered.2 = blocks entered.1) (hbal : Balanced mem) (h : At entered mem pc)
    (he : inside pageToVirt mem pc answer = some (mem', pc')) :
    At entered mem' pc' ∧ Balanced mem' ∧ pc' ≠ .user := by
  have hunlock : ∀ {rvl : ℤ}, Untouched entered mem → At entered mem (.unlock rvl) :=
    fun hsame => ⟨by rw [hsame.1, hsame.2, hent], fun _ => hsame⟩
  cases pc with
  | user => cases h
  | allocCopy =>
    cases answer with
    | fail =>
      cases he
      exact ⟨hunlock h, hbal, by simp⟩
    | info info =>
      cases he
      exact ⟨h, hbal, by simp⟩
    | done => cases he
    | page page => cases he
  | allocRegion info =>
    cases answer with
    | fail =>
      cases he
      exact ⟨hunlock h, hbal, by simp⟩
    | done =>
      cases he
      exact ⟨h, hbal, by simp⟩
    | info info => cases he
    | page page => cases he
  | allocDma info =>
    cases answer with
    | fail =>
      cases he
      exact ⟨h, hbal, by simp⟩
    | page page =>
      unfold inside at he
      dsimp only at he
      split_ifs at he
      cases he
      exact ⟨⟨h.1, congrArg _ h.2⟩, obtain_balanced hbal _, by simp⟩
    | done => cases he
    | info info => cases he
  | insert info page =>
    cases answer with
    | done =>
      cases he
      refine ⟨⟨congrArg _ h.1, ?_, block_new _ _ _⟩, hbal, by simp⟩
      rw [block_new]
      exact h.2
    | fail => cases he
    | info info => cases he
    | page page => cases he
  | allocCopyTo info region page =>
    obtain ⟨hregions, hheld, hblock⟩ := h
    cases answer with
    | done =>
      cases he
      refine ⟨⟨?_, fun hz => absurd rfl hz⟩, hbal, by simp⟩
      rw [hregions, hheld, hent, blocks_cons]
    | fail =>
      cases he
      exact ⟨⟨hregions, hblock ▸ hheld, by decide⟩, hbal, by simp⟩
    | info info => cases he
    | page page => cases he
  | errTo region page nrPages rvl =>
    obtain ⟨hregions, hheld, hrvl⟩ := h
    cases answer with
    | done =>
      cases he
      refine ⟨⟨?_, hheld, hrvl⟩, hbal, by simp⟩
      show mem.regions.erase region = _
      rw [hregions, List.erase_cons_head]
    | fail => cases he
    | info info => cases he
    | page page => cases he
  | errToRelease page nrPages rvl =>
    obtain ⟨hregions, hheld, hrvl⟩ := h
    cases answer with
    | done =>
      cases he
      refine ⟨⟨hregions, ?_⟩, release_balanced hbal ?_, by simp⟩
      · show mem.held.erase _ = _
        rw [hheld, Multiset.erase_cons_head]
      · rw [hheld]
        exact Multiset.mem_cons_self _ _
    | fail => cases he
    | info info => cases he
    | page page => cases he
  | errDma rvl =>
    cases answer with
    | done =>
      cases he
      exact ⟨hunlock h, hbal, by simp⟩
    | fail => cases he
    | info info => cases he
    | page page => cases he
  | releaseCopy =>
    cases answer with
    | fail =>
      cases he
      exact ⟨hunlock h, hbal, by simp⟩
    | info info =>
      cases he
      exact ⟨h, hbal, by simp⟩
    | done => cases he
    | page page => cases he
  | search info =>
    cases answer with
    | done =>
      unfold inside at he
      dsimp only at he
      split at he
      · rename_i region hfind
        cases he
        have hmatch := List.find?_some hfind
        simp only [decide_eq_true_eq] at hmatch
        refine ⟨⟨h, List.mem_of_find?_eq_some hfind, ?_⟩, hbal, by simp⟩
        unfold Info.block
        rw [hmatch.1, hmatch.2]
      · cases he
        exact ⟨hunlock h, hbal, by simp⟩
    | fail => cases he
    | info info => cases he
    | page page => cases he
  | releaseDma info region =>
    obtain ⟨⟨hregions, hheld⟩, hmem, hblock⟩ := h
    have hdescribes : mem.held = blocks mem.regions := by rw [hheld, hent, hregions]
    cases answer with
    | done =>
      cases he
      refine ⟨⟨hmem, ?_⟩, release_balanced hbal ?_, by simp⟩
      · show mem.held.erase info.block = _
        rw [← hblock, hdescribes]
        exact blocks_erase hmem
      · rw [← hblock, hdescribes]
        exact mem_blocks hmem
    | fail => cases he
    | info info => cases he
    | page page => cases he
  | delete region =>
    cases answer with
    | done =>
      cases he
      exact ⟨⟨h.2, fun hz => absurd rfl hz⟩, hbal, by simp⟩
    | fail => cases he
    | info info => cases he
    | page page => cases he
  | unlock rvl => cases answer <;> cases he

/-! ### The invariant -/

structure Inv (s : State) : Prop where
  lock : ∀ p, s.lock = some p ↔ s.pc p ≠ .user
  balanced : Balanced s.mem
  free : s.lock = none → s.mem.held = blocks s.mem.regions
  holder : ∀ p, s.lock = some p → s.entered.2 = blocks s.entered.1 ∧ At s.entered s.mem (s.pc p)

theorem init_inv : Inv init where
  lock p := iff_of_false (by simp [init]) (not_not.mpr rfl)
  balanced := rfl
  free _ := rfl
  holder p hp := by cases hp

/-- The lock goes along with the point of its holder. -/
theorem lock_update (h : ∀ p, s.lock = some p ↔ s.pc p ≠ .user) {p : ℕ} {lock : Option ℕ} {pc : Pc}
    (hp : lock = some p ↔ pc ≠ .user) (hother : ∀ q ≠ p, lock = some q ↔ s.lock = some q) (q : ℕ) :
    lock = some q ↔ Function.update s.pc p pc q ≠ .user := by
  by_cases hq : q = p
  · subst hq
    rw [Function.update_self]
    exact hp
  · rw [Function.update_of_ne hq, hother q hq]
    exact h q

theorem start_ne (cmd : Cmd) : cmd.start ≠ .user := by
  cases cmd <;> simp [Cmd.start]

/-- **A step** keeps the invariant. -/
theorem step_inv (h : Inv s) (hstep : Step pageToVirt s s') : Inv s' := by
  obtain ⟨event, he⟩ := hstep
  cases event with
  | lock p cmd =>
    unfold exec at he
    dsimp only at he
    split_ifs at he with hfree
    cases he
    obtain ⟨huser, hlock⟩ := hfree
    have hdescribes := h.free hlock
    refine ⟨lock_update h.lock (iff_of_true rfl (start_ne cmd)) fun q hq => ?_, h.balanced,
      fun hnone => (by cases hnone), fun q hq => ?_⟩
    · rw [hlock, Option.some_inj]
      exact iff_of_false (Ne.symm hq) (by simp)
    · cases hq
      refine ⟨hdescribes, ?_⟩
      dsimp only
      rw [Function.update_self]
      cases cmd
      · exact ⟨rfl, rfl⟩
      · exact ⟨rfl, rfl⟩
  | unsupported p =>
    unfold exec at he
    dsimp only at he
    split_ifs at he
    cases he
    exact h
  | inside p answer =>
    obtain ⟨⟨mem', pc'⟩, hin, heq⟩ := Option.map_eq_some_iff.mp he
    have hlock : s.lock = some p := by
      rw [h.lock p]
      intro huser
      rw [huser] at hin
      cases answer <;> cases hin
    obtain ⟨hent, hat⟩ := h.holder p hlock
    obtain ⟨hat', hbal', hne⟩ := inside_spec hent h.balanced hat hin
    cases heq
    refine ⟨lock_update h.lock (iff_of_true hlock hne) fun _ _ => Iff.rfl, hbal',
      fun hnone => ?_, fun q hq => ?_⟩
    · cases hlock.symm.trans hnone
    · cases hlock.symm.trans hq
      dsimp only
      rw [Function.update_self]
      exact ⟨hent, hat'⟩
  | unlock p =>
    unfold exec at he
    dsimp only at he
    split at he
    · rename_i rvl hpc
      cases he
      have hlock : s.lock = some p := (h.lock p).mpr (by rw [hpc]; simp)
      have hat := (h.holder p hlock).2
      rw [hpc] at hat
      refine ⟨lock_update h.lock (iff_of_false (by simp) (not_not.mpr rfl)) fun q hq => ?_, h.balanced,
        fun _ => hat.1, fun q hq => ?_⟩
      · rw [hlock, Option.some_inj]
        exact iff_of_false (by simp) (Ne.symm hq)
      · cases hq
    · cases he

theorem reachable_inv (hrun : Relation.ReflTransGen (Step pageToVirt) init s) : Inv s :=
  Lib.Run.invariant init_inv (fun _ _ h hstep => step_inv h hstep) hrun

theorem Inv.safe (h : Inv s) : Safe s where
  describes := h.free
  failing p rvl hpc hrvl := by
    have hat := (h.holder p ((h.lock p).mpr (by rw [hpc]; simp))).2
    rw [hpc] at hat
    exact hat.2 hrvl
  returned := h.lock

/-! ### `CMA_remove` -/

theorem remove_eq (hremove : remove s = some s') :
    s.lock = none ∧ s' = { s with mem := { s.mem with regions := [] } } := by
  unfold remove at hremove
  split_ifs at hremove with hlock
  cases hremove
  exact ⟨hlock, rfl⟩

/-- **The contiguous memory** is safe in every state of a run, and has all gone back after `CMA_remove`
exactly if nothing was on the list then. -/
theorem released_iff (hrun : Relation.ReflTransGen (Step pageToVirt) init s)
    (hremove : remove s = some s') :
    (∀ t, Relation.ReflTransGen (Step pageToVirt) init t → Safe t) ∧
      s'.mem.released = s'.mem.obtained ↔ s.mem.regions = [] := by
  obtain ⟨hlock, rfl⟩ := remove_eq hremove
  have hinv := reachable_inv hrun
  have hbal : s.mem.obtained = s.mem.released + s.mem.held := hinv.balanced
  have hall : s.mem.released = s.mem.obtained ↔ s.mem.regions = [] := by
    rw [hbal, eq_comm, add_eq_left, hinv.free hlock]
    unfold blocks
    rw [Multiset.coe_eq_zero, List.map_eq_nil_iff]
  rw [← hall]
  exact ⟨fun h => h.2, fun h => ⟨fun t ht => (reachable_inv ht).safe, h⟩⟩

/-! ### A client that leaves a region behind -/

/-- One process allocates two pages and does not release them. -/
def leaving : List Event :=
  [.lock 0 .allocate, .inside 0 (.info ⟨0, 0, 0, 8192⟩), .inside 0 .done, .inside 0 (.page 256),
    .inside 0 .done, .inside 0 .done, .unlock 0]

def execAll (pageToVirt : ℕ → ℕ) : List Event → State → Option State
  | [], s => some s
  | event :: events, s => (exec pageToVirt s event).bind (execAll pageToVirt events)

theorem execAll_run : ∀ (events : List Event) {s s' : State}, execAll pageToVirt events s = some s' →
    Relation.ReflTransGen (Step pageToVirt) s s'
  | [], s, s', he => by
    cases he
    exact .refl
  | event :: events, s, s', he => by
    obtain ⟨t, ht, he⟩ := Option.bind_eq_some_iff.mp he
    exact .head ⟨event, ht⟩ (execAll_run events he)

/-- What it leaves. -/
def left : State where
  mem := ⟨[⟨256, 256 <<< PAGE_SHIFT, 0, 8192⟩], {⟨256, 2⟩}, {⟨256, 2⟩}, 0⟩
  lock := none
  pc := Function.update (fun _ => .user) 0 .user
  entered := ([], 0)

theorem left_run : Relation.ReflTransGen (Step id) init left := by
  have hrun : execAll id leaving init = some { left with
      pc := Function.update (Function.update (Function.update (Function.update (Function.update
        (Function.update (Function.update (fun _ => .user) 0 .allocCopy) 0
        (.allocRegion ⟨0, 0, 0, 8192⟩)) 0 (.allocDma ⟨0, 0, 0, 8192⟩)) 0 (.insert ⟨0, 0, 0, 8192⟩ 256)) 0
        (.allocCopyTo ⟨256, 256 <<< PAGE_SHIFT, 0, 8192⟩ ⟨256, 256 <<< PAGE_SHIFT, 0, 8192⟩ 256)) 0
        (.unlock 0)) 0 .user } := rfl
  simp only [Function.update_idem] at hrun
  exact execAll_run leaving hrun

theorem released_iff_left : (∀ t, Relation.ReflTransGen (Step id) init t → Safe t) ∧
    (({ left with mem := { left.mem with regions := [] } } : State).mem.released =
      ({ left with mem := { left.mem with regions := [] } } : State).mem.obtained) ↔
        left.mem.regions = [] :=
  released_iff left_run rfl

/-- The pages of this process are never released. -/
theorem not_released_left : ¬ ∀ s s', Relation.ReflTransGen (Step id) init s → remove s = some s' →
    s'.mem.released = s'.mem.obtained := by
  intro h
  have heq : (0 : Multiset Block) = {⟨256, 2⟩} := h left _ left_run rfl
  exact absurd heq (by decide)

end HardStack.Cma.Run
