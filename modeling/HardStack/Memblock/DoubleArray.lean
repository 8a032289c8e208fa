import HardStack.Memblock.Alloc

/-! # The region arrays that `memblock_double_array` places

An array is reserved with the size that `PAGE_ALIGN` makes of it. `ALIGN` lacks the complement of its
mask, so that this is the size less one, modulo the page size: of every array that is placed the last
bytes are not reserved (`lost`). In a run that moves no array all is well, and in any other state
the arrays are covered exactly if the reservations of the callers happen to cover these bytes. -/

namespace HardStack.Memblock.DoubleArray

open HardStack.Memblock.Model HardStack.Memblock.Regions HardStack.Memblock.Table
open HardStack.Memblock.Range HardStack.Memblock.Run HardStack.Memblock.Find
open HardStack.Memblock.Alloc (Guarded Frame Block System allocated tableBlock TableLe AddClear)

/-- The bytes of the array that `regions` points to, where `memblock_double_array` has placed it. -/
def tableBytes (type : MemblockType) : Set ℕ :=
  match type.array with
  | none => ∅
  | some a => Set.Ico a (a + type.max * regionBytes)

/-- The bytes of the array behind the block that is reserved for it. -/
def lost (type : MemblockType) : Set ℕ :=
  match type.array with
  | none => ∅
  | some a => Set.Ico (a + PAGE_ALIGN (arraySize type.max)) (a + type.max * regionBytes)

/-- Every array that has been placed is covered by the reserved regions. -/
def TablesReserved (s : State) : Prop :=
  ∀ k, tableBytes (s.type k) ⊆ covered s.reserved.regions

variable {c : Config} {H : List (Set ℕ)} {B : Set ℕ} {s s' : State} {n a m : ℕ} {ret : ℤ}

/-! ### What is lost -/

theorem PAGE_ALIGN_eq (x : ℕ) : PAGE_ALIGN x = (x + 4095) % 2 ^ 32 % 4096 :=
  Nat.and_two_pow_sub_one_eq_mod _ 12

/-- **`PAGE_ALIGN` never covers an array.** -/
theorem PAGE_ALIGN_lt {max : ℕ} (h : 0 < max) : PAGE_ALIGN (arraySize max) < max * regionBytes := by
  rw [PAGE_ALIGN_eq]
  unfold arraySize regionBytes
  omega

/-- An array is its reserved block and what is lost. -/
theorem tableBytes_eq {type : MemblockType} (h : 0 < type.max) :
    tableBytes type = tableBlock type ∪ lost type := by
  unfold tableBytes tableBlock lost
  cases type.array with
  | none => exact (Set.empty_union _).symm
  | some a =>
    have hlt := PAGE_ALIGN_lt h
    exact (Set.Ico_union_Ico_eq_Ico (Nat.le_add_right _ _) (by omega)).symm

theorem lost_nonempty {type : MemblockType} (h : 0 < type.max) (ha : type.array = some a) :
    (lost type).Nonempty := by
  have hlt := PAGE_ALIGN_lt h
  unfold lost
  rw [ha]
  exact ⟨_, le_rfl, by omega⟩

theorem max_pos (h : StWf 1 s) (k : Kind) : 0 < (s.type k).max :=
  (List.length_pos_iff.mpr (h.types k).cnt_pos).trans_le (h.types k).cnt_le

/-- Where the blocks of the arrays are reserved, only the lost bytes matter. -/
theorem tablesReserved_iff (h : Guarded (tableBlock s.memory :: H) s) :
    TablesReserved s ↔ ∀ k, lost (s.type k) ⊆ covered s.reserved.regions := by
  have hblock : ∀ k, tableBlock (s.type k) ⊆ covered s.reserved.regions := by
    intro k
    cases k with
    | memory => exact h.held _ List.mem_cons_self
    | reserved => exact h.table
  refine forall_congr' fun k => ?_
  rw [tableBytes_eq (max_pos h.wf k), Set.union_subset_iff]
  exact and_iff_right (hblock k)

/-! ### Calls that keep what is held -/

theorem Guarded.grow {t : MemblockType} (h : Guarded H s) (ht : Edited 1 (· ∪ B) s.reserved t) :
    Guarded H (s.setType .reserved t) := by
  have hsub : covered s.reserved.regions ⊆ covered t.regions := by
    rw [ht.covers]
    exact Set.subset_union_left
  have htb := Alloc.tableBlock_eq ht.max ht.array
  refine ⟨h.wf.setType ht.wf, h.room.trans_eq ht.max.symm, h.disjoint,
    fun C hC => (h.held C hC).trans hsub, htb.trans_subset (h.table.trans hsub),
    h.table_le.congr ht.max ht.array, fun C hC => ?_⟩
  show Disjoint C (tableBlock t)
  rw [htb]
  exact h.apart C hC

theorem Guarded.cons_empty (h : Guarded H s) : Guarded (∅ :: H) s :=
  ⟨h.wf, h.room, List.pairwise_cons.mpr ⟨fun _ _ => Set.empty_disjoint _, h.disjoint⟩,
    List.forall_mem_cons.mpr ⟨Set.empty_subset _, h.held⟩, h.table, h.table_le,
    List.forall_mem_cons.mpr ⟨Set.empty_disjoint _, h.apart⟩⟩

/-- **`memblock_reserve`** of any range. -/
theorem reserve_kept (h : Guarded H s) (he : memblockReserve c n s a m = some (s', ret)) :
    Guarded H s' ∧ Frame s s' := by
  obtain ⟨nr, -, ho⟩ := addRange_outcome le_rfl (doubleArray_spec le_rfl n) h.wf (fun _ => rfl) he
  rcases ho with ⟨hgrow, -⟩ | ⟨s₁, t, hgrow, ht, rfl, -⟩
  · obtain ⟨h₁, hf₁, -⟩ := Alloc.growArray_reserved n s h hgrow
    exact ⟨h₁, hf₁⟩
  · obtain ⟨h₁, hf₁, -⟩ := Alloc.growArray_reserved n s h hgrow
    exact ⟨Guarded.grow h₁ ht, hf₁.memory, hf₁.limit⟩

theorem reserve_zero (he : memblockReserve c n s a 0 = some (s', ret)) : s' = s ∧ ret = 0 := by
  unfold memblockReserve addRange at he
  dsimp only at he
  rw [if_pos (show capSize a 0 = 0 from Nat.zero_min _)] at he
  cases he
  exact ⟨rfl, rfl⟩

theorem free_zero (he : memblockFree c n s a 0 = some (s', ret)) : s' = s ∧ ret = 0 := by
  unfold memblockFree removeRange isolateRange at he
  dsimp only at he
  rw [if_pos (show capSize a 0 = 0 from Nat.zero_min _)] at he
  cases he
  exact ⟨setType_self s .reserved, rfl⟩

/-- A block that has been allocated is held, and it is below the end of memory if it has a byte. -/
def Held (H : List (Set ℕ)) (s : State) (a size : ℕ) : Prop :=
  (size = 0 ∨ a + size ≤ PHYS_ADDR_MAX) ∧ Guarded (Set.Ico a (a + size) :: H) s

/-- **A search and a reservation**, of any size and alignment. -/
theorem findAndReserve_kept {size align start fin : ℕ} (h : Guarded H s)
    (hstart : start ≤ PHYS_ADDR_MAX) (hfin : fin ≤ PHYS_ADDR_MAX)
    (he : findAndReserve c n s size align start fin = some (s', a)) :
    Guarded H s' ∧ Frame s s' ∧ (a ≠ 0 → Held H s' a size) := by
  unfold findAndReserve at he
  dsimp only at he
  by_cases hzero : findInRangeNode c s size align start fin = 0
  · rw [if_pos hzero] at he
    cases he
    exact ⟨h, Frame.refl s, fun ha => absurd rfl ha⟩
  rw [if_neg hzero] at he
  obtain ⟨⟨t, ret⟩, hres, heq⟩ := Option.map_eq_some_iff.mp he
  have hkept := reserve_kept h hres
  have hap := Apart.mono (h.wf.types .reserved).apart (Nat.zero_le 1)
  have hinside := fun hs => (findInRangeNode_inside hap h.wf.limit hstart hfin hs rfl hzero).1
  generalize findInRangeNode c s size align start fin = x at *
  cases heq
  refine ⟨hkept.1, hkept.2, fun ha => ?_⟩
  have hret : ret = 0 := by
    by_contra hret
    rw [if_neg hret] at ha
    exact ha rfl
  rw [if_pos hret]
  rcases Nat.eq_zero_or_pos size with rfl | hs
  · obtain ⟨rfl, -⟩ := reserve_zero hres
    refine ⟨Or.inl rfl, ?_⟩
    rw [Nat.add_zero, Set.Ico_self]
    exact Guarded.cons_empty h
  · obtain ⟨hlow, -, hfree⟩ := hinside hs
    obtain ⟨r, hr, -, hhi⟩ := hfree.inside
    have hle : x + size ≤ PHYS_ADDR_MAX := hhi.trans ((h.wf.types .memory).fin_le r hr)
    exact ⟨Or.inr hle, (Alloc.reserve_guarded h hs ((le_max_right _ _).trans hlow) hle
      (Alloc.FreeRange.disjoint hfree) hres).1 hret⟩

/-! ### Calls that move no array -/

/-- There is room for `extra` regions, or no place for a bigger array is found. -/
def Still (c : Config) (s : State) (kind : Kind) (extra base size : ℕ) : Prop :=
  (s.type kind).cnt + extra ≤ (s.type kind).max ∨
    findNewArray c s kind base size (newAllocSize s kind) = 0

/-- `Still`, for the number of regions that `memblock_add_range` counts. -/
def AddStill (c : Config) (s : State) (kind : Kind) (base size : ℕ) : Prop :=
  ∀ type nrNew, addPass false (s.type kind) base (base + capSize base size) 0 = some (type, nrNew) →
    Still c s kind nrNew base (capSize base size)

theorem growArray_still {kind : Kind} {extra n' : ℕ} {ok : Bool} (h : Still c s kind extra a m)
    (he : growArray (doubleArray c n') kind extra a m n s = some (s', ok)) : s' = s := by
  unfold growArray at he
  by_cases hroom : (s.type kind).cnt + extra ≤ (s.type kind).max
  · rw [if_pos hroom] at he
    cases he
    rfl
  rw [if_neg hroom] at he
  cases n with
  | zero => cases he
  | succ n =>
    dsimp only at he
    cases hdo : doubleArray c n' s kind a m with
    | none =>
      rw [hdo] at he
      cases he
    | some r =>
      obtain ⟨s₁, ok₁⟩ := r
      rw [hdo] at he
      cases n' with
      | zero => cases hdo
      | succ n' =>
        rcases doubleArray_cases hdo with ⟨-, rfl, rfl⟩ | ⟨addr, s₂, s₃, hadd, hne, -⟩
        · cases he
          rfl
        · exact absurd (hadd.symm.trans (h.resolve_left hroom)) hne

/-- What `memblock_add_range` does to the arrays if none moves: nothing at all. -/
theorem addRange_still {kind : Kind} (h : StWf 1 s) (hstill : AddStill c s kind a m)
    (he : addRange (doubleArray c n) n s kind a m 0 = some (s', ret)) :
    (∀ k, (s'.type k).array = (s.type k).array) ∧ (ret ≠ 0 → s' = s) := by
  obtain ⟨nr, hnr, ho⟩ := addRange_outcome le_rfl (doubleArray_spec le_rfl n) h (fun _ => rfl) he
  obtain ⟨nr', hcount, hlen'⟩ := addPass_count (s.type kind) a (a + capSize a m) 0
  have hs : Still c s kind nr a (capSize a m) := by
    rcases hnr with rfl | ⟨-, hlen⟩
    · exact Or.inl (h.types kind).cnt_le
    · rw [Nat.add_left_cancel (hlen.symm.trans hlen')]
      exact hstill _ _ hcount
  rcases ho with ⟨hgrow, -⟩ | ⟨s₁, t, hgrow, ht, rfl, rfl⟩
  · obtain rfl := growArray_still hs hgrow
    exact ⟨fun _ => rfl, fun _ => rfl⟩
  · obtain rfl := growArray_still hs hgrow
    refine ⟨fun k => ?_, fun hr => absurd rfl hr⟩
    by_cases hk : k = kind
    · subst hk
      rw [type_setType]
      exact ht.array
    · rw [type_setType_ne _ _ hk]

theorem free_still (h : StWf 1 s) (hstill : Still c s .reserved 2 a (capSize a m))
    (he : memblockFree c n s a m = some (s', ret)) (k : Kind) :
    (s'.type k).array = (s.type k).array := by
  obtain ⟨nr, hnr, ho⟩ := removeRange_outcome le_rfl (doubleArray_spec le_rfl n) h he
  have hs : Still c s .reserved nr a (capSize a m) := hstill.imp_left fun hroom => by omega
  rcases ho with ⟨hgrow, -⟩ | ⟨s₁, t, hgrow, ht, rfl, -⟩
  · obtain rfl := growArray_still hs hgrow
    rfl
  · obtain rfl := growArray_still hs hgrow
    cases k with
    | memory => rfl
    | reserved => exact ht.1.array

theorem findAndReserve_still {size align start fin : ℕ} (h : StWf 1 s)
    (hstill : findInRangeNode c s size align start fin ≠ 0 →
      AddStill c s .reserved (findInRangeNode c s size align start fin) size)
    (he : findAndReserve c n s size align start fin = some (s', a)) :
    (∀ k, (s'.type k).array = (s.type k).array) ∧ (a = 0 → s' = s) := by
  unfold findAndReserve at he
  dsimp only at he
  by_cases hzero : findInRangeNode c s size align start fin = 0
  · rw [if_pos hzero] at he
    cases he
    exact ⟨fun _ => rfl, fun _ => rfl⟩
  rw [if_neg hzero] at he
  obtain ⟨⟨t, ret⟩, hres, heq⟩ := Option.map_eq_some_iff.mp he
  obtain ⟨harr, hfail⟩ := addRange_still h (hstill hzero) hres
  cases heq
  refine ⟨harr, fun ha => hfail fun hret => ?_⟩
  rw [if_pos hret] at ha
  exact hzero ha

/-! ### Runs -/

/-- A call; `free` names a live allocation. -/
inductive Op
  | add (base size : ℕ)
  | reserve (base size : ℕ)
  | alloc (size align minAddr maxAddr : ℕ)
  | free (b : Block)

/-- The call moves no array. -/
def Op.Still (c : Config) (s : State) : Op → Prop
  | add base size => AddStill c s .memory base size
  | reserve base size => AddStill c s .reserved base size
  | alloc size align minAddr maxAddr => ∀ start, start = minAddr ∨ start = 0 →
      findInRangeNode c s size align start (min maxAddr s.currentLimit) ≠ 0 → AddStill c s .reserved
        (findInRangeNode c s size align start (min maxAddr s.currentLimit)) size
  | free b => DoubleArray.Still c s .reserved 2 b.base (capSize b.base b.size)

/-- A `memblock_add` that moves a dynamic memory array has room to free the old one. -/
def Op.Clear (c : Config) (n : ℕ) (s : State) : Op → Prop
  | add base size => AddClear c n s base size
  | _ => True

/-- One call that meets the condition `P`. The arguments are of type `phys_addr_t`; a free that fails
leaves the allocation live. -/
inductive Step (c : Config) (P : ℕ → State → Op → Prop) : System → System → Prop
  | add {s s' : State} {live : List Block} {n base size : ℕ} {ret : ℤ}
      (hb : base < 2 ^ 32) (hs : size < 2 ^ 32) (hP : P n s (.add base size))
      (h : memblockAdd c n s base size = some (s', ret)) : Step c P ⟨s, live⟩ ⟨s', live⟩
  | reserve {s s' : State} {live : List Block} {n base size : ℕ} {ret : ℤ}
      (hb : base < 2 ^ 32) (hs : size < 2 ^ 32) (hP : P n s (.reserve base size))
      (h : memblockReserve c n s base size = some (s', ret)) : Step c P ⟨s, live⟩ ⟨s', live⟩
  | alloc {s s' : State} {live : List Block} {n size align minAddr maxAddr a : ℕ}
      (hs : size < 2 ^ 32) (ha : align < 2 ^ 32) (hmin : minAddr < 2 ^ 32) (hmax : maxAddr < 2 ^ 32)
      (hP : P n s (.alloc size align minAddr maxAddr))
      (h : allocInternal c n s size align minAddr maxAddr = some (s', a)) :
      Step c P ⟨s, live⟩
        ⟨s', allocated live a size align (effectiveEnd s (min maxAddr s.currentLimit))⟩
  | free {s s' : State} {live : List Block} {n : ℕ} {b : Block} {ret : ℤ} (hb : b ∈ live)
      (hP : P n s (.free b)) (h : memblockFree c n s b.base b.size = some (s', ret)) :
      Step c P ⟨s, live⟩ ⟨s', if ret = 0 then live.erase b else live⟩

/-- The states of a run whose calls all meet the condition. -/
def Reachable (c : Config) (P : ℕ → State → Op → Prop) (t : System) : Prop :=
  Relation.ReflTransGen (Step c P) ⟨init, []⟩ t

/-! ### Runs that move no array -/

/-- Both arrays are the static ones. -/
structure Static (s : State) : Prop where
  wf : StWf 1 s
  array : ∀ k, (s.type k).array = none

theorem Static.step {t t' : System} (h : Static t.st)
    (hst : Step c (fun _ s op => op.Still c s) t t') : Static t'.st := by
  have hd := fun n => doubleArray_spec (c := c) (g := 1) le_rfl n
  cases hst with
  | @add s s' live n base size ret hb hs hP he =>
    exact ⟨(addRange_spec le_rfl (hd n) h.wf (fun _ => rfl) he).1,
      fun k => ((addRange_still h.wf hP he).1 k).trans (h.array k)⟩
  | @reserve s s' live n base size ret hb hs hP he =>
    exact ⟨(addRange_spec le_rfl (hd n) h.wf (fun _ => rfl) he).1,
      fun k => ((addRange_still h.wf hP he).1 k).trans (h.array k)⟩
  | @alloc s s' live n size align minAddr maxAddr a hs ha hmin hmax hP he =>
    refine ⟨allocInternal_wf h.wf he, fun k => ?_⟩
    rcases allocInternal_cases he with hr | ⟨t, hfirst, hr⟩
    · exact ((findAndReserve_still h.wf (hP _ (Or.inl rfl)) hr).1 k).trans (h.array k)
    · obtain rfl := (findAndReserve_still h.wf (hP _ (Or.inl rfl)) hfirst).2 rfl
      exact ((findAndReserve_still h.wf (hP _ (Or.inr rfl)) hr).1 k).trans (h.array k)
  | @free s s' live n b ret hb hP he =>
    exact ⟨(removeRange_spec le_rfl (hd n) h.wf he).1,
      fun k => (free_still h.wf hP he k).trans (h.array k)⟩

theorem Static.tablesReserved (h : Static s) : TablesReserved s := by
  intro k
  unfold tableBytes
  rw [h.array k]
  exact Set.empty_subset _

/-! ### All runs -/

/-- The blocks of the arrays and the live allocations are held. -/
structure Inv (t : System) : Prop where
  guarded : Guarded (tableBlock t.st.memory :: t.live.map Block.set) t.st
  table_le : TableLe t.st.memory
  below : ∀ b ∈ t.live, b.size = 0 ∨ b.base + b.size ≤ PHYS_ADDR_MAX

theorem init_inv : Inv ⟨init, []⟩ := by
  have h := Alloc.start_inv (s := init) ⟨rep_of_wf initType_wf, by decide, rfl, rfl, le_rfl⟩
  exact ⟨h.guarded, h.table_le, fun b hb => absurd hb List.not_mem_nil⟩

theorem alloc_inv {live : List Block} {size align limit : ℕ} (h : Inv ⟨s, live⟩)
    (hg : Guarded (tableBlock s.memory :: live.map Block.set) s') (hf : Frame s s')
    (hheld : a ≠ 0 → Held (tableBlock s.memory :: live.map Block.set) s' a size) :
    Inv ⟨s', allocated live a size align limit⟩ := by
  have hle : TableLe s'.memory := by
    rw [hf.memory]
    exact h.table_le
  unfold allocated
  by_cases ha : a = 0
  · rw [if_pos ha]
    refine ⟨?_, hle, h.below⟩
    dsimp only
    rw [hf.memory]
    exact hg
  · rw [if_neg ha]
    obtain ⟨hlow, hg'⟩ := hheld ha
    refine ⟨?_, hle, List.forall_mem_cons.mpr ⟨hlow, h.below⟩⟩
    dsimp only
    rw [hf.memory]
    exact hg'.perm (List.Perm.swap _ _ _)

theorem free_inv {live : List Block} {b : Block} (h : Inv ⟨s, live⟩) (hb : b ∈ live)
    (he : memblockFree c n s b.base b.size = some (s', ret)) :
    Inv ⟨s', if ret = 0 then live.erase b else live⟩ := by
  have hperm : (tableBlock s.memory :: live.map Block.set).Perm
      (b.set :: tableBlock s.memory :: (live.erase b).map Block.set) := by
    refine List.Perm.trans (List.Perm.cons _ ?_) (List.Perm.swap _ _ _)
    exact (List.perm_cons_erase hb).map Block.set
  have hg := h.guarded.perm hperm
  have herase : ∀ x ∈ live.erase b, x.size = 0 ∨ x.base + x.size ≤ PHYS_ADDR_MAX :=
    fun x hx => h.below x (List.mem_of_mem_erase hx)
  rcases h.below b hb with hz | hle
  · rw [hz] at he
    obtain ⟨rfl, rfl⟩ := free_zero he
    rw [if_pos rfl]
    exact ⟨hg.tail, h.table_le, herase⟩
  obtain ⟨h1, h2, h3⟩ := Alloc.free_guarded hg hle he
  have htable : TableLe s'.memory := by
    rw [h3.memory]
    exact h.table_le
  by_cases hret : ret = 0
  · rw [if_pos hret]
    refine ⟨?_, htable, herase⟩
    dsimp only
    rw [h3.memory]
    exact h2
  · rw [if_neg hret]
    refine ⟨?_, htable, h.below⟩
    dsimp only
    rw [h3.memory]
    exact (h1 hret).perm hperm.symm

theorem Inv.step {t t' : System} (h : Inv t) (hst : Step c (fun n s op => op.Clear c n s) t t') :
    Inv t' := by
  have hword : ∀ x, x < 2 ^ 32 → x ≤ PHYS_ADDR_MAX := by
    intro x hx
    unfold PHYS_ADDR_MAX
    omega
  cases hst with
  | add hb hs hP he =>
    obtain ⟨h1, h2, -, -⟩ := Alloc.add_guarded h.guarded h.table_le hP he
    exact ⟨h1, h2, h.below⟩
  | reserve hb hs hP he =>
    obtain ⟨hg, hf⟩ := reserve_kept h.guarded he
    refine ⟨?_, ?_, h.below⟩
    · dsimp only
      rw [hf.memory]
      exact hg
    · dsimp only
      rw [hf.memory]
      exact h.table_le
  | @alloc s s' live n size align minAddr maxAddr a hs ha hmin hmax hP he =>
    have hhi : min maxAddr s.currentLimit ≤ PHYS_ADDR_MAX :=
      (min_le_right _ _).trans h.guarded.wf.limit
    rcases allocInternal_cases he with hr | ⟨t, hfirst, hr⟩
    · obtain ⟨h1, h2, h3⟩ := findAndReserve_kept h.guarded (hword _ hmin) hhi hr
      exact alloc_inv h h1 h2 h3
    · obtain ⟨h1, h2, -⟩ := findAndReserve_kept h.guarded (hword _ hmin) hhi hfirst
      obtain ⟨h3, h4, h5⟩ := findAndReserve_kept h1 (Nat.zero_le _) hhi hr
      exact alloc_inv h h3 (h2.trans h4) h5
  | free hb hP he => exact free_inv h hb he

/-- **The arrays and the reserved regions.** A run that moves no array meets the invariant in every
state. In a run where each memory array that moves can be freed, a state meets it exactly if the
bytes that `PAGE_ALIGN` loses are covered by other reservations. -/
theorem reachable_tablesReserved (c : Config) :
    (∀ t, Reachable c (fun _ s op => op.Still c s) t → TablesReserved t.st) ∧
    (∀ t, Reachable c (fun n s op => op.Clear c n s) t →
      (TablesReserved t.st ↔ ∀ k, lost (t.st.type k) ⊆ covered t.st.reserved.regions)) := by
  refine ⟨fun t ht => ?_, fun t ht => ?_⟩
  · have hstart : Static (⟨init, []⟩ : System).st := ⟨init_wf, fun k => by cases k <;> rfl⟩
    exact (Lib.Run.invariant (I := fun t => Static t.st) hstart (fun _ _ h hst => h.step hst)
      ht).tablesReserved
  · exact tablesReserved_iff (Lib.Run.invariant init_inv (fun _ _ h hst => h.step hst) ht).guarded

/-- The state right after `memory_init` has added the emulated memory. -/
def emulatedMemory : State := { init with
  memory := ⟨[⟨0x60000000, 0x1000000, 0⟩], INIT_MEMBLOCK_REGIONS, 0x1000000, none⟩ }

theorem tablesReserved_emulatedMemory : TablesReserved emulatedMemory := by
  have hpass : addPass false initType 0x60000000 0x61000000 0 = some (initType, 1) := by decide
  have hstep : Step ⟨0x60000000, 0⟩ (fun _ s op => op.Still ⟨0x60000000, 0⟩ s) ⟨init, []⟩
      ⟨emulatedMemory, []⟩ := by
    refine @Step.add ⟨0x60000000, 0⟩ (fun _ s op => op.Still ⟨0x60000000, 0⟩ s) init emulatedMemory
      [] 0 0x60000000 0x1000000 0 (by decide) (by decide) (fun type nrNew he => ?_) (by decide)
    obtain ⟨-, rfl⟩ := Prod.mk.inj (Option.some.inj (he.symm.trans hpass))
    exact Or.inl (by decide)
  exact (reachable_tablesReserved ⟨0x60000000, 0⟩).1 _ (.single hstep)

/-! ### The instance of `main.c` -/

/-- `memory_init` and 33 separate pages, one more than the static array has regions. -/
def triggerCalls : List Op :=
  .add 0x60000000 0x1000000 ::
    (List.range 33).map fun idx => .reserve (0x60000000 + 2 * idx * PAGE_SIZE) PAGE_SIZE

def exec (c : Config) (n : ℕ) (s : State) : Op → Option State
  | .add base size => (memblockAdd c n s base size).map fun r => r.1
  | .reserve base size => (memblockReserve c n s base size).map fun r => r.1
  | _ => none

def execAll (c : Config) (n : ℕ) : List Op → State → Option State
  | [], s => some s
  | op :: ops, s => (exec c n s op).bind (execAll c n ops)

/-- The arguments of the two calls that `exec` runs. -/
def Op.Word : Op → Prop
  | add base size => base < 2 ^ 32 ∧ size < 2 ^ 32
  | reserve base size => base < 2 ^ 32 ∧ size < 2 ^ 32
  | _ => False

instance : DecidablePred Op.Word
  | .add base size => inferInstanceAs (Decidable (base < 2 ^ 32 ∧ size < 2 ^ 32))
  | .reserve base size => inferInstanceAs (Decidable (base < 2 ^ 32 ∧ size < 2 ^ 32))
  | .alloc _ _ _ _ => inferInstanceAs (Decidable False)
  | .free _ => inferInstanceAs (Decidable False)

theorem execAll_run : ∀ (ops : List Op) (s : State) {s' : State}, (∀ op ∈ ops, op.Word) →
    execAll c n ops s = some s' →
    Relation.ReflTransGen (Step c fun _ _ _ => True) ⟨s, []⟩ ⟨s', []⟩
  | [], s, s', _, he => by
    cases he
    exact .refl
  | op :: ops, s, s', hv, he => by
    obtain ⟨s₁, h1, h2⟩ := Option.bind_eq_some_iff.mp he
    have hop := hv op List.mem_cons_self
    have hstep : Step c (fun _ _ _ => True) ⟨s, []⟩ ⟨s₁, []⟩ := by
      cases op with
      | add base size =>
        obtain ⟨⟨t, ret⟩, hr, rfl⟩ := Option.map_eq_some_iff.mp h1
        exact Step.add hop.1 hop.2 trivial hr
      | reserve base size =>
        obtain ⟨⟨t, ret⟩, hr, rfl⟩ := Option.map_eq_some_iff.mp h1
        exact Step.reserve hop.1 hop.2 trivial hr
      | alloc size align minAddr maxAddr => exact hop.elim
      | free b => exact hop.elim
    exact .head hstep (execAll_run ops s₁ (fun x hx => hv x (List.mem_cons_of_mem _ hx)) h2)

/-- The last byte of the reserved array is not reserved. -/
def lastLost (s : State) : Bool :=
  match s.reserved.array with
  | none => false
  | some a => 0 < s.reserved.max ∧ ∀ r ∈ s.reserved.regions,
      ¬ (r.base ≤ a + s.reserved.max * regionBytes - 1 ∧
        a + s.reserved.max * regionBytes - 1 < r.fin)

theorem not_tablesReserved_of_lastLost (h : lastLost s = true) : ¬ TablesReserved s := by
  intro hres
  unfold lastLost at h
  split at h
  · cases h
  · rename_i a harr
    rw [decide_eq_true_eq] at h
    have hpos : 0 < s.reserved.max * regionBytes := Nat.mul_pos h.1 (by decide)
    have hmem : a + s.reserved.max * regionBytes - 1 ∈ tableBytes s.reserved := by
      unfold tableBytes
      rw [harr]
      exact ⟨by omega, by omega⟩
    obtain ⟨r, hr, hcov⟩ := hres .reserved hmem
    exact h.2 r hr hcov

set_option maxRecDepth 4096 in
theorem not_tablesReserved_triggerCalls :
    ¬ ∀ (c : Config) (t : System), Reachable c (fun _ _ _ => True) t → TablesReserved t.st := by
  intro hall
  have hlost : (execAll ⟨0x60000000, 0⟩ 6 triggerCalls init).any lastLost = true := by
    decide +kernel
  obtain ⟨s, hs, hlast⟩ := (Option.any_eq_true _ _).mp hlost
  have hv : ∀ op ∈ triggerCalls, op.Word := by decide +kernel
  exact not_tablesReserved_of_lastLost hlast (hall _ _ (execAll_run _ _ hv hs))

end HardStack.Memblock.DoubleArray
