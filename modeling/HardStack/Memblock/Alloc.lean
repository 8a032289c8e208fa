import HardStack.Memblock.Run

/-! # Allocations do not overlap

`Guarded H s`: the sets `H` and the block of the reserved array are reserved, and no two of them meet.
Reserving a block that is not covered adds it to `H` and freeing a block of `H` takes it out, also
where `memblock_double_array` moves the reserved array on the way: it gets the range that is about to
be reserved as its new area, and searches above and below it. For the memory array the new block is
not yet reserved while the old one is freed; that freeing must not need a bigger array itself
(`AddClear`). -/

namespace HardStack.Memblock.Alloc

open HardStack.Memblock.Model HardStack.Memblock.Regions HardStack.Memblock.Table
open HardStack.Memblock.Range HardStack.Memblock.Run HardStack.Memblock.Find

/-- The block that is reserved for the array of a type; the static array has none. -/
def tableBlock (type : MemblockType) : Set ℕ :=
  match type.array with
  | none => ∅
  | some a => Set.Ico a (a + PAGE_ALIGN (arraySize type.max))

/-- The block of the array is below `PHYS_ADDR_MAX`. -/
def TableLe (type : MemblockType) : Prop :=
  ∀ a, type.array = some a → a + PAGE_ALIGN (arraySize type.max) ≤ PHYS_ADDR_MAX

structure Guarded (H : List (Set ℕ)) (s : State) : Prop where
  wf : StWf 1 s
  room : 3 ≤ s.reserved.max
  disjoint : H.Pairwise Disjoint
  held : ∀ B ∈ H, B ⊆ covered s.reserved.regions
  table : tableBlock s.reserved ⊆ covered s.reserved.regions
  table_le : TableLe s.reserved
  apart : ∀ B ∈ H, Disjoint B (tableBlock s.reserved)

/-- Nothing but the reserved type and the log has changed. -/
structure Frame (s s' : State) : Prop where
  memory : s'.memory = s.memory
  limit : s'.currentLimit = s.currentLimit

variable {c : Config} {H : List (Set ℕ)} {B : Set ℕ} {s s' : State} {n a m : ℕ} {ret : ℤ}

theorem Frame.refl (s : State) : Frame s s := ⟨rfl, rfl⟩

theorem Frame.trans {s₁ s₂ s₃ : State} (h1 : Frame s₁ s₂) (h2 : Frame s₂ s₃) : Frame s₁ s₃ :=
  ⟨h2.memory.trans h1.memory, h2.limit.trans h1.limit⟩

theorem range_eq (h : a + m ≤ PHYS_ADDR_MAX) : range a m = Set.Ico a (a + m) := by
  unfold range capSize
  rw [min_eq_left (by omega)]

theorem capSize_eq (h : a + m ≤ PHYS_ADDR_MAX) : capSize a m = m := by
  unfold capSize
  omega

theorem tableBlock_eq {t t' : MemblockType} (hmax : t'.max = t.max) (harr : t'.array = t.array) :
    tableBlock t' = tableBlock t := by
  unfold tableBlock
  rw [hmax, harr]

theorem TableLe.congr {t t' : MemblockType} (h : TableLe t) (hmax : t'.max = t.max)
    (harr : t'.array = t.array) : TableLe t' := by
  unfold TableLe at *
  rw [hmax, harr]
  exact h

/-! ### Editing the reserved regions -/

theorem Guarded.tail (h : Guarded (B :: H) s) : Guarded H s :=
  ⟨h.wf, h.room, h.disjoint.of_cons, fun C hC => h.held C (List.mem_cons_of_mem _ hC), h.table,
    h.table_le, fun C hC => h.apart C (List.mem_cons_of_mem _ hC)⟩

theorem Guarded.perm {H' : List (Set ℕ)} (h : Guarded H s) (hp : H.Perm H') : Guarded H' s :=
  ⟨h.wf, h.room, (hp.pairwise_iff fun hab => hab.symm).mp h.disjoint,
    fun C hC => h.held C (hp.mem_iff.mpr hC), h.table, h.table_le,
    fun C hC => h.apart C (hp.mem_iff.mpr hC)⟩

/-- The memory type does not matter, as long as it is well formed. -/
theorem Guarded.setMemory {t : MemblockType} (h : Guarded H s) (ht : Wf 1 t) :
    Guarded H (s.setType .memory t) :=
  ⟨h.wf.setType ht, h.room, h.disjoint, h.held, h.table, h.table_le, h.apart⟩

theorem Guarded.setLog (h : Guarded H s) (log : List TableEvent) : Guarded H { s with log := log } :=
  ⟨⟨fun k => by cases k; exacts [h.wf.types .memory, h.wf.types .reserved], h.wf.limit⟩, h.room,
    h.disjoint, h.held, h.table, h.table_le, h.apart⟩

theorem Guarded.add {t : MemblockType} (h : Guarded H s)
    (hB : Disjoint B (covered s.reserved.regions))
    (ht : Edited 1 (· ∪ B) s.reserved t) : Guarded (B :: H) (s.setType .reserved t) := by
  have htb := tableBlock_eq ht.max ht.array
  have hsub : covered s.reserved.regions ⊆ covered t.regions := by
    rw [ht.covers]
    exact Set.subset_union_left
  refine ⟨h.wf.setType ht.wf, ?_, List.pairwise_cons.mpr ⟨fun C hC => ?_, h.disjoint⟩,
    fun C hC => ?_, ?_, h.table_le.congr ht.max ht.array, fun C hC => ?_⟩
  · exact h.room.trans_eq ht.max.symm
  · exact hB.mono_right (h.held C hC)
  · show C ⊆ covered t.regions
    rcases List.mem_cons.mp hC with rfl | hC
    · rw [ht.covers]
      exact Set.subset_union_right
    · exact (h.held C hC).trans hsub
  · exact htb.trans_subset (h.table.trans hsub)
  · show Disjoint C (tableBlock t)
    rw [htb]
    rcases List.mem_cons.mp hC with rfl | hC
    · exact hB.mono_right h.table
    · exact h.apart C hC

theorem Guarded.remove {t : MemblockType} (h : Guarded (B :: H) s)
    (ht : Edited 1 (· \ B) s.reserved t) : Guarded H (s.setType .reserved t) := by
  have htb := tableBlock_eq ht.max ht.array
  have hkeep : ∀ C : Set ℕ, Disjoint B C → C ⊆ covered s.reserved.regions → C ⊆ covered t.regions := by
    intro C hBC hC
    rw [ht.covers]
    exact Set.subset_sdiff.mpr ⟨hC, hBC.symm⟩
  obtain ⟨hB, hH⟩ := List.pairwise_cons.mp h.disjoint
  refine ⟨h.wf.setType ht.wf, h.room.trans_eq ht.max.symm, hH, fun C hC => ?_, ?_,
    h.table_le.congr ht.max ht.array, fun C hC => ?_⟩
  · exact hkeep C (hB C hC) (h.held C (List.mem_cons_of_mem _ hC))
  · exact htb.trans_subset (hkeep _ (h.apart B List.mem_cons_self) h.table)
  · show Disjoint C (tableBlock t)
    rw [htb]
    exact h.apart C (List.mem_cons_of_mem _ hC)

/-! ### Where there is room -/

theorem FreeRange.disjoint (h : FreeRange s.memory s.reserved a (a + m)) :
    Disjoint (Set.Ico a (a + m)) (covered s.reserved.regions) := by
  refine Set.disjoint_left.mpr fun x hx hcov => ?_
  obtain ⟨r, hr, hlo, hhi⟩ := hcov
  have := h.apart r hr
  have := hx.1
  have := hx.2
  omega

theorem FreeRange.subset (h : FreeRange s.memory s.reserved a (a + m)) :
    Set.Ico a (a + m) ⊆ covered s.memory.regions := by
  intro x hx
  obtain ⟨r, hr, hlo, hhi⟩ := h.inside
  exact ⟨r, hr, hlo.trans hx.1, hx.2.trans_le hhi⟩

/-- A block that is not covered is one region more. -/
theorem length_fill_of_disjoint {t : MemblockType} {flags : ℕ} (hm : 0 < m)
    (hpos : ∀ r ∈ t.regions, 0 < r.size)
    (hfree : Disjoint (Set.Ico a (a + m)) (covered t.regions)) :
    (fill (a + m) flags a t.regions).length = t.cnt + 1 := by
  refine length_fill (Nat.lt_add_of_pos_right hm) fun r hr => ?_
  by_contra hno
  push Not at hno
  have hsize := hpos r hr
  have hlt : max a r.base < a + m ∧ max a r.base < r.fin := by
    unfold Region.fin at *
    omega
  exact Set.disjoint_left.mp hfree ⟨le_max_left a r.base, hlt.1⟩ ⟨r, hr, le_max_right _ _, hlt.2⟩

section

variable {double : State → Kind → ℕ → ℕ → Option (State × Bool)}

/-- What reserving a block that is not covered comes to: one region more, if there is room. -/
theorem reserve_outcome (hd : DoubleSpec 1 double) (h : StWf 1 s) (hm : 0 < m)
    (ha : a + m ≤ PHYS_ADDR_MAX)
    (hfree : Disjoint (Set.Ico a (a + m)) (covered s.reserved.regions))
    (he : addRange double n s .reserved a m 0 = some (s', ret)) :
    ∃ nr ≤ 1, Outcome double (Edited 1 (· ∪ Set.Ico a (a + m))) .reserved nr a m n s s' ret := by
  obtain ⟨nr, hnr, ho⟩ := addRange_outcome le_rfl hd h (fun _ => rfl) he
  rw [range_eq ha, capSize_eq ha] at ho
  refine ⟨nr, ?_, ho⟩
  rcases hnr with rfl | ⟨hpos, hlen⟩
  · exact Nat.zero_le 1
  · rw [capSize_eq ha, length_fill_of_disjoint hm hpos hfree] at hlen
    exact (Nat.add_left_cancel hlen).ge

theorem reserve_room (hd : DoubleSpec 1 double) (h : StWf 1 s) (hm : 0 < m)
    (ha : a + m ≤ PHYS_ADDR_MAX)
    (hfree : Disjoint (Set.Ico a (a + m)) (covered s.reserved.regions))
    (hroom : s.reserved.cnt + 1 ≤ s.reserved.max)
    (he : addRange double n s .reserved a m 0 = some (s', ret)) :
    ret = 0 ∧ ∃ t, Edited 1 (· ∪ Set.Ico a (a + m)) s.reserved t ∧ s' = s.setType .reserved t := by
  obtain ⟨nr, hnr, ho⟩ := reserve_outcome hd h hm ha hfree he
  have hgrow : growArray double .reserved nr a m n s = some (s, true) :=
    growArray_room (show s.reserved.cnt + nr ≤ s.reserved.max by omega)
  rcases ho with ⟨hno, -⟩ | ⟨s₁, t, hs₁, ht, rfl, rfl⟩
  · rw [hgrow] at hno
    cases hno
  · rw [hgrow] at hs₁
    cases hs₁
    exact ⟨rfl, t, ht, rfl⟩

theorem remove_room (hd : DoubleSpec 1 double) (h : StWf 1 s) (ha : a + m ≤ PHYS_ADDR_MAX)
    (hroom : s.reserved.cnt + 2 ≤ s.reserved.max)
    (he : removeRange double n s .reserved a m = some (s', ret)) :
    ret = 0 ∧ ∃ t, (Edited 1 (· \ Set.Ico a (a + m)) s.reserved t ∧ t.cnt ≤ s.reserved.cnt + 2) ∧
      s' = s.setType .reserved t := by
  obtain ⟨nr, hnr, ho⟩ := removeRange_outcome le_rfl hd h he
  rw [range_eq ha, capSize_eq ha] at ho
  have hgrow : growArray double .reserved nr a m n s = some (s, true) :=
    growArray_room (show s.reserved.cnt + nr ≤ s.reserved.max by omega)
  rcases ho with ⟨hno, -⟩ | ⟨s₁, t, hs₁, ht, rfl, rfl⟩
  · rw [hgrow] at hno
    cases hno
  · rw [hgrow] at hs₁
    cases hs₁
    exact ⟨rfl, t, ht, rfl⟩

end

/-! ### Moving the reserved array -/

/-- The size of the next block, in terms of the next `max`. -/
theorem newAllocSize_eq (s : State) (kind : Kind) :
    newAllocSize s kind = PAGE_ALIGN (arraySize ((s.type kind).max <<< 1)) := by
  unfold newAllocSize arraySize
  rw [Nat.shiftLeft_eq, Nat.shiftLeft_eq]
  congr 1
  unfold regionBytes
  omega

/-- The place of a new array is free, and off the new area. -/
theorem findNewArray_free {kind : Kind} {addr : ℕ} (h : StWf 1 s)
    (he : findNewArray c s kind a m (newAllocSize s kind) = addr) (hne : addr ≠ 0) :
    FreeRange s.memory s.reserved addr (addr + newAllocSize s kind) ∧
      addr + newAllocSize s kind ≤ PHYS_ADDR_MAX ∧
      (kind = .reserved → PAGE_SIZE ≤ a → a + m ≤ PHYS_ADDR_MAX →
        Disjoint (Set.Ico a (a + m)) (Set.Ico addr (addr + newAllocSize s kind))) := by
  have hmax : PHYS_ADDR_MAX < 2 ^ 32 := by decide
  have hpos : 0 < newAllocSize s kind := newAlloc_pos _
  rcases findNewArray_sound h hpos he hne with ⟨hi, hf⟩ | ⟨hk, hm, hf⟩
  · refine ⟨hf.free, found_lt h hf, fun hk _ ham => ?_⟩
    have hlow := hf.start_le
    rw [if_pos hk, Nat.mod_eq_of_lt (by omega)] at hlow
    refine Set.disjoint_left.mpr fun x hx hx' => ?_
    have := hx.2
    have := hx'.1
    omega
  · refine ⟨hf.free, found_lt h hf, fun _ hpage ham => ?_⟩
    -- an end of 0 or 1 would stand for the limit
    have hlow := hf.start_le
    have hfin : addr + newAllocSize s kind ≤ a := by
      have hfin := hf.fin_le
      have hone : 1 < PAGE_SIZE := by decide
      unfold effectiveEnd MEMBLOCK_ALLOC_ACCESSIBLE MEMBLOCK_ALLOC_KASAN at hfin
      split_ifs at hfin with hends
      · omega
      · omega
    refine Set.disjoint_left.mpr fun x hx hx' => ?_
    have := hx.1
    have := hx'.2
    omega

/-- The reserved array has moved to `addr`. -/
structure ArrayMoved (s s' : State) (addr : ℕ) : Prop where
  array : s'.reserved.array = some addr
  max : s'.reserved.max = s.reserved.max <<< 1
  covers : covered s'.reserved.regions = covered s.reserved.regions \ tableBlock s.reserved ∪
    Set.Ico addr (addr + newAllocSize s .reserved)
  frame : Frame s s'

/-- The old array has been freed; the new block is not yet reserved. -/
theorem oldFreed_reserved {addr : ℕ} {s₂ : State} (h : StWf 1 s) (hroom : 3 ≤ s.reserved.max)
    (hle : TableLe s.reserved) (hf : OldFreed c n s .reserved addr s₂) :
    (s₂.reserved.array = some addr ∧ s₂.reserved.max = s.reserved.max <<< 1 ∧
      covered s₂.reserved.regions = covered s.reserved.regions \ tableBlock s.reserved ∧ Frame s s₂) ∧
      s₂.reserved.cnt ≤ s.reserved.cnt + 2 := by
  have h₁ : StWf 1 (switched s .reserved addr) := h.setType (grown_wf (h.types .reserved))
  have hcnt : s.reserved.cnt ≤ s.reserved.max := (h.types .reserved).cnt_le
  unfold OldFreed at hf
  unfold TableLe at hle
  unfold tableBlock
  cases harr : s.reserved.array with
  | none =>
    rw [show (s.type .reserved).array = none from harr] at hf
    rw [hf]
    exact ⟨⟨rfl, rfl, Set.sdiff_empty.symm, rfl, rfl⟩, Nat.le_add_right _ _⟩
  | some old =>
    rw [show (s.type .reserved).array = some old from harr] at hf
    obtain ⟨s₁, ret, hrem, rfl⟩ := hf
    have hroom₁ : s.reserved.cnt + 2 ≤ s.reserved.max <<< 1 := by
      rw [Nat.shiftLeft_eq]
      omega
    obtain ⟨rfl, t, ⟨ht, htc⟩, rfl⟩ := remove_room (doubleArray_spec le_rfl n) h₁ (hle old harr) hroom₁ hrem
    rw [if_pos rfl]
    exact ⟨⟨ht.array, ht.max, ht.covers, rfl, rfl⟩, htc⟩

theorem doubleArray_reserved_cases {ok : Bool} (h : StWf 1 s) (hroom : 3 ≤ s.reserved.max)
    (hle : TableLe s.reserved) (he : doubleArray c n s .reserved a m = some (s', ok)) :
    s' = s ∨ ∃ addr, findNewArray c s .reserved a m (newAllocSize s .reserved) = addr ∧ addr ≠ 0 ∧
      ArrayMoved s s' addr := by
  cases n with
  | zero => cases he
  | succ n =>
    rcases doubleArray_cases he with ⟨-, hs, -⟩ | ⟨addr, s₂, s₃, hadd, hne, hfreed, hres, rfl, -⟩
    · exact Or.inl hs
    right
    refine ⟨addr, hadd, hne, ?_⟩
    obtain ⟨hfree, hlt, -⟩ := findNewArray_free h hadd hne
    have hd := doubleArray_spec (c := c) le_rfl n
    have h₂ := (oldFreed_moved le_rfl hd h hfreed).1
    obtain ⟨⟨harr, hmax, hcov, hframe⟩, hcnt⟩ := oldFreed_reserved h hroom hle hfreed
    have hcnt₀ : s.reserved.cnt ≤ s.reserved.max := (h.types .reserved).cnt_le
    have hroom₂ : s₂.reserved.cnt + 1 ≤ s₂.reserved.max := by
      rw [hmax, Nat.shiftLeft_eq]
      omega
    have hfree₂ : Disjoint (Set.Ico addr (addr + newAllocSize s .reserved))
        (covered s₂.reserved.regions) := by
      rw [hcov]
      exact (FreeRange.disjoint hfree).mono_right Set.sdiff_subset
    obtain ⟨-, t, ht, rfl⟩ := reserve_room hd h₂ (newAlloc_pos _) hlt hfree₂ hroom₂ hres
    exact ⟨ht.array.trans harr, ht.max.trans hmax, by rw [← hcov]; exact ht.covers,
      hframe.memory, hframe.limit⟩

/-- **Moving the reserved array** keeps what is held, and leaves the new area free. -/
theorem doubleArray_reserved {ok : Bool} (h : Guarded H s)
    (he : doubleArray c n s .reserved a m = some (s', ok)) :
    Guarded H s' ∧ Frame s s' ∧ (PAGE_SIZE ≤ a → a + m ≤ PHYS_ADDR_MAX →
      Disjoint (Set.Ico a (a + m)) (covered s.reserved.regions) →
      Disjoint (Set.Ico a (a + m)) (covered s'.reserved.regions)) := by
  rcases doubleArray_reserved_cases h.wf h.room h.table_le he with rfl | ⟨addr, hadd, hne, hmv⟩
  · exact ⟨h, Frame.refl s', fun _ _ hfree => hfree⟩
  obtain ⟨hfree, hlt, hoff⟩ := findNewArray_free h.wf hadd hne
  have hnew := FreeRange.disjoint hfree
  have htb : tableBlock s'.reserved = Set.Ico addr (addr + newAllocSize s .reserved) := by
    unfold tableBlock
    rw [hmv.array, hmv.max, newAllocSize_eq]
    rfl
  have h' := (doubleArray_spec le_rfl n s .reserved a m s' ok h.wf he).1
  refine ⟨⟨h', ?_, h.disjoint, fun C hC => ?_, ?_, ?_, fun C hC => ?_⟩, hmv.frame, fun hpage ham hpend => ?_⟩
  · rw [hmv.max, Nat.shiftLeft_eq]
    have := h.room
    omega
  · rw [hmv.covers]
    exact (Set.subset_sdiff.mpr ⟨h.held C hC, h.apart C hC⟩).trans Set.subset_union_left
  · rw [htb, hmv.covers]
    exact Set.subset_union_right
  · intro old hold
    rw [hmv.array] at hold
    cases hold
    rw [hmv.max]
    rw [newAllocSize_eq] at hlt
    exact hlt
  · rw [htb]
    exact (hnew.mono_right (h.held C hC)).symm
  · rw [hmv.covers]
    exact Set.disjoint_union_right.mpr ⟨hpend.mono_right Set.sdiff_subset, hoff rfl hpage ham⟩

theorem growArray_reserved {n' extra : ℕ} : ∀ (n : ℕ) (s : State) {s' : State} {ok : Bool},
    Guarded H s → growArray (doubleArray c n') .reserved extra a m n s = some (s', ok) →
    Guarded H s' ∧ Frame s s' ∧ (PAGE_SIZE ≤ a → a + m ≤ PHYS_ADDR_MAX →
      Disjoint (Set.Ico a (a + m)) (covered s.reserved.regions) →
      Disjoint (Set.Ico a (a + m)) (covered s'.reserved.regions))
  | n, s, s', ok, h, he => by
    unfold growArray at he
    by_cases hroom : (s.type .reserved).cnt + extra ≤ (s.type .reserved).max
    · rw [if_pos hroom] at he
      cases he
      exact ⟨h, Frame.refl s, fun _ _ hfree => hfree⟩
    rw [if_neg hroom] at he
    cases n with
    | zero => cases he
    | succ n =>
      dsimp only at he
      cases hdo : doubleArray c n' s .reserved a m with
      | none =>
        rw [hdo] at he
        cases he
      | some r =>
        obtain ⟨s₁, ok₁⟩ := r
        rw [hdo] at he
        obtain ⟨h₁, hf₁, hfree₁⟩ := doubleArray_reserved h hdo
        cases ok₁ with
        | false =>
          cases he
          exact ⟨h₁, hf₁, hfree₁⟩
        | true =>
          obtain ⟨h₂, hf₂, hfree₂⟩ := growArray_reserved n s₁ h₁ he
          exact ⟨h₂, hf₁.trans hf₂, fun hpage ham hfree =>
            hfree₂ hpage ham (hfree₁ hpage ham hfree)⟩

/-- **`memblock_reserve`** of a block that is not covered. -/
theorem reserve_guarded {n' : ℕ} (h : Guarded H s) (hm : 0 < m) (hpage : PAGE_SIZE ≤ a)
    (ha : a + m ≤ PHYS_ADDR_MAX)
    (hfree : Disjoint (Set.Ico a (a + m)) (covered s.reserved.regions))
    (he : addRange (doubleArray c n') n s .reserved a m 0 = some (s', ret)) :
    (ret = 0 → Guarded (Set.Ico a (a + m) :: H) s') ∧ Guarded H s' ∧ Frame s s' := by
  obtain ⟨nr, -, ho⟩ := reserve_outcome (doubleArray_spec le_rfl n') h.wf hm ha hfree he
  rcases ho with ⟨hgrow, rfl⟩ | ⟨s₁, t, hgrow, ht, rfl, rfl⟩
  · obtain ⟨h₁, hf₁, -⟩ := growArray_reserved n s h hgrow
    exact ⟨fun hr => absurd hr (by decide), h₁, hf₁⟩
  · obtain ⟨h₁, hf₁, hfree₁⟩ := growArray_reserved n s h hgrow
    have h₂ := h₁.add (hfree₁ hpage ha hfree) ht
    exact ⟨fun _ => h₂, h₂.tail, hf₁.memory, hf₁.limit⟩

/-- **`memblock_free`** of a block that is held. -/
theorem free_guarded {n' : ℕ} (h : Guarded (Set.Ico a (a + m) :: H) s) (ha : a + m ≤ PHYS_ADDR_MAX)
    (he : removeRange (doubleArray c n') n s .reserved a m = some (s', ret)) :
    (ret ≠ 0 → Guarded (Set.Ico a (a + m) :: H) s') ∧ Guarded H s' ∧ Frame s s' := by
  obtain ⟨nr, -, ho⟩ := removeRange_outcome le_rfl (doubleArray_spec le_rfl n') h.wf he
  rw [range_eq ha, capSize_eq ha] at ho
  rcases ho with ⟨hgrow, rfl⟩ | ⟨s₁, t, hgrow, ht, rfl, rfl⟩
  · obtain ⟨h₁, hf₁, -⟩ := growArray_reserved n s h hgrow
    exact ⟨fun _ => h₁, h₁.tail, hf₁⟩
  · obtain ⟨h₁, hf₁, -⟩ := growArray_reserved n s h hgrow
    exact ⟨fun hr => absurd rfl hr, h₁.remove ht.1, hf₁.memory, hf₁.limit⟩

/-! ### Moving the memory array -/

/-- Freeing the memory array needs no bigger reserved array. -/
def FreeClear (s : State) : Prop :=
  s.memory.array = none ∨ s.reserved.cnt + 2 ≤ s.reserved.max

/-- The old memory array is freed, and the free memory stays free. -/
theorem oldFreed_memory {addr : ℕ} {s₂ : State} (h : Guarded (tableBlock s.memory :: H) s)
    (hle : TableLe s.memory) (hclear : FreeClear s) (hf : OldFreed c n s .memory addr s₂) :
    Guarded H s₂ ∧ Frame (switched s .memory addr) s₂ ∧
      covered s₂.reserved.regions ⊆ covered s.reserved.regions := by
  have h₁ : Guarded (tableBlock s.memory :: H) (switched s .memory addr) :=
    h.setMemory (grown_wf (h.wf.types .memory))
  unfold OldFreed at hf
  unfold TableLe at hle
  cases harr : s.memory.array with
  | none =>
    rw [show (s.type .memory).array = none from harr] at hf
    rw [hf]
    exact ⟨h₁.tail, Frame.refl _, subset_rfl⟩
  | some old =>
    rw [show (s.type .memory).array = some old from harr] at hf
    obtain ⟨s₁, ret, hrem, rfl⟩ := hf
    have hroom : s.reserved.cnt + 2 ≤ s.reserved.max := by
      rcases hclear with hno | hroom
      · rw [harr] at hno
        cases hno
      · exact hroom
    have htb : tableBlock s.memory = Set.Ico old (old + PAGE_ALIGN (arraySize s.memory.max)) := by
      unfold tableBlock
      rw [harr]
    obtain ⟨rfl, t, ⟨ht, -⟩, rfl⟩ := remove_room (doubleArray_spec le_rfl n) h₁.wf (hle old harr)
      hroom hrem
    rw [← htb] at ht
    rw [if_pos rfl]
    refine ⟨(h₁.remove ht).setLog _, ⟨rfl, rfl⟩, ?_⟩
    show covered t.regions ⊆ _
    rw [ht.covers]
    exact Set.sdiff_subset

/-- **Moving the memory array.** -/
theorem doubleArray_memory {ok : Bool} (h : Guarded (tableBlock s.memory :: H) s)
    (hle : TableLe s.memory) (hclear : FreeClear s)
    (he : doubleArray c n s .memory a m = some (s', ok)) :
    Guarded (tableBlock s'.memory :: H) s' ∧ TableLe s'.memory ∧
      s'.memory.regions = s.memory.regions ∧ s'.currentLimit = s.currentLimit := by
  cases n with
  | zero => cases he
  | succ n =>
    rcases doubleArray_cases he with ⟨-, rfl, -⟩ | ⟨addr, s₂, s₃, hadd, hne, hfreed, hres, rfl, -⟩
    · exact ⟨h, hle, rfl, rfl⟩
    obtain ⟨hfree, hlt, -⟩ := findNewArray_free h.wf hadd hne
    have hpage : PAGE_SIZE ≤ addr := by
      rcases findNewArray_sound h.wf (newAlloc_pos _) hadd hne with ⟨hi, hf⟩ | ⟨hk, -, -⟩
      · exact (le_max_right _ _).trans hf.start_le
      · cases hk
    obtain ⟨h₂, hf₂, hsub⟩ := oldFreed_memory h hle hclear hfreed
    obtain ⟨h₃, -, hf₃⟩ := reserve_guarded h₂ (newAlloc_pos _) hpage hlt
      ((FreeRange.disjoint hfree).mono_right hsub) hres
    have hmem : s₃.memory = { s.memory with max := s.memory.max <<< 1, array := some addr } :=
      hf₃.memory.trans hf₂.memory
    have htb : tableBlock s₃.memory = Set.Ico addr (addr + newAllocSize s .memory) := by
      rw [hmem, newAllocSize_eq]
      rfl
    refine ⟨?_, ?_, ?_, ?_⟩
    · rw [htb]
      exact (h₃ rfl).setLog _
    · show TableLe s₃.memory
      rw [hmem]
      intro x hx
      cases hx
      rw [newAllocSize_eq] at hlt
      exact hlt
    · show s₃.memory.regions = _
      rw [hmem]
    · exact hf₃.limit.trans hf₂.limit

/-- In every round of `memblock_add_range` that moves the memory array, `FreeClear` holds. -/
def growClear (c : Config) (n' extra base size : ℕ) : ℕ → State → Prop
  | n, s =>
    if s.memory.cnt + extra ≤ s.memory.max then True
    else
      match n with
      | 0 => True
      | n + 1 => FreeClear s ∧
        match doubleArray c n' s .memory base size with
        | some (s, true) => growClear c n' extra base size n s
        | _ => True

/-- **The condition** on a `memblock_add`: a dynamic memory array that has to grow is freed while the
reserved array has room for two more regions. -/
def AddClear (c : Config) (n : ℕ) (s : State) (base size : ℕ) : Prop :=
  match addPass false s.memory base (base + capSize base size) 0 with
  | none => True
  | some (_, nrNew) => growClear c n nrNew base (capSize base size) n s

theorem growArray_memory {n' extra : ℕ} : ∀ (n : ℕ) (s : State) {s' : State} {ok : Bool},
    Guarded (tableBlock s.memory :: H) s → TableLe s.memory →
    growClear c n' extra a m n s →
    growArray (doubleArray c n') .memory extra a m n s = some (s', ok) →
    Guarded (tableBlock s'.memory :: H) s' ∧ TableLe s'.memory ∧
      s'.memory.regions = s.memory.regions ∧ s'.currentLimit = s.currentLimit
  | n, s, s', ok, h, hle, hclear, he => by
    unfold growArray at he
    unfold growClear at hclear
    by_cases hroom : (s.type .memory).cnt + extra ≤ (s.type .memory).max
    · rw [if_pos hroom] at he
      cases he
      exact ⟨h, hle, rfl, rfl⟩
    rw [if_neg hroom] at he
    rw [if_neg (show ¬ s.memory.cnt + extra ≤ s.memory.max from hroom)] at hclear
    cases n with
    | zero => cases he
    | succ n =>
      dsimp only at he hclear
      obtain ⟨hfc, hrest⟩ := hclear
      cases hdo : doubleArray c n' s .memory a m with
      | none =>
        rw [hdo] at he
        cases he
      | some r =>
        obtain ⟨s₁, ok₁⟩ := r
        rw [hdo] at he hrest
        obtain ⟨h₁, hle₁, hreg₁, hlim₁⟩ := doubleArray_memory h hle hfc hdo
        cases ok₁ with
        | false =>
          cases he
          exact ⟨h₁, hle₁, hreg₁, hlim₁⟩
        | true =>
          obtain ⟨h₂, hle₂, hreg₂, hlim₂⟩ := growArray_memory n s₁ h₁ hle₁ hrest he
          exact ⟨h₂, hle₂, hreg₂.trans hreg₁, hlim₂.trans hlim₁⟩

/-- **`memblock_add`** keeps what is held and all the memory there is. -/
theorem add_guarded (h : Guarded (tableBlock s.memory :: H) s) (hle : TableLe s.memory)
    (hclear : AddClear c n s a m) (he : memblockAdd c n s a m = some (s', ret)) :
    Guarded (tableBlock s'.memory :: H) s' ∧ TableLe s'.memory ∧
      covered s.memory.regions ⊆ covered s'.memory.regions ∧ s'.currentLimit = s.currentLimit := by
  obtain ⟨nr, hnr, ho⟩ := addRange_outcome le_rfl (doubleArray_spec le_rfl n) h.wf (fun _ => rfl) he
  obtain ⟨nr', hcount, hlen'⟩ := addPass_count s.memory a (a + capSize a m) 0
  have hgc : growClear c n nr a (capSize a m) n s := by
    rcases hnr with rfl | ⟨-, hlen⟩
    · unfold growClear
      rw [if_pos (show s.memory.cnt + 0 ≤ s.memory.max from (h.wf.types .memory).cnt_le)]
      trivial
    · unfold AddClear at hclear
      rw [hcount] at hclear
      have : nr = nr' := Nat.add_left_cancel (hlen.symm.trans hlen')
      rw [this]
      exact hclear
  rcases ho with ⟨hgrow, -⟩ | ⟨s₁, t, hgrow, ht, rfl, -⟩
  · obtain ⟨h₁, hle₁, hreg, hlim⟩ := growArray_memory n s h hle hgc hgrow
    exact ⟨h₁, hle₁, by rw [hreg], hlim⟩
  · obtain ⟨h₁, hle₁, hreg, hlim⟩ := growArray_memory n s h hle hgc hgrow
    have htb : tableBlock t = tableBlock s₁.memory := tableBlock_eq ht.max ht.array
    refine ⟨?_, hle₁.congr ht.max ht.array, ?_, hlim⟩
    · show Guarded (tableBlock t :: H) _
      rw [htb]
      exact h₁.setMemory ht.wf
    · show _ ⊆ covered t.regions
      rw [ht.covers, ← hreg]
      exact Set.subset_union_left

/-! ### Runs -/

/-- An allocation: the block, the alignment that was asked for and the limit that was in force. -/
structure Block where
  base : ℕ
  size : ℕ
  align : ℕ
  limit : ℕ
  deriving DecidableEq

def Block.set (b : Block) : Set ℕ := Set.Ico b.base (b.base + b.size)

/-- The `memblock` and the live allocations. -/
structure System where
  st : State
  live : List Block
  deriving DecidableEq

/-- The allocations after a call that returns `base`; `0` is a failure. -/
def allocated (live : List Block) (base size align limit : ℕ) : List Block :=
  if base = 0 then live else ⟨base, size, align, limit⟩ :: live

/-- One call. The arguments are of type `phys_addr_t`; `memblock_add` meets a condition `P`. A free
that fails leaves the allocation live. -/
inductive Step (c : Config) (P : ℕ → State → ℕ → ℕ → Prop) : System → System → Prop
  | add {s s' : State} {live : List Block} {n base size : ℕ} {ret : ℤ}
      (hb : base < 2 ^ 32) (hs : size < 2 ^ 32) (hP : P n s base size)
      (h : memblockAdd c n s base size = some (s', ret)) : Step c P ⟨s, live⟩ ⟨s', live⟩
  | physAlloc {s s' : State} {live : List Block} {n size align a : ℕ}
      (hs : 0 < size ∧ size < 2 ^ 32) (ha : Aligned align)
      (h : memblockPhysAlloc c n s size align = some (s', a)) :
      Step c P ⟨s, live⟩ ⟨s', allocated live a size align s.currentLimit⟩
  | allocTryNid {s s' : State} {live : List Block} {n size align minAddr maxAddr a : ℕ}
      (hs : 0 < size ∧ size < 2 ^ 32) (ha : Aligned align) (hmin : minAddr < 2 ^ 32)
      (hmax : maxAddr < 2 ^ 32)
      (h : allocInternal c n s size align minAddr maxAddr = some (s', a)) :
      Step c P ⟨s, live⟩
        ⟨s', allocated live a size align (effectiveEnd s (min maxAddr s.currentLimit))⟩
  | free {s s' : State} {live : List Block} {n : ℕ} {b : Block} {ret : ℤ} (hb : b ∈ live)
      (h : memblockFree c n s b.base b.size = some (s', ret)) :
      Step c P ⟨s, live⟩ ⟨s', if ret = 0 then live.erase b else live⟩

/-- A `memblock` with some memory regions and no reservations; both arrays are the static ones. -/
structure Start (s : State) : Prop where
  memory : Rep s.memory
  flags : ∀ r ∈ s.memory.regions, r.flags = 0
  static : s.memory.array = none
  reserved : s.reserved = initType
  limit : s.currentLimit ≤ PHYS_ADDR_MAX

/-- What holds of the live allocations. -/
structure Safe (t : System) : Prop where
  aligned : ∀ b ∈ t.live, b.align ∣ b.base
  page_le : ∀ b ∈ t.live, PAGE_SIZE ≤ b.base
  below : ∀ b ∈ t.live, b.base + b.size ≤ b.limit
  inside : ∀ b ∈ t.live, b.set ⊆ covered t.st.memory.regions
  disjoint : t.live.Pairwise fun a b => Disjoint a.set b.set
  tables : ∀ b ∈ t.live, ∀ k, Disjoint b.set (tableBlock (t.st.type k))
  reserved : ∀ b ∈ t.live, b.set ⊆ covered t.st.reserved.regions

/-- What is known of a block that has been found. -/
structure Placed (s : State) (b : Block) : Prop where
  aligned : b.align ∣ b.base
  page_le : PAGE_SIZE ≤ b.base
  below : b.base + b.size ≤ b.limit
  limit_le : b.limit ≤ PHYS_ADDR_MAX
  inside : b.set ⊆ covered s.memory.regions

structure Inv (t : System) : Prop where
  guarded : Guarded (tableBlock t.st.memory :: t.live.map Block.set) t.st
  table_le : TableLe t.st.memory
  placed : ∀ b ∈ t.live, Placed t.st b

theorem Inv.safe {t : System} (h : Inv t) : Safe t := by
  have hH := List.pairwise_cons.mp h.guarded.disjoint
  have hmem : ∀ b ∈ t.live, b.set ∈ tableBlock t.st.memory :: t.live.map Block.set :=
    fun b hb => List.mem_cons_of_mem _ (List.mem_map_of_mem hb)
  refine ⟨fun b hb => (h.placed b hb).aligned, fun b hb => (h.placed b hb).page_le,
    fun b hb => (h.placed b hb).below, fun b hb => (h.placed b hb).inside,
    List.pairwise_map.mp hH.2, fun b hb k => ?_, fun b hb => h.guarded.held _ (hmem b hb)⟩
  cases k with
  | memory => exact (hH.1 _ (List.mem_map_of_mem hb)).symm
  | reserved => exact h.guarded.apart _ (hmem b hb)

theorem Placed.mono {s' : State} {b : Block} (h : Placed s b)
    (hsub : covered s.memory.regions ⊆ covered s'.memory.regions) : Placed s' b :=
  ⟨h.aligned, h.page_le, h.below, h.limit_le, h.inside.trans hsub⟩

theorem start_inv (h : Start s) : Inv ⟨s, []⟩ := by
  have hwf := h.memory.wf
  have hmem : Wf 1 s.memory :=
    ⟨hwf.cnt_pos, hwf.cnt_le, h.memory.apart, hwf.fin_le, hwf.sum, hwf.sizes, fun _ => h.flags⟩
  have htb : tableBlock s.memory = ∅ := by
    unfold tableBlock
    rw [h.static]
  have hrb : tableBlock s.reserved = ∅ := by
    rw [h.reserved]
    rfl
  refine ⟨⟨⟨fun k => ?_, h.limit⟩, ?_, List.pairwise_singleton _ _, fun C hC => ?_, ?_, ?_,
    fun C hC => ?_⟩, fun x hx => ?_, fun b hb => absurd hb List.not_mem_nil⟩
  · cases k with
    | memory => exact hmem
    | reserved =>
      show Wf 1 s.reserved
      rw [h.reserved]
      exact initType_wf
  · show 3 ≤ s.reserved.max
    rw [h.reserved]
    decide
  · rw [List.mem_singleton.mp hC, htb]
    exact Set.empty_subset _
  · exact hrb.trans_subset (Set.empty_subset _)
  · intro x hx
    rw [h.reserved] at hx
    cases hx
  · rw [List.mem_singleton.mp hC, htb]
    exact Set.empty_disjoint _
  · rw [h.static] at hx
    cases hx

/-- **A search and a reservation** give a block that is apart from all others. -/
theorem findAndReserve_guarded {size k start fin : ℕ} (h : Guarded H s) (hs : 0 < size)
    (hk : k < 32) (hstart : start ≤ PHYS_ADDR_MAX) (hfin : fin ≤ PHYS_ADDR_MAX)
    (he : findAndReserve c n s size (2 ^ k) start fin = some (s', a)) :
    Frame s s' ∧ Guarded H s' ∧ (a ≠ 0 → Placed s ⟨a, size, 2 ^ k, effectiveEnd s fin⟩ ∧
      Guarded (Set.Ico a (a + size) :: H) s') := by
  unfold findAndReserve at he
  dsimp only at he
  by_cases hzero : findInRangeNode c s size (2 ^ k) start fin = 0
  · rw [if_pos hzero] at he
    cases he
    exact ⟨Frame.refl s, h, fun ha => absurd rfl ha⟩
  rw [if_neg hzero] at he
  obtain ⟨⟨t, ret⟩, hres, heq⟩ := Option.map_eq_some_iff.mp he
  have hap := Apart.mono (h.wf.types .reserved).apart (Nat.zero_le 1)
  have hfound := findInRangeNode_sound hap h.wf.limit hstart hfin hs hk rfl hzero
  generalize findInRangeNode c s size (2 ^ k) start fin = x at *
  have heff : effectiveEnd s fin ≤ PHYS_ADDR_MAX := by
    unfold effectiveEnd
    split_ifs
    · exact h.wf.limit
    · exact hfin
  have hpage : PAGE_SIZE ≤ x := (le_max_right _ _).trans hfound.start_le
  obtain ⟨h1, h2, h3⟩ := reserve_guarded h hs hpage (hfound.fin_le.trans heff)
    (FreeRange.disjoint hfound.free) hres
  cases heq
  refine ⟨h3, h2, fun ha => ?_⟩
  by_cases hret : ret = 0
  · rw [if_pos hret]
    exact ⟨⟨hfound.aligned, hpage, hfound.fin_le, heff, FreeRange.subset hfound.free⟩, h1 hret⟩
  · rw [if_neg hret] at ha
    exact absurd rfl ha

theorem allocated_inv {live : List Block} {size k limit : ℕ} (h : Inv ⟨s, live⟩) (hf : Frame s s')
    (hg : Guarded (tableBlock s.memory :: live.map Block.set) s')
    (hnew : a ≠ 0 → Placed s ⟨a, size, 2 ^ k, limit⟩ ∧
      Guarded (Set.Ico a (a + size) :: tableBlock s.memory :: live.map Block.set) s') :
    Inv ⟨s', allocated live a size (2 ^ k) limit⟩ := by
  have hmem := hf.memory
  have hsub : covered s.memory.regions ⊆ covered s'.memory.regions := by rw [hmem]
  have hle : TableLe s'.memory := by
    rw [hmem]
    exact h.table_le
  unfold allocated
  by_cases ha : a = 0
  · rw [if_pos ha]
    refine ⟨?_, hle, fun b hb => (h.placed b hb).mono hsub⟩
    dsimp only
    rw [hmem]
    exact hg
  · rw [if_neg ha]
    obtain ⟨hp, hg'⟩ := hnew ha
    refine ⟨?_, hle, fun b hb => ?_⟩
    · dsimp only
      rw [hmem]
      exact hg'.perm (List.Perm.swap _ _ _)
    · rcases List.mem_cons.mp hb with rfl | hb
      · exact hp.mono hsub
      · exact (h.placed b hb).mono hsub

theorem step_inv {t t' : System} (h : Inv t) (hst : Step c (AddClear c) t t') : Inv t' := by
  have hword : ∀ x, x < 2 ^ 32 → x ≤ PHYS_ADDR_MAX := by
    intro x hx
    unfold PHYS_ADDR_MAX
    omega
  cases hst with
  | add hb hs hP he =>
    obtain ⟨h1, h2, h3, -⟩ := add_guarded h.guarded h.table_le hP he
    exact ⟨h1, h2, fun b hb => (h.placed b hb).mono h3⟩
  | physAlloc hs ha he =>
    obtain ⟨k, hk, rfl⟩ := ha
    obtain ⟨h1, h2, h3⟩ := findAndReserve_guarded h.guarded hs.1 hk (Nat.zero_le _) (Nat.zero_le _) he
    exact allocated_inv h h1 h2 h3
  | @allocTryNid s s' live n size align minAddr maxAddr a hs ha hmin hmax he =>
    obtain ⟨k, hk, rfl⟩ := ha
    have hhi : min maxAddr s.currentLimit ≤ PHYS_ADDR_MAX :=
      (min_le_right _ _).trans h.guarded.wf.limit
    rcases allocInternal_cases he with hr | ⟨t, hfirst, hr⟩
    · obtain ⟨h1, h2, h3⟩ := findAndReserve_guarded h.guarded hs.1 hk (hword _ hmin) hhi hr
      exact allocated_inv h h1 h2 h3
    · obtain ⟨h1, h2, -⟩ := findAndReserve_guarded h.guarded hs.1 hk (hword _ hmin) hhi hfirst
      obtain ⟨h4, h5, h6⟩ := findAndReserve_guarded h2 hs.1 hk (Nat.zero_le _) hhi hr
      refine allocated_inv h (h1.trans h4) h5 fun hne => ⟨?_, (h6 hne).2⟩
      obtain ⟨p1, p2, p3, p4, p5⟩ := (h6 hne).1
      have heff : effectiveEnd t (min maxAddr s.currentLimit) =
          effectiveEnd s (min maxAddr s.currentLimit) := by
        unfold effectiveEnd
        rw [h1.limit]
      dsimp only at p3 p4
      rw [heff] at p3 p4
      rw [h1.memory] at p5
      exact ⟨p1, p2, p3, p4, p5⟩
  | @free s s' live n b ret hb he =>
    have hp := h.placed b hb
    have hperm : (tableBlock s.memory :: live.map Block.set).Perm
        (b.set :: tableBlock s.memory :: (live.erase b).map Block.set) := by
      refine List.Perm.trans (List.Perm.cons _ ?_) (List.Perm.swap _ _ _)
      exact (List.perm_cons_erase hb).map Block.set
    obtain ⟨h1, h2, h3⟩ := free_guarded (h.guarded.perm hperm) (hp.below.trans hp.limit_le) he
    have hmem := h3.memory
    have hsub : covered s.memory.regions ⊆ covered s'.memory.regions := by rw [hmem]
    have hle : TableLe s'.memory := by
      rw [hmem]
      exact h.table_le
    by_cases hret : ret = 0
    · rw [if_pos hret]
      refine ⟨?_, hle, fun x hx => (h.placed x (List.mem_of_mem_erase hx)).mono hsub⟩
      dsimp only
      rw [hmem]
      exact h2
    · rw [if_neg hret]
      refine ⟨?_, hle, fun x hx => (h.placed x hx).mono hsub⟩
      dsimp only
      rw [hmem]
      exact (h1 hret).perm hperm.symm

/-- A call of a run: `memblock_add`, or `memblock_alloc_try_nid` with an alignment of 16. -/
inductive Op
  | add (base size : ℕ)
  | alloc (size minAddr maxAddr : ℕ)

def Op.Valid : Op → Prop
  | .add base size => base < 2 ^ 32 ∧ size < 2 ^ 32
  | .alloc size minAddr maxAddr => (0 < size ∧ size < 2 ^ 32) ∧ minAddr < 2 ^ 32 ∧ maxAddr < 2 ^ 32

instance : DecidablePred Op.Valid
  | .add base size => inferInstanceAs (Decidable (base < 2 ^ 32 ∧ size < 2 ^ 32))
  | .alloc size minAddr maxAddr => inferInstanceAs
    (Decidable ((0 < size ∧ size < 2 ^ 32) ∧ minAddr < 2 ^ 32 ∧ maxAddr < 2 ^ 32))

def exec (c : Config) (n : ℕ) (t : System) : Op → Option System
  | .add base size => (memblockAdd c n t.st base size).map fun r => ⟨r.1, t.live⟩
  | .alloc size minAddr maxAddr => (allocInternal c n t.st size 16 minAddr maxAddr).map fun r =>
    ⟨r.1, allocated t.live r.2 size 16 (effectiveEnd t.st (min maxAddr t.st.currentLimit))⟩

def execAll (c : Config) (n : ℕ) : List Op → System → Option System
  | [], t => some t
  | op :: ops, t => (exec c n t op).bind (execAll c n ops)

theorem exec_step {t t' : System} {op : Op} (hv : op.Valid) (he : exec c n t op = some t') :
    Step c (fun _ _ _ _ => True) t t' := by
  cases op with
  | add base size =>
    obtain ⟨⟨s', ret⟩, hr, rfl⟩ := Option.map_eq_some_iff.mp he
    exact Step.add hv.1 hv.2 trivial hr
  | alloc size minAddr maxAddr =>
    obtain ⟨⟨s', x⟩, hr, rfl⟩ := Option.map_eq_some_iff.mp he
    exact Step.allocTryNid hv.1 ⟨4, by decide, by decide⟩ hv.2.1 hv.2.2 hr

theorem execAll_run : ∀ (ops : List Op) (t : System) {t' : System}, (∀ op ∈ ops, op.Valid) →
    execAll c n ops t = some t' → Relation.ReflTransGen (Step c fun _ _ _ _ => True) t t'
  | [], t, t', _, he => by
    cases he
    exact .refl
  | op :: ops, t, t', hv, he => by
    obtain ⟨t₁, h1, h2⟩ := Option.bind_eq_some_iff.mp he
    have hstep := exec_step (hv op List.mem_cons_self) h1
    exact .head hstep (execAll_run ops t₁ (fun x hx => hv x (List.mem_cons_of_mem _ hx)) h2)

end HardStack.Memblock.Alloc
