import HardStack.Memblock.Range

/-! # Runs of the memblock allocator

The calls of the interface, one after another, from the static `memblock`. Both types keep the
representation invariant `Rep`: the regions are sorted, no two of them touch, and the sizes add up.
A single call of `memblock_add_range` or `memblock_remove_range` changes the covered sets as it
should from any state with this invariant. -/

namespace HardStack.Memblock.Run

open HardStack.Memblock.Model HardStack.Memblock.Regions HardStack.Memblock.Table
open HardStack.Memblock.Range

/-- **The representation invariant** of a `memblock_type`, in terms of its array. -/
structure Rep (type : MemblockType) : Prop where
  cnt_pos : 1 ≤ type.cnt
  cnt_le : type.cnt ≤ type.max
  sizes : (type.cnt = 1 ∧ (type.region 0).size = 0 ∧ type.totalSize = 0) ∨
    ∀ i < type.cnt, 0 < (type.region i).size
  fin_le : ∀ i < type.cnt, (type.region i).base + (type.region i).size ≤ PHYS_ADDR_MAX
  increasing : ∀ i, i + 1 < type.cnt →
    (type.region i).base + (type.region i).size < (type.region (i + 1)).base
  sum : type.totalSize = (type.regions.map Region.size).sum

variable {type : MemblockType}

theorem region_eq {i : ℕ} (hi : i < type.regions.length) : type.region i = type.regions[i] := by
  unfold MemblockType.region
  rw [List.getD_eq_getElem?_getD, List.getElem?_eq_getElem hi]
  rfl

theorem mem_regions {r : Region} : r ∈ type.regions ↔ ∃ i < type.cnt, type.region i = r := by
  constructor
  · intro h
    obtain ⟨i, hi, rfl⟩ := List.getElem_of_mem h
    exact ⟨i, hi, region_eq hi⟩
  · rintro ⟨i, hi, rfl⟩
    rw [region_eq hi]
    exact List.getElem_mem hi

/-- Where the array is increasing, any two of its regions are apart. -/
theorem Rep.apart (h : Rep type) : Apart 1 type.regions := by
  have hlt : ∀ i j, i < j → j < type.cnt → (type.region i).fin < (type.region j).base := by
    intro i j hij
    induction j, hij using Nat.le_induction with
    | base => exact fun hj => h.increasing i hj
    | succ j hij ih =>
      intro hj
      have h1 := ih (by omega)
      have h2 := h.increasing j hj
      omega
  refine List.pairwise_iff_getElem.mpr fun i j hi hj hij => ?_
  rw [← region_eq hi, ← region_eq hj]
  exact hlt i j hij hj

theorem Rep.wf (h : Rep type) : Wf 0 type := by
  refine ⟨?_, h.cnt_le, Apart.mono h.apart (Nat.zero_le 1), ?_, h.sum, ?_, fun hg => absurd hg
    (lt_irrefl 0)⟩
  · exact List.length_pos_iff.mp h.cnt_pos
  · intro r hr
    obtain ⟨i, hi, rfl⟩ := mem_regions.mp hr
    exact h.fin_le i hi
  · rcases h.sizes with ⟨hone, hz, -⟩ | hpos
    · right
      obtain ⟨r, hr⟩ := List.length_eq_one_iff.mp hone
      refine ⟨r, hr, ?_⟩
      unfold MemblockType.region at hz
      rw [hr] at hz
      exact hz
    · left
      intro r hr
      obtain ⟨i, hi, rfl⟩ := mem_regions.mp hr
      exact hpos i hi

theorem rep_of_wf (h : Wf 1 type) : Rep type := by
  refine ⟨List.length_pos_iff.mpr h.cnt_pos, h.cnt_le, ?_, ?_, ?_, h.sum⟩
  · rcases h.sizes with hpos | ⟨r, hr, hz⟩
    · exact Or.inr fun i hi => hpos _ (mem_regions.mpr ⟨i, hi, rfl⟩)
    · left
      have hsum := h.sum
      unfold MemblockType.cnt MemblockType.region
      rw [hr] at hsum ⊢
      exact ⟨rfl, hz, by rw [hsum, total_cons, hz]; rfl⟩
  · exact fun i hi => h.fin_le _ (mem_regions.mpr ⟨i, hi, rfl⟩)
  · intro i hi
    have hlt : i + 1 < type.regions.length := hi
    have hp := List.pairwise_iff_getElem.mp h.apart i (i + 1) (Nat.lt_of_succ_lt hlt) hlt
      (Nat.lt_succ_self i)
    rw [← region_eq, ← region_eq] at hp
    exact hp

/-! ### The covered sets -/

/-- What a call leaves of a type: the range has been added to it, or taken from it, if the call
returned 0; nothing else but the blocks of arrays has changed. -/
def SetEffect (op : Set ℕ → Set ℕ) (s s' : State) (kind : Kind) (ret : ℤ) : Prop :=
  (ret = 0 ∨ ret = -ENOMEM) ∧ ∃ evs, s'.log = s.log ++ evs ∧
    (ret = 0 → covered (s'.type kind).regions = op (movedSet evs s kind)) ∧
    (ret ≠ 0 → covered (s'.type kind).regions = movedSet evs s kind) ∧
    ∀ k ≠ kind, covered (s'.type k).regions = movedSet evs s k

theorem setEffect_of_applied {op : Set ℕ → Set ℕ} {s s' : State} {kind : Kind} {ret : ℤ}
    (h : Applied op s s' kind ret) : SetEffect op s s' kind ret := by
  by_cases hret : ret = 0
  · obtain ⟨evs, hlog, hcov, hother⟩ := h.done hret
    exact ⟨Or.inl hret, evs, hlog, fun _ => hcov, fun hr => absurd hret hr, hother⟩
  · obtain ⟨hno, evs, hm⟩ := h.failed hret
    exact ⟨Or.inr hno, evs, hm.log, fun hr => absurd hr hret, fun _ => hm.covers kind,
      fun k _ => hm.covers k⟩

/-- **Set semantics.** From any state with the representation invariant, `memblock_add_range` adds
`[base, base + min(size, PHYS_ADDR_MAX - base))` to its type and `memblock_remove_range` takes it
away; where they return `-ENOMEM` the type stays as it is. All else that changes is in the log of the
blocks that `memblock_double_array` has reserved and freed. -/
theorem addRange_removeRange_covered (c : Config) {s : State} (hmem : Rep s.memory)
    (hres : Rep s.reserved) (hlimit : s.currentLimit ≤ PHYS_ADDR_MAX) (kind : Kind)
    (base size flags : ℕ) {n m : ℕ} {s' : State} {ret : ℤ} :
    (addRange (doubleArray c n) m s kind base size flags = some (s', ret) →
      SetEffect (· ∪ Set.Ico base (base + min size (PHYS_ADDR_MAX - base))) s s' kind ret) ∧
    (removeRange (doubleArray c n) m s kind base size = some (s', ret) →
      SetEffect (· \ Set.Ico base (base + min size (PHYS_ADDR_MAX - base))) s s' kind ret) := by
  have hwf : StWf 0 s := ⟨fun k => by cases k; exacts [hmem.wf, hres.wf], hlimit⟩
  have hd := doubleArray_spec (Nat.zero_le 1) (c := c) n
  constructor
  · intro he
    exact setEffect_of_applied (addRange_spec (Nat.zero_le 1) hd hwf
      (fun hg => absurd hg (lt_irrefl 0)) he).2
  · intro he
    exact setEffect_of_applied (removeRange_spec (Nat.zero_le 1) hd hwf he).2

/-- One page of memory and no reservations. -/
def onePage : State := { init with
  memory := ⟨[⟨0x2000, 0x1000, 0⟩], INIT_MEMBLOCK_REGIONS, 0x1000, none⟩ }

theorem addRange_removeRange_covered_onePage :
    SetEffect (· ∪ Set.Ico 0x1800 (0x1800 + min 0x1000 (PHYS_ADDR_MAX - 0x1800))) onePage
      { onePage with memory := ⟨[⟨0x1800, 0x1800, 0⟩], INIT_MEMBLOCK_REGIONS, 0x1800, none⟩ }
      .memory 0 := by
  have hmem : Rep onePage.memory := rep_of_wf ⟨by decide, by decide, List.pairwise_singleton _ _,
    by decide, by decide, Or.inl (by decide), fun _ => by decide⟩
  have hres : Rep onePage.reserved := rep_of_wf ⟨by decide, by decide, List.pairwise_singleton _ _,
    by decide, by decide, Or.inr ⟨_, rfl, rfl⟩, fun _ => by decide⟩
  exact (addRange_removeRange_covered ⟨0, 0⟩ (n := 0) (m := 0) hmem hres (by decide) .memory 0x1800
    0x1000 0).1 (by decide +kernel)

/-! ### Runs -/

/-- The calls of the interface. -/
inductive Call
  | add (base size : ℕ)
  | reserve (base size : ℕ)
  | free (base size : ℕ)
  | physAlloc (size align : ℕ)
  | allocTryNid (size align minAddr maxAddr : ℕ)
  deriving DecidableEq

/-- The alignment is a power of two of a `phys_addr_t`. -/
def Aligned (align : ℕ) : Prop := ∃ k < 32, align = 2 ^ k

/-- The arguments are of type `phys_addr_t`, and an alignment is a power of two. -/
def Call.Valid : Call → Prop
  | .add base size => base < 2 ^ 32 ∧ size < 2 ^ 32
  | .reserve base size => base < 2 ^ 32 ∧ size < 2 ^ 32
  | .free base size => base < 2 ^ 32 ∧ size < 2 ^ 32
  | .physAlloc size align => size < 2 ^ 32 ∧ Aligned align
  | .allocTryNid size align minAddr maxAddr =>
    size < 2 ^ 32 ∧ Aligned align ∧ minAddr < 2 ^ 32 ∧ maxAddr < 2 ^ 32

/-- The state a call leaves, with at most `n` nested calls and rounds of `memblock_double_array`. -/
def perform (c : Config) (n : ℕ) (s : State) : Call → Option State
  | .add base size => (memblockAdd c n s base size).map Prod.fst
  | .reserve base size => (memblockReserve c n s base size).map Prod.fst
  | .free base size => (memblockFree c n s base size).map Prod.fst
  | .physAlloc size align => (memblockPhysAlloc c n s size align).map Prod.fst
  | .allocTryNid size align minAddr maxAddr =>
    (memblockAllocTryNid c n s size align minAddr maxAddr).map Prod.fst

/-- A call that returns. -/
def Step (c : Config) (s s' : State) : Prop :=
  ∃ n call, call.Valid ∧ perform c n s call = some s'

section

variable {c : Config} {n : ℕ} {s s' : State}

theorem memblockReserve_wf {base size : ℕ} {ret : ℤ} (h : StWf 1 s)
    (he : memblockReserve c n s base size = some (s', ret)) : StWf 1 s' :=
  (addRange_spec le_rfl (doubleArray_spec le_rfl n) h (fun _ => rfl) he).1

theorem findAndReserve_wf {size align start fin a : ℕ} (h : StWf 1 s)
    (he : findAndReserve c n s size align start fin = some (s', a)) : StWf 1 s' := by
  unfold findAndReserve at he
  dsimp only at he
  split_ifs at he with hf
  · cases he
    exact h
  · obtain ⟨⟨t, ret⟩, hres, he⟩ := Option.map_eq_some_iff.mp he
    cases he
    exact memblockReserve_wf h hres

/-- The second try has no lower bound. -/
theorem allocInternal_cases {size align minAddr maxAddr a : ℕ}
    (he : allocInternal c n s size align minAddr maxAddr = some (s', a)) :
    findAndReserve c n s size align minAddr (min maxAddr s.currentLimit) = some (s', a) ∨
      ∃ t, findAndReserve c n s size align minAddr (min maxAddr s.currentLimit) = some (t, 0) ∧
        findAndReserve c n t size align 0 (min maxAddr s.currentLimit) = some (s', a) := by
  unfold allocInternal at he
  dsimp only at he
  have hmin : (if maxAddr > s.currentLimit then s.currentLimit else maxAddr) =
      min maxAddr s.currentLimit := by
    split_ifs <;> omega
  rw [hmin] at he
  split at he
  · cases he
  rename_i t alloc hfirst
  by_cases halloc : alloc = 0
  · subst halloc
    rw [if_neg (not_not.mpr rfl)] at he
    by_cases hlow : minAddr = 0
    · rw [if_neg (not_not.mpr hlow)] at he
      cases he
      exact Or.inl hfirst
    · rw [if_pos hlow] at he
      exact Or.inr ⟨t, hfirst, he⟩
  · rw [if_pos halloc] at he
    cases he
    exact Or.inl hfirst

theorem allocInternal_wf {size align minAddr maxAddr a : ℕ} (h : StWf 1 s)
    (he : allocInternal c n s size align minAddr maxAddr = some (s', a)) : StWf 1 s' := by
  rcases allocInternal_cases he with hr | ⟨t, hfirst, hr⟩
  · exact findAndReserve_wf h hr
  · exact findAndReserve_wf (findAndReserve_wf h hfirst) hr

/-- **Every call** keeps the representation of both types. -/
theorem step_wf (h : StWf 1 s) (hst : Step c s s') : StWf 1 s' := by
  obtain ⟨n, call, -, he⟩ := hst
  cases call with
  | add base size =>
    obtain ⟨⟨t, ret⟩, hr, rfl⟩ := Option.map_eq_some_iff.mp he
    exact (addRange_spec le_rfl (doubleArray_spec le_rfl n) h (fun _ => rfl) hr).1
  | reserve base size =>
    obtain ⟨⟨t, ret⟩, hr, rfl⟩ := Option.map_eq_some_iff.mp he
    exact memblockReserve_wf h hr
  | free base size =>
    obtain ⟨⟨t, ret⟩, hr, rfl⟩ := Option.map_eq_some_iff.mp he
    exact (removeRange_spec le_rfl (doubleArray_spec le_rfl n) h hr).1
  | physAlloc size align =>
    obtain ⟨⟨t, a⟩, hr, rfl⟩ := Option.map_eq_some_iff.mp he
    exact findAndReserve_wf h hr
  | allocTryNid size align minAddr maxAddr =>
    obtain ⟨⟨t, a⟩, hr, rfl⟩ := Option.map_eq_some_iff.mp he
    obtain ⟨⟨t', a'⟩, hr', heq⟩ := Option.map_eq_some_iff.mp hr
    cases heq
    exact allocInternal_wf h hr'

theorem initType_wf : Wf 1 initType :=
  ⟨by decide, by decide, List.pairwise_singleton _ _, by decide, by decide, Or.inr ⟨_, rfl, rfl⟩,
    fun _ => by decide⟩

theorem init_wf : StWf 1 init :=
  ⟨fun k => by cases k; exacts [initType_wf, initType_wf], le_rfl⟩

/-- **The representation invariant holds in every run.** -/
theorem reachable_rep (hrun : Relation.ReflTransGen (Step c) init s) :
    Rep s.memory ∧ Rep s.reserved := by
  have h : StWf 1 s := Lib.Run.invariant init_wf (fun _ _ ha hst => step_wf ha hst) hrun
  exact ⟨rep_of_wf (h.types .memory), rep_of_wf (h.types .reserved)⟩

end

/-- One page of memory and a block of 256 bytes in it. -/
def oneBlock : State := { onePage with
  reserved := ⟨[⟨0x2f00, 0x100, 0⟩], INIT_MEMBLOCK_REGIONS, 0x100, none⟩ }

theorem reachable_rep_oneBlock : Rep oneBlock.memory ∧ Rep oneBlock.reserved := by
  have hadd : Step ⟨0, 0⟩ init onePage :=
    ⟨0, .add 0x2000 0x1000, ⟨by decide, by decide⟩, by decide +kernel⟩
  have halloc : Step ⟨0, 0⟩ onePage oneBlock :=
    ⟨0, .physAlloc 0x100 16, ⟨by decide, 4, by decide, by decide⟩, by decide +kernel⟩
  exact reachable_rep (c := ⟨0, 0⟩) (.tail (.single hadd) halloc)

end HardStack.Memblock.Run
