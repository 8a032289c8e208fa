import HardStack.Memblock.Find

/-! # Adding and removing ranges

Every call changes the covered sets by its own range and by what `memblock_double_array` does to the
reserved regions on the way: it reserves a block for the new array and frees the block of the old one.
Both are logged, so that the effect of a call is `applyEvents` of the log it adds, and then the union
or the difference. The calls nest; what `memblock_double_array` does with one nested call less is the
hypothesis `DoubleSpec` of the specifications below, and `doubleArray_spec` is the induction. -/

namespace HardStack.Memblock.Range

open HardStack.Memblock.Model HardStack.Memblock.Regions HardStack.Memblock.Table
open HardStack.Memblock.Find

/-- The addresses that `memblock_cap_size` leaves of `[base, base + size)`. -/
def range (base size : ℕ) : Set ℕ := Set.Ico base (base + capSize base size)

/-- What an event does to the reserved addresses. -/
def applyEvent (R : Set ℕ) : TableEvent → Set ℕ
  | .reserve base size => R ∪ range base size
  | .free base size => R \ range base size

def applyEvents (evs : List TableEvent) (R : Set ℕ) : Set ℕ := evs.foldl applyEvent R

theorem applyEvents_append (evs evs' : List TableEvent) (R : Set ℕ) :
    applyEvents (evs ++ evs') R = applyEvents evs' (applyEvents evs R) := List.foldl_append ..

/-- The addresses of a type, moved by the events. -/
def movedSet (evs : List TableEvent) (s : State) : Kind → Set ℕ
  | .memory => covered s.memory.regions
  | .reserved => applyEvents evs (covered s.reserved.regions)

/-- Both types satisfy the representation invariant, and the limit is an address. -/
structure StWf (g : ℕ) (s : State) : Prop where
  types : ∀ k, Wf g (s.type k)
  limit : s.currentLimit ≤ PHYS_ADDR_MAX

/-- A change that is nothing but the events. -/
structure Moved (s s' : State) (evs : List TableEvent) : Prop where
  log : s'.log = s.log ++ evs
  covers : ∀ k, covered (s'.type k).regions = movedSet evs s k

variable {g : ℕ} {s s' : State} {kind : Kind} {base size flags : ℕ}

@[simp] theorem type_setType (s : State) (kind : Kind) (t : MemblockType) :
    (s.setType kind t).type kind = t := by cases kind <;> rfl

theorem type_setType_ne {k kind : Kind} (s : State) (t : MemblockType) (h : k ≠ kind) :
    (s.setType kind t).type k = s.type k := by
  cases kind
  · cases k
    · exact absurd rfl h
    · rfl
  · cases k
    · rfl
    · exact absurd rfl h

@[simp] theorem log_setType (s : State) (kind : Kind) (t : MemblockType) :
    (s.setType kind t).log = s.log := by cases kind <;> rfl

@[simp] theorem limit_setType (s : State) (kind : Kind) (t : MemblockType) :
    (s.setType kind t).currentLimit = s.currentLimit := by cases kind <;> rfl

theorem StWf.setType {t : MemblockType} (h : StWf g s) (ht : Wf g t) : StWf g (s.setType kind t) := by
  refine ⟨fun k => ?_, by rw [limit_setType]; exact h.limit⟩
  by_cases hk : k = kind
  · subst hk
    rw [type_setType]
    exact ht
  · rw [type_setType_ne s t hk]
    exact h.types k

theorem movedSet_nil (s : State) (k : Kind) : movedSet [] s k = covered (s.type k).regions := by
  cases k <;> rfl

theorem Moved.refl (s : State) : Moved s s [] :=
  ⟨(List.append_nil _).symm, fun k => (movedSet_nil s k).symm⟩

theorem Moved.movedSet_trans {evs evs' : List TableEvent} (h : Moved s s' evs) (k : Kind) :
    movedSet evs' s' k = movedSet (evs ++ evs') s k := by
  have hk := h.covers k
  cases k with
  | memory => exact hk
  | reserved =>
    show applyEvents evs' (covered s'.reserved.regions) = _
    rw [show covered s'.reserved.regions = applyEvents evs (covered s.reserved.regions) from hk,
      ← applyEvents_append]
    rfl

theorem Moved.trans {s'' : State} {evs evs' : List TableEvent} (h1 : Moved s s' evs)
    (h2 : Moved s' s'' evs') : Moved s s'' (evs ++ evs') := by
  refine ⟨?_, fun k => ?_⟩
  · rw [h2.log, h1.log, List.append_assoc]
  · rw [h2.covers, h1.movedSet_trans]

/-! ### The specifications -/

/-- What is assumed of the nested calls. -/
def DoubleSpec (g : ℕ) (double : State → Kind → ℕ → ℕ → Option (State × Bool)) : Prop :=
  ∀ s kind a n s' ok, StWf g s → double s kind a n = some (s', ok) →
    StWf g s' ∧ (∃ evs, Moved s s' evs) ∧
      ∀ k, (covered (s.type k).regions).Nonempty → (covered (s'.type k).regions).Nonempty

/-- A call that adds the range to, or takes it from, one type. -/
structure Applied (op : Set ℕ → Set ℕ) (s s' : State) (kind : Kind) (ret : ℤ) : Prop where
  done : ret = 0 → ∃ evs, s'.log = s.log ++ evs ∧
    covered (s'.type kind).regions = op (movedSet evs s kind) ∧
    ∀ k ≠ kind, covered (s'.type k).regions = movedSet evs s k
  failed : ret ≠ 0 → ret = -ENOMEM ∧ ∃ evs, Moved s s' evs

section

variable {double : State → Kind → ℕ → ℕ → Option (State × Bool)} {n : ℕ} {ret : ℤ}

theorem growArray_spec (hd : DoubleSpec g double) {extra : ℕ} : ∀ (n : ℕ) (s : State) {s' : State}
    {ok : Bool}, StWf g s → growArray double kind extra base size n s = some (s', ok) →
    StWf g s' ∧ (∃ evs, Moved s s' evs) ∧
      ∀ k, (covered (s.type k).regions).Nonempty → (covered (s'.type k).regions).Nonempty
  | n, s, s', ok, h, he => by
    unfold growArray at he
    by_cases hroom : (s.type kind).cnt + extra ≤ (s.type kind).max
    · rw [if_pos hroom] at he
      cases he
      exact ⟨h, ⟨[], Moved.refl s⟩, fun _ hk => hk⟩
    · rw [if_neg hroom] at he
      cases n with
      | zero => cases he
      | succ n =>
        dsimp only at he
        cases hdo : double s kind base size with
        | none =>
          rw [hdo] at he
          cases he
        | some r =>
          obtain ⟨s₁, ok₁⟩ := r
          rw [hdo] at he
          obtain ⟨h₁, ⟨evs₁, hm₁⟩, hne₁⟩ := hd s kind base size s₁ ok₁ h hdo
          cases ok₁ with
          | false =>
            cases he
            exact ⟨h₁, ⟨evs₁, hm₁⟩, hne₁⟩
          | true =>
            obtain ⟨h₂, ⟨evs₂, hm₂⟩, hne₂⟩ := growArray_spec hd n s₁ h₁ he
            exact ⟨h₂, ⟨evs₁ ++ evs₂, hm₁.trans hm₂⟩, fun k hk => hne₂ k (hne₁ k hk)⟩

theorem capSize_fin {base size : ℕ} (h : capSize base size ≠ 0) :
    base < base + capSize base size ∧ base + capSize base size ≤ PHYS_ADDR_MAX := by
  unfold capSize at *
  omega

/-- The range of an empty type, in place of the dummy region. -/
theorem first_wf {t : MemblockType} (h : Wf g t) (hsize : capSize base size ≠ 0)
    (hf : 0 < g → flags = 0) :
    Wf g { t with regions := [⟨base, capSize base size, flags⟩], totalSize := capSize base size } := by
  have hone : 1 ≤ t.max := (List.length_pos_iff.mpr h.cnt_pos).trans_le h.cnt_le
  refine ⟨by simp, hone, List.pairwise_singleton _ _, ?_, ?_, Or.inl ?_, ?_⟩
  · intro x hx
    rw [List.mem_singleton.mp hx]
    exact (capSize_fin hsize).2
  · simp
  · intro x hx
    rw [List.mem_singleton.mp hx]
    exact Nat.pos_of_ne_zero hsize
  · intro hg x hx
    rw [List.mem_singleton.mp hx]
    exact hf hg

/-- The first region is empty only if it is the dummy, and then nothing is covered. -/
theorem dummy_of_first {t : MemblockType} (h : Wf g t) (hz : (t.region 0).size = 0) :
    (∃ r, t.regions = [r]) ∧ covered t.regions = ∅ := by
  rcases h.sizes with hpos | ⟨r, hr, hrz⟩
  · cases hL : t.regions with
    | nil => exact absurd hL h.cnt_pos
    | cons a L =>
      have hreg : t.region 0 = a := by
        unfold MemblockType.region
        rw [hL]
        rfl
      have := hpos a (by rw [hL]; exact List.mem_cons_self)
      rw [hreg] at hz
      omega
  · refine ⟨⟨r, hr⟩, ?_⟩
    rw [hr]
    ext x
    simp only [mem_covered, List.mem_singleton, exists_eq_left, Set.mem_empty_iff_false, iff_false]
    unfold Region.fin
    omega

theorem pos_of_nonempty {t : MemblockType} (h : Wf g t) (hne : (covered t.regions).Nonempty) :
    ∀ r ∈ t.regions, 0 < r.size := by
  rcases h.sizes with hpos | ⟨r, hr, hrz⟩
  · exact hpos
  · obtain ⟨x, y, hy, hx⟩ := hne
    rw [hr, List.mem_singleton] at hy
    subst hy
    unfold Region.fin at hx
    omega

theorem nonempty_of_first {t : MemblockType} (h : Wf g t) (hz : (t.region 0).size ≠ 0) :
    (covered t.regions).Nonempty := by
  cases hL : t.regions with
  | nil => exact absurd hL h.cnt_pos
  | cons a L =>
    have hreg : t.region 0 = a := by
      unfold MemblockType.region
      rw [hL]
      rfl
    rw [hreg] at hz
    exact ⟨a.base, a, List.mem_cons_self, le_rfl, by unfold Region.fin; omega⟩

theorem range_empty (h : capSize base size = 0) : range base size = ∅ := by
  unfold range
  rw [h, Nat.add_zero, Set.Ico_self]

/-- A change of one type after the array has grown. -/
theorem applied_setType {op : Set ℕ → Set ℕ} {s₁ : State} {evs : List TableEvent}
    {t : MemblockType} (hm : Moved s s₁ evs)
    (ht : covered t.regions = op (covered (s₁.type kind).regions)) :
    Applied op s (s₁.setType kind t) kind 0 := by
  refine ⟨fun _ => ⟨evs, ?_, ?_, fun k hk => ?_⟩, fun hr => absurd rfl hr⟩
  · rw [log_setType, hm.log]
  · rw [type_setType, ht, hm.covers]
  · rw [type_setType_ne _ _ hk, hm.covers]

/-- An edit of the array of one type. -/
structure Edited (g : ℕ) (op : Set ℕ → Set ℕ) (t t' : MemblockType) : Prop where
  wf : Wf g t'
  covers : covered t'.regions = op (covered t.regions)
  max : t'.max = t.max
  array : t'.array = t.array

/-- What a call comes to: the array has to grow by `extra` regions, and if it can, it is edited. -/
def Outcome (double : State → Kind → ℕ → ℕ → Option (State × Bool))
    (edit : MemblockType → MemblockType → Prop) (kind : Kind) (extra base size n : ℕ) (s s' : State)
    (ret : ℤ) : Prop :=
  (growArray double kind extra base size n s = some (s', false) ∧ ret = -ENOMEM) ∨
    ∃ s₁ t, growArray double kind extra base size n s = some (s₁, true) ∧ edit (s₁.type kind) t ∧
      s' = s₁.setType kind t ∧ ret = 0

theorem setType_self (s : State) (kind : Kind) : s.setType kind (s.type kind) = s := by
  cases kind <;> rfl

/-- Where there is room, nothing grows. -/
theorem growArray_room {extra : ℕ} (h : (s.type kind).cnt + extra ≤ (s.type kind).max) :
    growArray double kind extra base size n s = some (s, true) := by
  unfold growArray
  rw [if_pos h]

theorem Edited.refl {t : MemblockType} {op : Set ℕ → Set ℕ} (h : Wf g t)
    (hop : covered t.regions = op (covered t.regions)) : Edited g op t t := ⟨h, hop, rfl, rfl⟩

theorem outcome_unchanged {edit : MemblockType → MemblockType → Prop} (h : Wf g (s.type kind))
    (ht : edit (s.type kind) (s.type kind)) : Outcome double edit kind 0 base size n s s 0 :=
  Or.inr ⟨s, _, growArray_room h.cnt_le, ht, (setType_self s kind).symm, rfl⟩

/-- The inserting pass and the merging after it. -/
theorem insert_edited (hg : g ≤ 1) {t t' : MemblockType} {nr : ℕ} (h : Wf g t)
    (hpos : ∀ r ∈ t.regions, 0 < r.size) (hle : base + capSize base size ≤ PHYS_ADDR_MAX)
    (hf : 0 < g → flags = 0)
    (hins : addPass true t base (base + capSize base size) flags = some (t', nr)) :
    (nr = 0 → Edited g (· ∪ range base size) t t') ∧
      ∃ t'', mergeRegions t' = some t'' ∧ Edited g (· ∪ range base size) t t'' := by
  obtain ⟨hp, hlen⟩ := addPass_insert hins
  refine ⟨fun hnr => ?_, ?_⟩
  · -- the new array itself has covered the range
    have hfill := fill_eq_self (L := t.regions) (by rw [hlen, hnr]; rfl)
    have hreg : t'.regions = t.regions := hp.regions.trans hfill
    have hsum := hp.sum
    rw [hfill] at hsum
    refine ⟨⟨hreg ▸ h.cnt_pos, hp.cnt_le h.cnt_le, hreg ▸ h.apart, hreg ▸ h.fin_le,
      by rw [hreg]; have := h.sum; omega, hreg ▸ h.sizes, hreg ▸ h.flags⟩, ?_, hp.max, hp.array⟩
    rw [hreg]
    exact covered_of_fill hfill
  · obtain ⟨M, hmerge, hwf, hcov⟩ := insert_merge_wf hg h hpos hle hf hins
    exact ⟨_, hmerge, hwf, hcov, hp.max, hp.array⟩

/-- All that `memblock_add_range` does. -/
theorem addRange_outcome (hg : g ≤ 1) (hd : DoubleSpec g double) (h : StWf g s)
    (hf : 0 < g → flags = 0) (he : addRange double n s kind base size flags = some (s', ret)) :
    ∃ nr, (nr = 0 ∨ (∀ r ∈ (s.type kind).regions, 0 < r.size) ∧
        (fill (base + capSize base size) flags base (s.type kind).regions).length =
          (s.type kind).cnt + nr) ∧
      Outcome double (Edited g (· ∪ range base size)) kind nr base (capSize base size) n s s' ret := by
  unfold addRange at he
  dsimp only at he
  by_cases hsize : capSize base size = 0
  · rw [if_pos hsize] at he
    cases he
    refine ⟨0, Or.inl rfl, outcome_unchanged (h.types kind) (Edited.refl (h.types kind) ?_)⟩
    rw [range_empty hsize, Set.union_empty]
  rw [if_neg hsize] at he
  obtain ⟨hlt, hle⟩ := capSize_fin hsize
  by_cases hfirst : ((s.type kind).region 0).size = 0
  · -- the first region takes the place of the dummy
    rw [if_pos hfirst] at he
    cases he
    obtain ⟨⟨r, hr⟩, hempty⟩ := dummy_of_first (h.types kind) hfirst
    rw [hr, List.tail_cons]
    refine ⟨0, Or.inl rfl, Or.inr ⟨s, _, growArray_room (h.types kind).cnt_le,
      ⟨first_wf (h.types kind) hsize hf, ?_, rfl, rfl⟩, rfl, rfl⟩⟩
    rw [hempty, Set.empty_union, covered_cons, covered_nil, Set.union_empty]
    rfl
  rw [if_neg hfirst] at he
  obtain ⟨nr, hcount, hlen⟩ := addPass_count (s.type kind) base (base + capSize base size) flags
  rw [hcount] at he
  dsimp only at he
  by_cases hnr : nr = 0
  · rw [if_pos hnr] at he
    cases he
    exact ⟨0, Or.inl rfl, outcome_unchanged (h.types kind)
      (Edited.refl (h.types kind) (covered_of_fill (fill_eq_self (by rw [hlen, hnr]; rfl))))⟩
  rw [if_neg hnr] at he
  have hne₀ := nonempty_of_first (h.types kind) hfirst
  refine ⟨nr, Or.inr ⟨pos_of_nonempty (h.types kind) hne₀, hlen⟩, ?_⟩
  cases hgrow : growArray double kind nr base (capSize base size) n s with
  | none =>
    rw [hgrow] at he
    cases he
  | some r =>
    obtain ⟨s₁, ok⟩ := r
    rw [hgrow] at he
    obtain ⟨h₁, -, hne⟩ := growArray_spec hd n s h hgrow
    cases ok with
    | false =>
      cases he
      exact Or.inl ⟨hgrow, rfl⟩
    | true =>
      dsimp only at he
      have hpos := pos_of_nonempty (h₁.types kind) (hne kind hne₀)
      cases hins : addPass true (s₁.type kind) base (base + capSize base size) flags with
      | none =>
        rw [hins] at he
        cases he
      | some r =>
        obtain ⟨t, nr'⟩ := r
        rw [hins] at he
        dsimp only at he
        obtain ⟨hsame, t', hmerge, hedit⟩ := insert_edited hg (h₁.types kind) hpos hle hf hins
        right
        by_cases hnr' : nr' = 0
        · rw [if_pos hnr'] at he
          cases he
          exact ⟨s₁, t, hgrow, hsame hnr', rfl, rfl⟩
        · rw [if_neg hnr', hmerge] at he
          cases he
          exact ⟨s₁, t', hgrow, hedit, rfl, rfl⟩

/-- All that `memblock_remove_range` does. -/
theorem removeRange_outcome (hg : g ≤ 1) (hd : DoubleSpec g double) (h : StWf g s)
    (he : removeRange double n s kind base size = some (s', ret)) :
    ∃ nr ≤ 2, Outcome double
      (fun t t' => Edited g (· \ range base size) t t' ∧ t'.cnt ≤ t.cnt + 2) kind nr base
      (capSize base size) n s s' ret := by
  unfold removeRange isolateRange at he
  dsimp only at he
  by_cases hsize : capSize base size = 0
  · rw [if_pos hsize] at he
    cases he
    rw [removeLoop, setType_self]
    refine ⟨0, Nat.zero_le 2, outcome_unchanged (h.types kind)
      ⟨Edited.refl (h.types kind) ?_, Nat.le_add_right _ _⟩⟩
    rw [range_empty hsize, Set.sdiff_empty]
  rw [if_neg hsize] at he
  obtain ⟨hlt, hle⟩ := capSize_fin hsize
  refine ⟨2, le_rfl, ?_⟩
  cases hgrow : growArray double kind 2 base (capSize base size) n s with
  | none =>
    rw [hgrow] at he
    cases he
  | some r =>
    obtain ⟨s₁, ok⟩ := r
    rw [hgrow] at he
    obtain ⟨h₁, -, -⟩ := growArray_spec hd n s h hgrow
    cases ok with
    | false =>
      dsimp only at he
      rw [if_pos (by decide)] at he
      cases he
      exact Or.inl ⟨hgrow, rfl⟩
    | true =>
      dsimp only at he
      cases hiso : isolateLoop base (base + capSize base size) (3 * (s₁.type kind).cnt + 1)
          (s₁.type kind) 0 0 0 with
      | none =>
        rw [hiso] at he
        cases he
      | some r =>
        obtain ⟨t, startRgn, endRgn⟩ := r
        rw [hiso] at he
        dsimp only [Option.map_some] at he
        rw [if_neg (by simp), type_setType] at he
        cases he
        obtain ⟨hwf, hcov, hmax, harr⟩ := remove_wf hg (h₁.types kind) hlt hiso
        have hset : (s₁.setType kind t).setType kind (removeLoop startRgn (endRgn - startRgn) t) =
            s₁.setType kind (removeLoop startRgn (endRgn - startRgn) t) := by cases kind <;> rfl
        exact Or.inr ⟨s₁, _, hgrow, ⟨⟨hwf, hcov, hmax, harr⟩, remove_cnt (h₁.types kind) hlt hiso⟩,
          hset, rfl⟩

/-- A call keeps the representation and changes the covered sets by its edit. -/
theorem Outcome.applied {op : Set ℕ → Set ℕ} {edit : MemblockType → MemblockType → Prop} {extra : ℕ}
    (hd : DoubleSpec g double) (h : StWf g s) (hedit : ∀ t t', edit t t' → Edited g op t t')
    (ho : Outcome double edit kind extra base size n s s' ret) :
    StWf g s' ∧ Applied op s s' kind ret := by
  rcases ho with ⟨hgrow, rfl⟩ | ⟨s₁, t, hgrow, ht, rfl, rfl⟩
  · obtain ⟨h₁, ⟨evs, hm⟩, -⟩ := growArray_spec hd n s h hgrow
    exact ⟨h₁, ⟨fun hr => absurd hr (by decide), fun _ => ⟨rfl, evs, hm⟩⟩⟩
  · obtain ⟨h₁, ⟨evs, hm⟩, -⟩ := growArray_spec hd n s h hgrow
    exact ⟨h₁.setType (hedit _ _ ht).wf, applied_setType hm (hedit _ _ ht).covers⟩

/-- **`memblock_add_range`** keeps the representation and adds the range. -/
theorem addRange_spec (hg : g ≤ 1) (hd : DoubleSpec g double) (h : StWf g s)
    (hf : 0 < g → flags = 0) (he : addRange double n s kind base size flags = some (s', ret)) :
    StWf g s' ∧ Applied (· ∪ range base size) s s' kind ret := by
  obtain ⟨nr, -, ho⟩ := addRange_outcome hg hd h hf he
  exact ho.applied hd h fun _ _ ht => ht

/-- **`memblock_remove_range`** keeps the representation and takes the range away. -/
theorem removeRange_spec (hg : g ≤ 1) (hd : DoubleSpec g double) (h : StWf g s)
    (he : removeRange double n s kind base size = some (s', ret)) :
    StWf g s' ∧ Applied (· \ range base size) s s' kind ret := by
  obtain ⟨nr, -, ho⟩ := removeRange_outcome hg hd h he
  exact ho.applied hd h fun _ _ ht => ht.1

end

/-! ### `memblock_double_array` -/

variable {c : Config}

/-- The size of a block for an array is never `0`, whatever `ALIGN` makes of it. -/
theorem newAlloc_pos (x : ℕ) : 0 < PAGE_ALIGN (x <<< 1 % 2 ^ 32) := by
  have hmask : ∀ y, y &&& (PAGE_SIZE - 1) = y % 2 ^ 12 := fun y => Nat.and_two_pow_sub_one_eq_mod y 12
  unfold PAGE_ALIGN ALIGN
  rw [hmask, Nat.shiftLeft_eq]
  have hpage : PAGE_SIZE = 4096 := by decide
  omega

theorem newAlloc_lt (x : ℕ) : PAGE_ALIGN x < PAGE_SIZE := by
  have hmask : ∀ y, y &&& (PAGE_SIZE - 1) = y % 2 ^ 12 := fun y => Nat.and_two_pow_sub_one_eq_mod y 12
  unfold PAGE_ALIGN ALIGN
  rw [hmask]
  exact Nat.mod_lt _ (by decide)

/-- The place that is found for a new array. -/
theorem findNewArray_sound {a m n : ℕ} (h : StWf g s) (hm : 0 < m)
    (he : findNewArray c s kind base n m = a) (ha : a ≠ 0) :
    (∃ hi, Found s (max ((if kind = .reserved then base + n else 0) % 2 ^ 32) PAGE_SIZE) hi m
        PAGE_SIZE a) ∨
      (kind = .reserved ∧ n ≠ 0 ∧ Found s PAGE_SIZE
        (effectiveEnd s (min base s.currentLimit)) m PAGE_SIZE a) := by
  have hap := Apart.mono (h.types .reserved).apart (Nat.zero_le g)
  have hlimit := h.limit
  have hpage : PAGE_SIZE = 2 ^ 12 := by decide
  have hmax : PHYS_ADDR_MAX = 2 ^ 32 - 1 := rfl
  unfold findNewArray findInRange at he
  dsimp only at he
  have hmod : ∀ y, y % 2 ^ 32 ≤ PHYS_ADDR_MAX := fun y => by omega
  rw [hpage] at he ⊢
  cases kind with
  | memory =>
    left
    simp only [ne_eq, reduceCtorEq, not_false_eq_true, if_true, not_true_eq_false, and_false,
      if_false] at he ⊢
    exact ⟨_, findInRangeNode_sound hap hlimit (hmod _) hlimit hm (show 12 < 32 by decide) he ha⟩
  | reserved =>
    simp only [ne_eq, not_true_eq_false, if_true, if_false] at he ⊢
    split_ifs at he with hagain
    · right
      have hfound := findInRangeNode_sound hap hlimit (Nat.zero_le _) (show min base s.currentLimit ≤ _
        by omega) hm (show 12 < 32 by decide) he ha
      rw [Nat.zero_max, hpage] at hfound
      exact ⟨trivial, hagain.2, hfound⟩
    · left
      exact ⟨_, findInRangeNode_sound hap hlimit (hmod _) hlimit hm (show 12 < 32 by decide) he ha⟩

theorem found_lt {lo hi m a : ℕ} (h : StWf g s) (hf : Found s lo hi m PAGE_SIZE a) :
    a + m ≤ PHYS_ADDR_MAX := by
  obtain ⟨⟨x, hx, -, hfin⟩, -⟩ := hf.free
  exact hfin.trans ((h.types .memory).fin_le x hx)

theorem grown_wf {t : MemblockType} {addr : ℕ} (h : Wf g t) :
    Wf g { t with max := t.max <<< 1, array := some addr } := by
  have hle : t.cnt ≤ t.max <<< 1 := by
    have := h.cnt_le
    rw [Nat.shiftLeft_eq]
    omega
  exact ⟨h.cnt_pos, hle, h.apart, h.fin_le, h.sum, h.sizes, h.flags⟩

/-- Freeing the old array, where there is one. -/
theorem freed_moved {double : State → Kind → ℕ → ℕ → Option (State × Bool)} {n old m : ℕ} {ret : ℤ}
    (hg : g ≤ 1) (hd : DoubleSpec g double) (h : StWf g s)
    (he : removeRange double n s .reserved old m = some (s', ret)) :
    StWf g (if ret = 0 then { s' with log := s'.log ++ [TableEvent.free old m] } else s') ∧
      ∃ evs, Moved s (if ret = 0 then { s' with log := s'.log ++ [TableEvent.free old m] } else s')
        evs := by
  obtain ⟨h', happ⟩ := removeRange_spec hg hd h he
  by_cases hret : ret = 0
  · rw [if_pos hret]
    obtain ⟨evs, hlog, hcov, hother⟩ := happ.done hret
    refine ⟨⟨fun k => by cases k; exacts [h'.types .memory, h'.types .reserved], h'.limit⟩,
      evs ++ [.free old m], ?_, fun k => ?_⟩
    · dsimp only
      rw [hlog, List.append_assoc]
    · cases k with
      | memory => exact hother .memory (by decide)
      | reserved =>
        refine Eq.trans hcov ?_
        show _ = applyEvents (evs ++ [.free old m]) _
        rw [applyEvents_append]
        rfl
  · rw [if_neg hret]
    exact ⟨h', (happ.failed hret).2⟩

/-- The state in which the new array of `kind` is in place. -/
def switched (s : State) (kind : Kind) (addr : ℕ) : State :=
  s.setType kind { s.type kind with max := (s.type kind).max <<< 1, array := some addr }

/-- What becomes of the old array: nothing if it is the static one, else its block is freed. -/
def OldFreed (c : Config) (n : ℕ) (s : State) (kind : Kind) (addr : ℕ) (s₂ : State) : Prop :=
  match (s.type kind).array with
  | none => s₂ = switched s kind addr
  | some old => ∃ s₁ ret, removeRange (doubleArray c n) n (switched s kind addr) .reserved old
      (PAGE_ALIGN (arraySize (s.type kind).max)) = some (s₁, ret) ∧
    s₂ = if ret = 0 then { s₁ with log := s₁.log ++ [TableEvent.free old
      (PAGE_ALIGN (arraySize (s.type kind).max))] } else s₁

/-- The size of the block of the next array. -/
def newAllocSize (s : State) (kind : Kind) : ℕ := PAGE_ALIGN (arraySize (s.type kind).max <<< 1 % 2 ^ 32)

/-- The end of `memblock_double_array`: the block of the new array is reserved. -/
theorem reserveNew_cases {n addr size : ℕ} {s₂ : State} {ok : Bool}
    (he : (match addRange (doubleArray c n) n s₂ .reserved addr size 0 with
      | none => none
      | some (t, ret) => if ret ≠ 0 then none
        else some ({ t with log := t.log ++ [TableEvent.reserve addr size] }, true)) =
          some (s', ok)) :
    ∃ s₃, addRange (doubleArray c n) n s₂ .reserved addr size 0 = some (s₃, 0) ∧
      s' = { s₃ with log := s₃.log ++ [TableEvent.reserve addr size] } ∧ ok = true := by
  split at he
  · cases he
  rename_i s₃ ret hres
  split_ifs at he with hret
  cases he
  rw [not_not] at hret
  subst hret
  exact ⟨s₃, hres, rfl, rfl⟩

/-- All that `memblock_double_array` does. -/
theorem doubleArray_cases {n a m : ℕ} {ok : Bool}
    (he : doubleArray c (n + 1) s kind a m = some (s', ok)) :
    (findNewArray c s kind a m (newAllocSize s kind) = 0 ∧ s' = s ∧ ok = false) ∨
      ∃ addr s₂ s₃, findNewArray c s kind a m (newAllocSize s kind) = addr ∧ addr ≠ 0 ∧
        OldFreed c n s kind addr s₂ ∧
        addRange (doubleArray c n) n s₂ .reserved addr (newAllocSize s kind) 0 = some (s₃, 0) ∧
        s' = { s₃ with log := s₃.log ++ [TableEvent.reserve addr (newAllocSize s kind)] } ∧
        ok = true := by
  unfold doubleArray at he
  dsimp only at he
  change (if findNewArray c s kind a m (newAllocSize s kind) = 0 then _ else _) = _ at he
  split_ifs at he with haddr
  · cases he
    exact Or.inl ⟨haddr, rfl, rfl⟩
  right
  cases harr : (s.type kind).array with
  | none =>
    rw [harr] at he
    obtain ⟨s₃, hres, hs', hok⟩ := reserveNew_cases he
    refine ⟨_, switched s kind _, s₃, rfl, haddr, ?_, hres, hs', hok⟩
    unfold OldFreed
    rw [harr]
    exact rfl
  | some old =>
    rw [harr] at he
    dsimp only at he
    split at he
    · cases he
    rename_i s₂ hfreed
    obtain ⟨⟨s₁, ret⟩, hrem, hs₂⟩ := Option.map_eq_some_iff.mp hfreed
    obtain ⟨s₃, hres, hs', hok⟩ := reserveNew_cases he
    refine ⟨_, s₂, s₃, rfl, haddr, ?_, hres, hs', hok⟩
    unfold OldFreed
    rw [harr]
    exact ⟨s₁, ret, hrem, hs₂.symm⟩

theorem switched_moved (s : State) (kind : Kind) (addr : ℕ) : Moved s (switched s kind addr) [] := by
  unfold switched
  refine ⟨by simp, fun k => ?_⟩
  rw [movedSet_nil]
  by_cases hk : k = kind
  · subst hk
    rw [type_setType]
  · rw [type_setType_ne _ _ hk]

theorem oldFreed_moved {n addr : ℕ} {s₂ : State} (hg : g ≤ 1) (hd : DoubleSpec g (doubleArray c n))
    (h : StWf g s) (hf : OldFreed c n s kind addr s₂) : StWf g s₂ ∧ ∃ evs, Moved s s₂ evs := by
  have h₁ : StWf g (switched s kind addr) := h.setType (grown_wf (h.types kind))
  have hm₁ := switched_moved s kind addr
  unfold OldFreed at hf
  cases harr : (s.type kind).array with
  | none =>
    rw [harr] at hf
    rw [hf]
    exact ⟨h₁, [], hm₁⟩
  | some old =>
    rw [harr] at hf
    obtain ⟨s₁, ret, hrem, rfl⟩ := hf
    obtain ⟨h₂, evs, hm₂⟩ := freed_moved hg hd h₁ hrem
    exact ⟨h₂, evs, hm₁.trans hm₂⟩

/-- Reserving the block of the new array is logged. -/
theorem reserved_moved {s₂ s₃ : State} {evs : List TableEvent} {a m : ℕ}
    (hlog : s₃.log = s₂.log ++ evs)
    (hcov : covered (s₃.type .reserved).regions = movedSet evs s₂ .reserved ∪ range a m)
    (hother : ∀ k ≠ Kind.reserved, covered (s₃.type k).regions = movedSet evs s₂ k) :
    Moved s₂ { s₃ with log := s₃.log ++ [TableEvent.reserve a m] }
      (evs ++ [TableEvent.reserve a m]) := by
  refine ⟨by dsimp only; rw [hlog, List.append_assoc], fun k => ?_⟩
  cases k with
  | memory => exact hother .memory (by decide)
  | reserved =>
    refine Eq.trans hcov ?_
    show _ = applyEvents (evs ++ [TableEvent.reserve a m]) _
    rw [applyEvents_append]
    rfl

/-- **`memblock_double_array`**, with any number of nested calls. -/
theorem doubleArray_spec (hg : g ≤ 1) : ∀ n, DoubleSpec g (doubleArray c n)
  | 0 => fun s kind a m s' ok h he => by cases he
  | n + 1 => by
    intro s kind a m s' ok h he
    have hd := doubleArray_spec hg n
    rcases doubleArray_cases he with ⟨-, rfl, -⟩ | ⟨addr, s₂, s₃, hadd, hne, hfreed, hres, rfl, -⟩
    · exact ⟨h, ⟨[], Moved.refl s'⟩, fun _ hk => hk⟩
    have hpos : 0 < newAllocSize s kind := newAlloc_pos _
    have hlt : addr + newAllocSize s kind ≤ PHYS_ADDR_MAX := by
      rcases findNewArray_sound h hpos hadd hne with ⟨hi, hf⟩ | ⟨-, -, hf⟩
      · exact found_lt h hf
      · exact found_lt h hf
    obtain ⟨h₂, evs₂, hm₂⟩ := oldFreed_moved hg hd h hfreed
    obtain ⟨h₃, happ⟩ := addRange_spec hg hd h₂ (fun _ => rfl) hres
    obtain ⟨evs₃, hlog, hcov, hother⟩ := happ.done rfl
    have hm := hm₂.trans (reserved_moved hlog hcov hother)
    refine ⟨⟨fun k => by cases k; exacts [h₃.types .memory, h₃.types .reserved], h₃.limit⟩,
      ⟨_, hm⟩, fun k hk => ?_⟩
    cases k with
    | memory =>
      rw [hm.covers .memory]
      exact hk
    | reserved =>
      -- the block of the new array is covered
      refine ⟨addr, ?_⟩
      show addr ∈ covered (s₃.type .reserved).regions
      rw [hcov]
      right
      unfold range capSize
      exact ⟨le_rfl, by omega⟩

end HardStack.Memblock.Range
