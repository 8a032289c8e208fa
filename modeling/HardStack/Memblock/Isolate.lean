import HardStack.Memblock.Dummy

/-! # What `memblock_isolate_range` leaves

The loop splits the regions at both ends of the range and changes no address. The array has to have
room for two more regions before, and where `memblock_double_array` makes it in the reserved regions,
the blocks of the arrays come and go there. -/

namespace HardStack.Memblock.Isolate

open HardStack.Memblock.Model HardStack.Memblock.Regions HardStack.Memblock.Table
open HardStack.Memblock.Range HardStack.Memblock.Dummy

variable {c : Config} {double : State → Kind → ℕ → ℕ → Option (State × Bool)}
  {type type' : MemblockType} {s s' : State} {kind : Kind} {base fin size n m startRgn endRgn : ℕ}

/-- The region lies inside `[base, base + size)`. -/
def Inside (base size : ℕ) (r : Region) : Prop := 0 < r.size ∧ base ≤ r.base ∧ r.fin ≤ base + size

theorem insertRegion_room (idx size flags : ℕ) (h : type.cnt < type.max) :
    ∃ t, insertRegion type idx base size flags = some t := by
  unfold insertRegion
  rw [if_neg (by omega)]
  exact ⟨_, rfl⟩

/-- The loop ends while there is room for the cuts. -/
theorem isolateLoop_isSome (hbf : base < fin) : ∀ (k : ℕ) (type : MemblockType)
    (startRgn endRgn : ℕ) (pre suf : List Region), type.regions = pre ++ suf →
    type.cnt + crossing base suf + crossing fin suf ≤ type.max →
    suf.length + 1 + crossing base suf + crossing fin suf ≤ k →
    (isolateLoop base fin k type pre.length startRgn endRgn).isSome
  | 0, _, _, _, _, _, _, _, hk => by omega
  | k + 1, type, startRgn, endRgn, pre, [], h, _, _ => by
    rw [isolateLoop_end (by unfold MemblockType.cnt; rw [h, List.append_nil])]
    rfl
  | k + 1, type, startRgn, endRgn, pre, r :: rest, h, hroom, hk => by
    have hnext : ∀ x : Region, (pre ++ [x]).length = pre.length + 1 := by simp
    have hskip : type.regions = (pre ++ [r]) ++ rest := by
      rw [h]
      simp
    rw [crossing_cons, crossing_cons] at hroom hk
    rw [List.length_cons] at hk
    rw [isolateLoop_succ h rfl]
    by_cases c1 : r.base ≥ fin
    · rw [if_pos c1]
      rfl
    rw [if_neg c1]
    by_cases c2 : r.fin ≤ base
    · rw [if_pos c2, ← hnext r]
      exact isolateLoop_isSome hbf k type _ _ _ _ hskip (by omega) (by omega)
    rw [if_neg c2]
    by_cases c3 : r.base < base
    · -- one cut at `base` less
      have hfin : (Region.mk base (r.size - (base - r.base)) r.flags).fin = r.fin := by
        unfold Region.fin at *
        dsimp only
        omega
      rw [if_pos ⟨c3, by omega⟩] at hroom hk
      have hcnt : (⟨pre ++ { r with base := base, size := r.size - (base - r.base) } :: rest, type.max,
          type.totalSize - (base - r.base), type.array⟩ : MemblockType).cnt = type.cnt := by
        unfold MemblockType.cnt
        rw [h]
        simp
      obtain ⟨t, hins⟩ := @insertRegion_room _ r.base pre.length (base - r.base) r.flags
        (show (⟨pre ++ { r with base := base, size := r.size - (base - r.base) } :: rest, type.max,
          type.totalSize - (base - r.base), type.array⟩ : MemblockType).cnt < type.max by omega)
      obtain ⟨ht, hsplit⟩ := insertRegion_split h c3 (by omega) hins
      have hregs : t.regions = (pre ++ [⟨r.base, base - r.base, r.flags⟩]) ++
          { r with base := base, size := r.size - (base - r.base) } :: rest := by
        rw [ht]
        simp
      have hone : t.cnt = type.cnt + 1 := by
        unfold MemblockType.cnt
        rw [ht, h]
        simp
        omega
      rw [if_pos c3, hins, ← hnext ⟨r.base, base - r.base, r.flags⟩]
      refine isolateLoop_isSome hbf k t _ _ _ _ hregs ?_ ?_
      · rw [crossing_cons, crossing_cons, hfin, hsplit.max, if_neg (by dsimp only; omega)]
        dsimp only
        split_ifs at hroom ⊢ <;> omega
      · rw [crossing_cons, crossing_cons, hfin, if_neg (by dsimp only; omega), List.length_cons]
        dsimp only
        split_ifs at hk ⊢ <;> omega
    rw [if_neg c3]
    by_cases c4 : r.fin > fin
    · -- the lower part is inside the range, the upper part above it
      rw [if_neg (by omega), if_pos ⟨by omega, c4⟩] at hroom hk
      have hcnt : (⟨pre ++ { r with base := fin, size := r.size - (fin - r.base) } :: rest, type.max,
          type.totalSize - (fin - r.base), type.array⟩ : MemblockType).cnt = type.cnt := by
        unfold MemblockType.cnt
        rw [h]
        simp
      obtain ⟨t, hins⟩ := @insertRegion_room _ r.base pre.length (fin - r.base) r.flags
        (show (⟨pre ++ { r with base := fin, size := r.size - (fin - r.base) } :: rest, type.max,
          type.totalSize - (fin - r.base), type.array⟩ : MemblockType).cnt < type.max by omega)
      obtain ⟨ht, -⟩ := insertRegion_split h (by omega) c4 hins
      obtain ⟨j, rfl⟩ : ∃ j, k = j + 2 := ⟨k - 2, by omega⟩
      have hlow : (Region.mk r.base (fin - r.base) r.flags).fin = fin := by
        unfold Region.fin
        dsimp only
        omega
      have hregs : t.regions = (pre ++ [⟨r.base, fin - r.base, r.flags⟩]) ++
          { r with base := fin, size := r.size - (fin - r.base) } :: rest := by
        rw [ht]
        simp
      rw [if_pos c4, hins]
      dsimp only
      rw [isolateLoop_succ ht rfl, hlow]
      dsimp only
      rw [if_neg c1, if_neg (by omega), if_neg c3, if_neg (by omega),
        isolateLoop_succ hregs (hnext _).symm, if_pos (by dsimp only; omega)]
      rfl
    · rw [if_neg c4, ← hnext r]
      exact isolateLoop_isSome hbf k type _ _ _ _ hskip (by omega) (by omega)

/-! ### The postcondition -/

/-- What is assumed of the nested calls: the regions of `memblock.memory` are only moved. -/
def MemoryKept (double : State → Kind → ℕ → ℕ → Option (State × Bool)) : Prop :=
  ∀ s kind a m s' ok, StWf 0 s → double s kind a m = some (s', ok) →
    s'.memory.regions = s.memory.regions ∧ s'.memory.totalSize = s.memory.totalSize

theorem growArray_memory (hd : DoubleSpec 0 double) (hk : MemoryKept double) {extra : ℕ} :
    ∀ (n : ℕ) (s : State) {s' : State} {ok : Bool}, StWf 0 s →
    growArray double kind extra base size n s = some (s', ok) →
    s'.memory.regions = s.memory.regions ∧ s'.memory.totalSize = s.memory.totalSize
  | n, s, s', ok, h, he => by
    unfold growArray at he
    by_cases hroom : (s.type kind).cnt + extra ≤ (s.type kind).max
    · rw [if_pos hroom] at he
      cases he
      exact ⟨rfl, rfl⟩
    · rw [if_neg hroom] at he
      cases n with
      | zero => cases he
      | succ n =>
        dsimp only at he
        cases hdo : double s kind base size with
        | none =>
          rw [hdo] at he
          cases he
        | some r =>
          obtain ⟨s₁, ok₁⟩ := r
          rw [hdo] at he
          obtain ⟨hregs, htotal⟩ := hk s kind base size s₁ ok₁ h hdo
          cases ok₁ with
          | false =>
            cases he
            exact ⟨hregs, htotal⟩
          | true =>
            obtain ⟨hregs', htotal'⟩ := growArray_memory hd hk n s₁ (hd _ _ _ _ _ _ h hdo).1 he
            exact ⟨hregs'.trans hregs, htotal'.trans htotal⟩

/-- A call for the reserved regions edits only these. -/
theorem outcome_memory (hd : DoubleSpec 0 double) (hk : MemoryKept double) (h : StWf 0 s)
    {edit : MemblockType → MemblockType → Prop} {extra : ℕ} {ret : ℤ}
    (ho : Outcome double edit .reserved extra base size n s s' ret) :
    s'.memory.regions = s.memory.regions ∧ s'.memory.totalSize = s.memory.totalSize := by
  rcases ho with ⟨hgrow, -⟩ | ⟨s₁, t, hgrow, -, rfl, -⟩
  · exact growArray_memory hd hk n s h hgrow
  · have hkept := growArray_memory hd hk n s h hgrow
    exact hkept

theorem switched_memory (s : State) (kind : Kind) (addr : ℕ) :
    (switched s kind addr).memory.regions = s.memory.regions ∧
      (switched s kind addr).memory.totalSize = s.memory.totalSize := by
  cases kind
  · exact ⟨rfl, rfl⟩
  · exact ⟨rfl, rfl⟩

/-- **`memblock_double_array`** leaves the memory regions as they are, with any number of nested
calls. -/
theorem doubleArray_memory : ∀ n, MemoryKept (doubleArray c n)
  | 0 => fun s kind a m s' ok h he => by cases he
  | n + 1 => by
    intro s kind a m s' ok h he
    have hd := @doubleArray_spec 0 c (Nat.zero_le 1) n
    have hk := doubleArray_memory n
    rcases doubleArray_cases he with ⟨-, rfl, -⟩ | ⟨addr, s₂, s₃, -, -, hfreed, hres, rfl, -⟩
    · exact ⟨rfl, rfl⟩
    have h₁ : StWf 0 (switched s kind addr) := h.setType (grown_wf (h.types kind))
    have hkept₁ := switched_memory s kind addr
    have h₂ := (oldFreed_moved (Nat.zero_le 1) hd h hfreed).1
    have hkept₂ : s₂.memory.regions = s.memory.regions ∧ s₂.memory.totalSize = s.memory.totalSize := by
      unfold OldFreed at hfreed
      split at hfreed
      · rw [hfreed]
        exact hkept₁
      · obtain ⟨s₁, ret, hrem, rfl⟩ := hfreed
        obtain ⟨nr, -, ho⟩ := removeRange_outcome (Nat.zero_le 1) hd h₁ hrem
        have hkept := outcome_memory hd hk h₁ ho
        split
        · exact ⟨hkept.1.trans hkept₁.1, hkept.2.trans hkept₁.2⟩
        · exact ⟨hkept.1.trans hkept₁.1, hkept.2.trans hkept₁.2⟩
    obtain ⟨nr, -, ho⟩ := addRange_outcome (Nat.zero_le 1) hd h₂ (fun hg => absurd hg (lt_irrefl 0)) hres
    have hkept₃ := outcome_memory hd hk h₂ ho
    exact ⟨hkept₃.1.trans hkept₂.1, hkept₃.2.trans hkept₂.2⟩

/-! ### The call -/

/-- Where there is room, the call returns 0. -/
theorem isolateRange_returns (h : StWf 0 s)
    (hroom : (s.type kind).cnt + 2 ≤ (s.type kind).max) :
    ∃ s' startRgn endRgn,
      isolateRange double n s kind base size = some (s', 0, startRgn, endRgn) := by
  unfold isolateRange
  dsimp only
  by_cases hcap : capSize base size = 0
  · rw [if_pos hcap]
    exact ⟨_, _, _, rfl⟩
  rw [if_neg hcap, growArray_room hroom]
  obtain ⟨hbf, -⟩ := capSize_fin hcap
  have hpos : 0 < (s.type kind).cnt := List.length_pos_iff.mpr (h.types kind).cnt_pos
  have h2 := crossing_le_one base (h.types kind).apart
  have h3 := crossing_le_one (base + capSize base size) (h.types kind).apart
  obtain ⟨⟨t, st, en⟩, hloop⟩ := Option.isSome_iff_exists.mp (isolateLoop_isSome hbf
    (3 * (s.type kind).cnt + 1) (s.type kind) 0 0 [] (s.type kind).regions rfl (by omega) (by
      show (s.type kind).cnt + 1 + _ + _ ≤ _
      omega))
  exact ⟨s.setType kind t, st, en, by
    dsimp only
    rw [show isolateLoop base (base + capSize base size) (3 * (s.type kind).cnt + 1) (s.type kind) 0 0 0 =
      some (t, st, en) from hloop]
    rfl⟩

/-- Two pages of memory and no reservations. -/
def twoPages : State := { init with
  memory := ⟨[⟨0x2000, 0x2000, 0⟩], INIT_MEMBLOCK_REGIONS, 0x2000, none⟩ }

end HardStack.Memblock.Isolate
