import HardStack.Lib.Cursor
import HardStack.XArray.Run

/-! # Searching the array

`xas_find` moves a cursor over the trie (`Lib.Cursor`). The index it keeps is the position of the
cursor, modulo `2 ^ W`: where the cursor has left the last index, the index has wrapped, but there is
nothing left to find. -/

namespace HardStack.XArray.Search

open HardStack.Lib.Word HardStack.Lib.Trie HardStack.XArray.Model HardStack.XArray.Layout
open HardStack.XArray.Run

variable {W : ℕ} {xa : Xarray} {pre : ℕ → ℕ}

/-! ### Moving the index -/

/-- The mask of `xas_move_index` keeps the digits above those of the node. -/
theorem and_mask {s y : ℕ} (hs : s < W) (hW : 6 ≤ W) (hy : y < 2 ^ W) :
    y &&& (notW W XA_CHUNK_MASK <<< s % 2 ^ W) = 2 ^ (s + 6) * (y / 2 ^ (s + 6)) := by
  have h64 : 2 ^ 6 ≤ 2 ^ W := Nat.pow_le_pow_right (by decide) hW
  have hmul : notW W XA_CHUNK_MASK <<< s = 2 ^ W * 2 ^ s - 2 ^ (s + 6) := by
    unfold notW XA_CHUNK_MASK
    rw [Nat.shiftLeft_eq, Nat.sub_sub, Nat.sub_mul, pow_add, Nat.mul_comm (2 ^ s)]
    rfl
  have hle : 2 ^ (s + 6) ≤ 2 ^ W * 2 ^ s := by
    rw [pow_add, Nat.mul_comm]
    exact Nat.mul_le_mul_right _ h64
  rw [hmul]
  by_cases hsW : s + 6 ≤ W
  · have hpos : 0 < 2 ^ (s + 6) := by positivity
    have hdvd : 2 ^ (s + 6) ≤ 2 ^ W := Nat.pow_le_pow_right (by decide) hsW
    obtain ⟨k, hk⟩ : ∃ k, 2 ^ s = k + 1 := ⟨2 ^ s - 1, by have := Nat.one_le_two_pow (n := s); omega⟩
    have hmask : (2 ^ W * 2 ^ s - 2 ^ (s + 6)) % 2 ^ W = notW W (2 ^ (s + 6) - 1) := by
      have heq : 2 ^ W * 2 ^ s - 2 ^ (s + 6) = 2 ^ W - 2 ^ (s + 6) + 2 ^ W * k := by
        rw [hk, Nat.mul_succ]
        omega
      rw [heq, Nat.add_mul_mod_self_left, Nat.mod_eq_of_lt (by omega)]
      unfold notW
      omega
    rw [hmask, and_notW hsW hy]
  · have hdvd : 2 ^ W ∣ 2 ^ (s + 6) := Nat.pow_dvd_pow 2 (by omega)
    have hlt : 2 ^ W ≤ 2 ^ (s + 6) := Nat.le_of_dvd (by positivity) hdvd
    rw [Nat.mod_eq_zero_of_dvd (Nat.dvd_sub (Nat.dvd_mul_right _ _) hdvd), Nat.and_zero,
      Nat.div_eq_of_lt (hy.trans_le hlt), Nat.mul_zero]

/-- Rounding down to a power of two, before and after the wrap. -/
theorem mod_round (I k : ℕ) :
    2 ^ k * (I % 2 ^ W / 2 ^ k) % 2 ^ W = 2 ^ k * (I / 2 ^ k) % 2 ^ W := by
  by_cases hk : k ≤ W
  · obtain ⟨m, rfl⟩ := Nat.exists_eq_add_of_le hk
    rw [pow_add, Nat.mod_mul_right_div_self, Nat.mul_mod_mul_left, Nat.mul_mod_mul_left, Nat.mod_mod]
  · have hdvd : 2 ^ W ∣ 2 ^ k := Nat.pow_dvd_pow 2 (by omega)
    have hzero : ∀ x, 2 ^ k * x % 2 ^ W = 0 := fun x =>
      Nat.mod_eq_zero_of_dvd (hdvd.trans (Nat.dvd_mul_right _ _))
    rw [hzero, hzero]

/-- **`xas_move_index`** moves the index to a slot of the node that it is in. -/
theorem moveIndex_eq (hinv : Inv W xa pre) (hW : 6 ≤ W) {n I : ℕ} (hn : n ∈ xa.live)
    (hI : pre n = I / 2 ^ ((xa.node n).shift + 6)) (o o' al : ℕ) :
    xasMoveIndex W ⟨xa, I % 2 ^ W, o', n, al⟩ o = ⟨xa, pos 6 (view xa pre) n o % 2 ^ W, o', n, al⟩ := by
  have hs := hinv.shift n hn
  have hpos : pos 6 (view xa pre) n o =
      2 ^ ((xa.node n).shift + 6) * (I / 2 ^ ((xa.node n).shift + 6)) + o <<< (xa.node n).shift := by
    rw [← hI, Nat.shiftLeft_eq, pow_add]
    show (pre n * 2 ^ 6 + o) * 2 ^ (xa.node n).shift = _
    ring
  have hmod : ∀ k c, (2 ^ k * (I % 2 ^ W / 2 ^ k) + c) % 2 ^ W = (2 ^ k * (I / 2 ^ k) + c) % 2 ^ W := by
    intro k c
    rw [Nat.add_mod, mod_round, ← Nat.add_mod]
  unfold xasMoveIndex
  dsimp only
  rw [and_mask hs hW (Nat.mod_lt _ (by positivity)), hmod, hpos]

theorem advance_eq (hinv : Inv W xa pre) (hW : 6 ≤ W) {n I o : ℕ} (hn : n ∈ xa.live)
    (hI : pre n = I / 2 ^ ((xa.node n).shift + 6)) (ho : o < 64) (al : ℕ) :
    xasAdvance W ⟨xa, I % 2 ^ W, o, n, al⟩ =
      ⟨xa, pos 6 (view xa pre) n (o + 1) % 2 ^ W, o + 1, n, al⟩ := by
  have hchar : (o + 1) % 256 = o + 1 := Nat.mod_eq_of_lt (by omega)
  unfold xasAdvance
  dsimp only
  rw [hchar]
  exact moveIndex_eq hinv hW hn hI (o + 1) (o + 1) al

/-! ### `xas_find` -/

/-- No entry from `lo` on and before `hi`. -/
def Nothing (xa : Xarray) (pre : ℕ → ℕ) (lo hi : ℕ) : Prop :=
  ∀ i a, lo ≤ i → i < hi → ¬ Has xa pre i a

/-- What a search for the first entry from `lo` to `max` returns. -/
inductive FoundIn (xa : Xarray) (pre : ℕ → ℕ) (lo max : ℕ) : XaState × ℕ → Prop
  | found {xas : XaState} {a : ℕ} (h : Has xa pre xas.index a) (hlo : lo ≤ xas.index)
      (hmax : xas.index ≤ max) (hno : Nothing xa pre lo xas.index) : FoundIn xa pre lo max (xas, a)
  | nothing {xas : XaState} (hno : Nothing xa pre lo (max + 1)) : FoundIn xa pre lo max (xas, 0)

theorem Nothing.append {lo mid hi : ℕ} (h1 : Nothing xa pre lo mid) (h2 : Nothing xa pre mid hi) :
    Nothing xa pre lo hi := fun i a hi1 hi2 => by
  rcases Nat.lt_or_ge i mid with h | h
  · exact h1 i a hi1 h
  · exact h2 i a h hi2

/-- All indices are words. -/
def Bounded (W : ℕ) (xa : Xarray) (pre : ℕ → ℕ) : Prop := ∀ i a, Has xa pre i a → i < 2 ^ W

/-- The node that the head points to. -/
theorem root_eq (hr : xaIsNode xa.head) : (view xa pre).root = .node (xaToNode xa.head) :=
  decode_eq_node.mpr ⟨hr, rfl⟩

/-- **The loop of `xas_find`**, from a cursor with nothing before it. -/
theorem findLoop_spec (hinv : Inv W xa pre) (hW : 6 ≤ W) (hbound : Bounded W xa pre)
    (hr : xaIsNode xa.head) {lo : ℕ} (max al : ℕ) : ∀ (fuel n o : ℕ), n ∈ xa.live → o ≤ 64 →
    lo ≤ pos 6 (view xa pre) n o → Nothing xa pre lo (pos 6 (view xa pre) n o) →
    cost 6 (view xa pre) (xa.node (xaToNode xa.head)).shift n o < fuel →
    ∃ r, findLoop W max fuel ⟨xa, pos 6 (view xa pre) n o % 2 ^ W, o, n, al⟩ = some r ∧
      FoundIn xa pre lo max r
  | 0, _, _, _, _, _, _, hf => absurd hf (Nat.not_lt_zero _)
  | fuel + 1, n, o, hn, ho, hlo, hno, hf => by
    have hroot := @root_eq xa pre hr
    have hn0 : n ≠ 0 := (hinv.addr n hn).ne_zero
    have hsize : XA_CHUNK_SIZE = 64 := rfl
    rw [findLoop, hsize]
    dsimp only
    by_cases hmax : pos 6 (view xa pre) n o % 2 ^ W ≤ max
    · rw [if_pos ⟨hn0, hmax⟩]
      by_cases h64 : o = 64
      · subst h64
        rw [if_pos rfl]
        unfold xasClimb
        dsimp only
        by_cases hp : (xa.node n).parent = 0
        · -- the end of the array
          have htop : ((view xa pre).cell n).parent = none := if_pos hp
          have hend : Nothing xa pre lo (max + 1) :=
            fun i a h1 _ ha => by
              rcases Nat.lt_or_ge i (pos 6 (view xa pre) n 64) with h | h
              · exact hno i a h1 h ha
              · exact hinv.wf.not_holds_end (by decide) hn htop h a ha
          obtain ⟨fuel, rfl⟩ : ∃ k, fuel = k + 1 := by
            refine ⟨fuel - 1, ?_⟩
            have hle := hinv.wf.shift_le (by decide) hroot hn
            have : 2 ≤ cost 6 (view xa pre) (xa.node (xaToNode xa.head)).shift n 64 := by
              unfold cost
              rw [if_pos (by decide)]
              have hle' : ((view xa pre).cell n).shift ≤ (xa.node (xaToNode xa.head)).shift := hle
              omega
            omega
          rw [findLoop, hp]
          dsimp only
          rw [if_neg (fun h => h.1 rfl), if_pos rfl]
          exact ⟨_, rfl, .nothing hend⟩
        · obtain ⟨hpl, hoff, -⟩ := hinv.parent hn hp
          have hpar : ((view xa pre).cell n).parent = some (xa.node n).parent := if_neg hp
          have hpos : pos 6 (view xa pre) (xa.node n).parent ((xa.node n).offset + 1) =
              pos 6 (view xa pre) n 64 := hinv.wf.pos_climb hn hpar
          have hcost := hinv.wf.cost_climb (by decide) hroot hn hpar
          rw [Nat.mod_eq_of_lt (show (xa.node n).offset + 1 < 256 by omega), ← hpos]
          rw [← hpos] at hlo hno
          exact findLoop_spec hinv hW hbound hr max al fuel _ _ hpl (by omega) hlo hno
            (Nat.lt_of_lt_of_le hcost (Nat.le_of_lt_succ hf))
      · rw [if_neg h64]
        have ho' : o < 2 ^ 6 := by omega
        by_cases hslot : xaIsNode ((xa.node n).slots o)
        · rw [if_pos hslot]
          have hchild : ((view xa pre).cell n).slot o = .node (xaToNode ((xa.node n).slots o)) :=
            decode_eq_node.mpr ⟨hslot, rfl⟩
          have hpos := hinv.wf.pos_child hn ho' hchild
          have hcost := hinv.wf.cost_child (by decide) (xa.node (xaToNode xa.head)).shift hn ho' hchild
            (show 0 < 2 ^ 6 by decide)
          rw [← hpos] at hlo hno ⊢
          exact findLoop_spec hinv hW hbound hr max al fuel _ _ (hinv.child hn ho' hslot).1 (by omega) hlo hno
            (Nat.lt_of_lt_of_le hcost (Nat.le_of_lt_succ hf))
        · rw [if_neg hslot]
          by_cases h0 : (xa.node n).slots o = 0
          · rw [if_neg (not_not.mpr h0)]
            have hempty : ((view xa pre).cell n).slot o = .empty := decode_eq_empty.mpr h0
            obtain ⟨-, hdig⟩ := digits_of_pos ho' le_rfl (pos_lt (b := 6) (T := view xa pre) n (Nat.lt_succ_self o))
            rw [advance_eq hinv hW hn hdig ho' al]
            have hnext := hinv.wf.cost_next (by decide) hroot hn (Nat.lt_succ_self o) ho'
            refine findLoop_spec hinv hW hbound hr max al fuel _ _ hn ho' (hlo.trans (pos_mono n (Nat.le_succ o)))
              (hno.append fun i a h1 h2 => ?_) (Nat.lt_of_lt_of_le hnext (Nat.le_of_lt_succ hf))
            exact hinv.wf.not_holds_empty (by decide) hn ho' hempty h1 h2 a
          · rw [if_pos h0]
            have hhas : Has xa pre (pos 6 (view xa pre) n o) ((xa.node n).slots o) :=
              hinv.wf.holds_pos hn ho' (decode_item h0 hslot)
            have hword := Nat.mod_eq_of_lt (hbound _ _ hhas)
            rw [hword] at hmax ⊢
            exact ⟨_, rfl, .found hhas hlo hmax hno⟩
    · -- the index is above the limit, and so is the position
      rw [if_neg fun h => hmax h.2, if_neg hn0]
      refine ⟨_, rfl, .nothing fun i a h1 h2 => hno i a h1 ?_⟩
      have := Nat.mod_le (pos 6 (view xa pre) n o) (2 ^ W)
      omega

/-- Beyond the largest index of the array there is nothing. -/
theorem nothing_beyond (hinv : Inv W xa pre) {i : ℕ} (hi : i < 2 ^ W)
    (h : i > maxIndex W xa xa.head) (hi' : ℕ) : Nothing xa pre i hi' := by
  intro j a hij _ ha
  rw [maxIndex_lt xa hi] at h
  by_cases hr : xaIsNode xa.head
  · rw [if_pos hr] at h
    have hlt : j < 2 ^ ((xa.node (xaToNode xa.head)).shift + 6) :=
      hinv.wf.lt_of_holds (by decide) (root_eq hr) ha
    omega
  · rw [if_neg hr] at h
    have := ((has_head hr hinv).mp ha).2
    omega

theorem xasError_xaState (i : ℕ) : ¬ xasError W (xaState xa i) := by
  unfold xasError xaIsErr xaIsInternal xaState XAS_RESTART
  simp

theorem xasStart_xaState {i : ℕ} (hi : i < 2 ^ W) : xasStart W (xaState xa i) =
    if i > maxIndex W xa xa.head then (⟨xa, i, 0, XAS_BOUNDS, 0⟩, 0) else (⟨xa, i, 0, 0, 0⟩, xa.head) := by
  have hstart : xasInvalid (xaState xa i) := by
    show 3 % 4 ≠ 0
    decide
  have hcond : (if xaIsNode xa.head then i / 2 ^ (xa.node (xaToNode xa.head)).shift ≥ XA_CHUNK_SIZE
      else i ≠ 0) ↔ i > maxIndex W xa xa.head := by
    rw [maxIndex_lt xa hi]
    by_cases hr : xaIsNode xa.head
    · rw [if_pos hr, if_pos hr, ge_iff_le, Nat.le_div_iff_mul_le (by positivity), XA_CHUNK_SIZE,
        pow_add, Nat.mul_comm]
      rfl
    · rw [if_neg hr, if_neg hr]
  unfold xasStart
  rw [if_neg (not_not.mpr hstart), if_neg (xasError_xaState i)]
  unfold xaState
  dsimp only
  exact if_congr hcond rfl rfl

/-- `xas_load` within the array ends at the slot of the index. -/
theorem xasLoad_within (hinv : Inv W xa pre) {i fuel : ℕ} (hi : i < 2 ^ W)
    (h : ¬ i > maxIndex W xa xa.head) (hf : W < fuel) :
    (¬ xaIsNode xa.head ∧ i = 0 ∧ xasLoad W fuel (xaState xa i) = some (⟨xa, i, 0, 0, 0⟩, xa.head)) ∨
    (xaIsNode xa.head ∧ ∃ n o, SlotOf xa pre i n o ∧ ¬ xaIsNode ((xa.node n).slots o) ∧
      xasLoad W fuel (xaState xa i) = some (⟨xa, i, o, n, 0⟩, (xa.node n).slots o)) := by
  obtain ⟨k, rfl⟩ : ∃ k, fuel = k + 1 := ⟨fuel - 1, by omega⟩
  have hload : xasLoad W (k + 1) (xaState xa i) = loadLoop (k + 1) ⟨xa, i, 0, 0, 0⟩ xa.head := by
    unfold xasLoad
    rw [xasStart_xaState hi, if_neg h]
  rw [maxIndex_lt xa hi] at h
  rw [hload]
  by_cases hr : xaIsNode xa.head
  · rw [if_pos hr] at h
    have hslot := slotOf_head hinv hr (i := i) (by omega)
    obtain ⟨n, o, heq, h1, h2⟩ := loadLoop_spec hinv 0 (k := k + 1) (m := 0) (p := 0) hr rfl hslot
      (by have := hinv.shift _ hslot.live; omega)
    exact Or.inr ⟨hr, n, o, h1, h2, heq⟩
  · rw [if_neg hr] at h
    refine Or.inl ⟨hr, by omega, ?_⟩
    rw [loadLoop, if_neg hr]

/-- The position of the slot of an index. -/
theorem slotOf_pos_le {i n o : ℕ} (h : SlotOf xa pre i n o) :
    pos 6 (view xa pre) n o ≤ i ∧ i < pos 6 (view xa pre) n (o + 1) := by
  have hpos := pos_of_digits (b := 6) (T := view xa pre) (n := n) h.digits
  have hoff : i / 2 ^ ((view xa pre).cell n).shift % 2 ^ 6 = o := h.offset.symm
  rw [hoff] at hpos
  exact hpos

/-- `xas_find` on a new state, after its load. -/
theorem xasFind_of_load {i max fuel e : ℕ} {xas : XaState}
    (hload : xasLoad W fuel (xaState xa i) = some (xas, e)) : xasFind W fuel (xaState xa i) max =
      if e ≠ 0 ∨ xasNotNode xas.node then some (xas, e) else findLoop W max fuel (xasAdvance W xas) := by
  have h0 : (xaState xa i).node ≠ 0 := by
    show 3 ≠ 0
    decide
  have htop : xasTop (xaState xa i).node := le_refl 3
  unfold xasFind
  rw [if_neg (xasError_xaState i), if_neg h0, if_pos htop, hload]
  rfl

theorem not_xasNotNode (hinv : Inv W xa pre) {n : ℕ} (hn : n ∈ xa.live) : ¬ xasNotNode n := by
  have h4 := (hinv.addr n hn).2
  have h0 := (hinv.addr n hn).ne_zero
  unfold xasNotNode
  omega

/-- Enough rounds for a search. -/
def searchFuel (W : ℕ) (xa : Xarray) : ℕ :=
  W + 2 + totalCost 6 (xa.node (xaToNode xa.head)).shift

/-- What `xas_find` finds from a new state: the entry at the index itself, also above the limit, or
else the first one up to the limit. -/
theorem xasFind_spec (hinv : Inv W xa pre) (hW : 6 ≤ W) (hbound : Bounded W xa pre) {i fuel : ℕ}
    (max : ℕ) (hi : i < 2 ^ W) (hf : searchFuel W xa ≤ fuel) :
    ∃ r, xasFind W fuel (xaState xa i) max = some r ∧
      ((Has xa pre i r.2 ∧ r.1.index = i) ∨ ((∀ a, ¬ Has xa pre i a) ∧ FoundIn xa pre i max r)) := by
  unfold searchFuel at hf
  by_cases hmax : i > maxIndex W xa xa.head
  · refine ⟨(⟨xa, i, 0, XAS_BOUNDS, 0⟩, 0), ?_, Or.inr ⟨fun a => ?_, ?_⟩⟩
    · obtain ⟨k, rfl⟩ : ∃ k, fuel = k + 1 := ⟨fuel - 1, by omega⟩
      have hload : xasLoad W (k + 1) (xaState xa i) = some (⟨xa, i, 0, XAS_BOUNDS, 0⟩, 0) := by
        unfold xasLoad
        rw [xasStart_xaState hi, if_pos hmax]
        dsimp only
        rw [loadLoop, if_neg not_xaIsNode_zero]
      rw [xasFind_of_load hload]
      have hstop : (0 : ℕ) ≠ 0 ∨ xasNotNode XAS_BOUNDS := Or.inr (Or.inl (by decide))
      exact if_pos hstop
    · exact nothing_beyond hinv hi hmax (i + 1) i a le_rfl (Nat.lt_succ_self i)
    · exact .nothing (nothing_beyond hinv hi hmax _)
  · obtain ⟨hr, rfl, hload⟩ | ⟨hr, n, o, hslot, hleaf, hload⟩ :=
      xasLoad_within hinv hi hmax (show W < fuel by omega)
    · have hstop : xa.head ≠ 0 ∨ xasNotNode 0 := Or.inr (Or.inr rfl)
      rw [xasFind_of_load hload, if_pos hstop]
      refine ⟨_, rfl, ?_⟩
      by_cases h0 : xa.head = 0
      · have hno : ∀ j a, ¬ Has xa pre j a := fun j a ha => by
          obtain ⟨⟨h1, h2⟩, -⟩ := (has_head hr hinv).mp ha
          exact h2 (h1.symm.trans h0)
        rw [h0]
        exact Or.inr ⟨hno 0, .nothing fun j a _ _ => hno j a⟩
      · exact Or.inl ⟨(has_head hr hinv).mpr ⟨⟨rfl, h0⟩, rfl⟩, rfl⟩
    · rw [xasFind_of_load hload]
      by_cases h0 : (xa.node n).slots o = 0
      · have ho : o < 2 ^ 6 := hslot.offset_lt
        have hempty : ((view xa pre).cell n).slot o = .empty := decode_eq_empty.mpr h0
        obtain ⟨hle, hlt⟩ := slotOf_pos_le hslot
        have hadv := advance_eq hinv hW hslot.live hslot.digits ho 0
        rw [Nat.mod_eq_of_lt hi] at hadv
        rw [if_neg (not_or.mpr ⟨not_not.mpr h0, not_xasNotNode hinv hslot.live⟩), hadv]
        have hno : ∀ j a, i ≤ j → j < pos 6 (view xa pre) n (o + 1) → ¬ Has xa pre j a :=
          fun j a h1 h2 => hinv.wf.not_holds_empty (by decide) hslot.live ho hempty (hle.trans h1) h2 a
        have hcost : cost 6 (view xa pre) (xa.node (xaToNode xa.head)).shift n (o + 1) ≤
            totalCost 6 (xa.node (xaToNode xa.head)).shift :=
          hinv.wf.cost_le (by decide) (root_eq hr) hslot.live (o + 1)
        obtain ⟨r, hfind, hres⟩ := findLoop_spec hinv hW hbound hr max 0 fuel n (o + 1)
          hslot.live ho hlt.le hno (by omega)
        exact ⟨r, hfind, Or.inr ⟨fun a => hno i a le_rfl hlt, hres⟩⟩
      · rw [if_pos (Or.inl h0)]
        exact ⟨_, rfl, Or.inl ⟨(hslot.has_iff hinv hleaf).mpr ⟨rfl, h0⟩, rfl⟩⟩

/-! ### `xa_find` and `xa_find_after` -/

/-- The entry with the lowest index from `lo` to `max`, and the index; `NULL` and the old index if
there is none. -/
inductive Lowest (map : ℕ → ℕ) (lo max old : ℕ) : ℕ × ℕ → Prop
  | found {i : ℕ} (hlo : lo ≤ i) (hmax : i ≤ max) (h : map i ≠ 0)
      (hno : ∀ j, lo ≤ j → j < i → map j = 0) : Lowest map lo max old (map i, i)
  | absent (hno : ∀ j, lo ≤ j → j ≤ max → map j = 0) : Lowest map lo max old (0, old)

/-- What a search from `i` returns: an entry at `i` is returned whatever the limit is. -/
def Searched (map : ℕ → ℕ) (i max old : ℕ) (r : ℕ × ℕ) : Prop :=
  if map i ≠ 0 then r = (map i, i) else Lowest map i max old r

variable {x : System}

theorem not_retry {entry : ℕ} (h : ¬ xaIsInternal entry) (xas : XaState) :
    xasRetry xas entry = (xas, false) := by
  have h1 : entry ≠ XA_ZERO_ENTRY := by
    rintro rfl
    exact h (by decide)
  have h2 : entry ≠ XA_RETRY_ENTRY := by
    rintro rfl
    exact h (by decide)
  unfold xasRetry
  rw [if_neg h1, if_pos h2]

/-- The search of both functions, in the map. -/
theorem find_present (h : SysInv W x pre) (hW : 6 ≤ W) (hbound : Bounded W x.xa pre) {i fuel : ℕ}
    (max : ℕ) (hi : i < 2 ^ W) (hf : searchFuel W x.xa ≤ fuel) : ∃ xas e,
      findFilter W fuel (xaState x.xa i) max XA_PRESENT = some (xas, e) ∧ ¬ xaIsInternal e ∧
      ∀ old, Searched x.map i max old (e, if e ≠ 0 then xas.index else old) := by
  obtain ⟨⟨xas, e⟩, hfind, hres⟩ := xasFind_spec h.inv hW hbound max hi hf
  refine ⟨xas, e, hfind, ?_⟩
  have hempty : ∀ lo hi', Nothing x.xa pre lo hi' → ∀ j, lo ≤ j → j < hi' → x.map j = 0 := by
    intro lo hi' hno j h1 h2
    by_contra h0
    exact hno j (x.map j) h1 h2 ((h.has j _).mpr ⟨rfl, h0⟩)
  rcases hres with ⟨hhas, hindex⟩ | ⟨hno, hfound⟩
  · obtain ⟨he, h0⟩ := (h.has i e).mp hhas
    refine ⟨he ▸ h.plain i, fun old => ?_⟩
    unfold Searched
    rw [if_pos (he ▸ h0), if_pos h0, he, hindex]
  · have hi0 : x.map i = 0 := by
      by_contra h0
      exact hno _ ((h.has i _).mpr ⟨rfl, h0⟩)
    unfold Searched
    simp only [hi0, ne_eq, not_true, if_false]
    cases hfound with
    | found hhas hlo hmax hno' =>
      obtain ⟨he, h0⟩ := (h.has _ e).mp hhas
      refine ⟨he ▸ h.plain _, fun old => ?_⟩
      rw [if_pos h0, ← he]
      exact .found hlo hmax (he ▸ h0) (hempty _ _ hno')
    | nothing hno' =>
      refine ⟨by decide, fun old => ?_⟩
      exact .absent fun j h1 h2 => hempty _ _ hno' j h1 (Nat.lt_succ_of_le h2)

/-- **`xa_find`**. -/
theorem xaFind_spec (h : SysInv W x pre) (hW : 6 ≤ W) (hbound : Bounded W x.xa pre) {i fuel : ℕ}
    (max : ℕ) (hi : i < 2 ^ W) (hf : searchFuel W x.xa ≤ fuel) : ∃ r,
      xaFind W fuel x.xa i max XA_PRESENT = some r ∧ Searched x.map i max i r := by
  obtain ⟨xas, e, hfind, hplain, hres⟩ := find_present h hW hbound max hi hf
  obtain ⟨k, rfl⟩ : ∃ k, fuel = k + 1 := ⟨fuel - 1, by unfold searchFuel at hf; omega⟩
  have hloop : xaFindLoop W (k + 1) max XA_PRESENT (k + 1) (xaState x.xa i) = some (xas, e) := by
    rw [xaFindLoop, hfind]
    simp only [Option.bind_eq_bind, Option.bind_some, not_retry hplain, Bool.false_eq_true, if_false]
  unfold xaFind
  rw [hloop]
  exact ⟨_, rfl, hres i⟩

/-- **`xa_find_after`** searches from the next index, which wraps. -/
theorem xaFindAfter_spec (h : SysInv W x pre) (hW : 6 ≤ W) (hbound : Bounded W x.xa pre) {fuel : ℕ}
    (i max : ℕ) (hf : searchFuel W x.xa ≤ fuel) : ∃ r,
      xaFindAfter W fuel x.xa i max XA_PRESENT = some r ∧
        Searched x.map ((i + 1) % 2 ^ W) max i r := by
  have hi : (i + 1) % 2 ^ W < 2 ^ W := Nat.mod_lt _ (by positivity)
  obtain ⟨xas, e, hfind, hplain, hres⟩ := find_present h hW hbound max hi hf
  obtain ⟨k, rfl⟩ : ∃ k, fuel = k + 1 := ⟨fuel - 1, by unfold searchFuel at hf; omega⟩
  have hloop : xaFindAfterLoop W (k + 1) max XA_PRESENT (k + 1)
      (xaState x.xa ((i + 1) % 2 ^ W)) = some (xas, e) := by
    rw [xaFindAfterLoop, hfind]
    simp only [Option.bind_eq_bind, Option.bind_some, not_retry hplain, Bool.false_eq_true, if_false,
      ite_self]
  unfold xaFindAfter
  rw [hloop]
  exact ⟨_, rfl, hres i⟩

/-! ### What the documentation says -/

/-- `xa_find` returns, with the lowest index from `*indexp` to `max`. -/
def FindOk (W : ℕ) (x : System) (index max : ℕ) : Prop :=
  ∃ N, ∀ fuel, N ≤ fuel → ∃ r, xaFind W fuel x.xa index max XA_PRESENT = some r ∧
    Lowest x.map index max index r

/-- `xa_find_after` returns, with the lowest index above `*indexp` and up to `max`. -/
def AfterOk (W : ℕ) (x : System) (index max : ℕ) : Prop :=
  ∃ N, ∀ fuel, N ≤ fuel → ∃ r, xaFindAfter W fuel x.xa index max XA_PRESENT = some r ∧
    Lowest x.map (index + 1) max index r

/-- The entries of a map. -/
def Present (map : ℕ → ℕ) (i e : ℕ) : Prop := map i = e ∧ e ≠ 0

/-- `xa_for_each` ends, after a visit to every present index in order. -/
def ForEachOk (W : ℕ) (x : System) : Prop :=
  ∃ N, ∀ fuel, N ≤ fuel → ∃ l, xaForEach W fuel x.xa = some l ∧ Enumerates (Present x.map) 0 l

/-- The limit is not below an entry at the index itself. -/
def InLimit (map : ℕ → ℕ) (index max : ℕ) : Prop := ¬ (max < index ∧ map index ≠ 0)

/-- The same for the index after `index`; the one after the last is zero. -/
def InLimitAfter (W : ℕ) (map : ℕ → ℕ) (index max : ℕ) : Prop :=
  if index = 2 ^ W - 1 then ∀ i ≤ max, map i = 0 else InLimit map (index + 1) max

section
variable {map : ℕ → ℕ} {i lo max old : ℕ} {r : ℕ × ℕ}

theorem Lowest.absent_of (hr : r.1 = 0) (h : Lowest map lo max old r) :
    r = (0, old) ∧ ∀ j, lo ≤ j → j ≤ max → map j = 0 := by
  cases h with
  | found _ _ h0 => exact absurd hr h0
  | absent hno => exact ⟨rfl, hno⟩

theorem Searched.lowest_iff (h : Searched map i max old r) :
    Lowest map i max old r ↔ InLimit map i max := by
  unfold Searched at h
  unfold InLimit
  by_cases h0 : map i ≠ 0
  · rw [if_pos h0] at h
    subst h
    constructor
    · rintro hlow ⟨hlt, -⟩
      generalize hr : (map i, i) = r at hlow
      cases hlow with
      | found hlo hmax => omega
      | absent => exact h0 (congrArg Prod.fst hr)
    · intro hle
      exact .found le_rfl (not_lt.mp fun hlt => hle ⟨hlt, h0⟩) h0 fun j h1 h2 => absurd h2 (by omega)
  · rw [if_neg h0] at h
    exact ⟨fun _ hc => h0 hc.2, fun _ => h⟩

/-- A search from zero finds nothing above the last index. -/
theorem Searched.lowest_above_iff (h : Searched map 0 max old r) (hmax : max < lo) :
    Lowest map lo max old r ↔ ∀ i ≤ max, map i = 0 := by
  have hnone : Lowest map lo max old r → r = (0, old) := fun hlow => by
    cases hlow with
    | found hlo hle => omega
    | absent => rfl
  have habsent : Lowest map lo max old (0, old) := .absent fun j h1 h2 => absurd h2 (by omega)
  unfold Searched at h
  constructor
  · intro hlow i hi
    have hr := hnone hlow
    subst hr
    by_cases h0 : map 0 ≠ 0
    · rw [if_pos h0] at h
      exact absurd (congrArg Prod.fst h).symm h0
    · rw [if_neg h0] at h
      exact (h.absent_of rfl).2 i (Nat.zero_le i) hi
  · intro hno
    rw [if_neg (not_not.mpr (hno 0 (Nat.zero_le _)))] at h
    cases h with
    | found _ hle h0 => exact absurd (hno _ hle) h0
    | absent => exact habsent

end

theorem findOk_iff (h : SysInv W x pre) (hW : 6 ≤ W) (hbound : Bounded W x.xa pre) {index : ℕ}
    (max : ℕ) (hi : index < 2 ^ W) : FindOk W x index max ↔ InLimit x.map index max := by
  constructor
  · rintro ⟨N, hN⟩
    obtain ⟨r, heq, hres⟩ := xaFind_spec h hW hbound max hi (Nat.le_max_right N (searchFuel W x.xa))
    obtain ⟨r', heq', hlow⟩ := hN _ (Nat.le_max_left N (searchFuel W x.xa))
    rw [heq] at heq'
    cases heq'
    exact hres.lowest_iff.mp hlow
  · refine fun hlim => ⟨searchFuel W x.xa, fun fuel hf => ?_⟩
    obtain ⟨r, heq, hres⟩ := xaFind_spec h hW hbound max hi hf
    exact ⟨r, heq, hres.lowest_iff.mpr hlim⟩

/-- The result of `xa_find_after` is as documented. -/
theorem after_lowest_iff {map : ℕ → ℕ} {index max : ℕ} {r : ℕ × ℕ} (hi : index < 2 ^ W)
    (hmax : max < 2 ^ W) (h : Searched map ((index + 1) % 2 ^ W) max index r) :
    Lowest map (index + 1) max index r ↔ InLimitAfter W map index max := by
  unfold InLimitAfter
  by_cases hlast : index = 2 ^ W - 1
  · have hwrap : index + 1 = 2 ^ W := by omega
    rw [hwrap, Nat.mod_self] at h
    rw [if_pos hlast]
    exact h.lowest_above_iff (by omega)
  · rw [Nat.mod_eq_of_lt (by omega)] at h
    rw [if_neg hlast]
    exact h.lowest_iff

theorem afterOk_iff (h : SysInv W x pre) (hW : 6 ≤ W) (hbound : Bounded W x.xa pre) {index max : ℕ}
    (hi : index < 2 ^ W) (hmax : max < 2 ^ W) :
    AfterOk W x index max ↔ InLimitAfter W x.map index max := by
  constructor
  · rintro ⟨N, hN⟩
    obtain ⟨r, heq, hres⟩ := xaFindAfter_spec h hW hbound index max
      (Nat.le_max_right N (searchFuel W x.xa))
    obtain ⟨r', heq', hlow⟩ := hN _ (Nat.le_max_left N (searchFuel W x.xa))
    rw [heq] at heq'
    cases heq'
    exact (after_lowest_iff hi hmax hres).mp hlow
  · refine fun hlim => ⟨searchFuel W x.xa, fun fuel hf => ?_⟩
    obtain ⟨r, heq, hres⟩ := xaFindAfter_spec h hW hbound index max hf
    exact ⟨r, heq, (after_lowest_iff hi hmax hres).mpr hlim⟩

/-! ### `xa_for_each` -/

/-- All entries of the map are at indices of `unsigned long`. -/
def MapBounded (W : ℕ) (map : ℕ → ℕ) : Prop := ∀ i, 2 ^ W ≤ i → map i = 0

theorem MapBounded.bounded (hb : MapBounded W x.map) (h : SysInv W x pre) : Bounded W x.xa pre := by
  intro i a ha
  by_contra hi
  obtain ⟨rfl, h0⟩ := (h.has i a).mp ha
  exact h0 (hb i (not_lt.mp hi))

/-- Nothing up to `~0UL` is nothing at all. -/
theorem MapBounded.none_left {map : ℕ → ℕ} {lo : ℕ} (hb : MapBounded W map)
    (hno : ∀ j, lo ≤ j → j ≤ 2 ^ W - 1 → map j = 0) : ∀ j, lo ≤ j → map j = 0 := by
  intro j hj
  rcases Nat.lt_or_ge j (2 ^ W) with h | h
  · exact hno j hj (by omega)
  · exact hb j h

/-- **`xa_for_each` from an entry on**, where there is none at the last index. -/
theorem forEachLoop_spec (h : SysInv W x pre) (hW : 6 ≤ W) (hb : MapBounded W x.map)
    (hlast : x.map (2 ^ W - 1) = 0) {fuel : ℕ} (hf : searchFuel W x.xa ≤ fuel) :
    ∀ (k lo old : ℕ) (r : ℕ × ℕ), Lowest x.map lo (2 ^ W - 1) old r → 2 ^ W - lo < k →
      ∃ l, forEachLoop W fuel x.xa k r.1 r.2 = some l ∧
        Enumerates (Present x.map) lo l := by
  intro k
  induction k with
  | zero => exact fun _ _ _ _ hk => absurd hk (Nat.not_lt_zero _)
  | succ k ih =>
    rintro lo old _ (@⟨i, hlo, hmax, h0, hno⟩ | hno) hk
    · have hi : i + 1 < 2 ^ W := by
        have hne : i ≠ 2 ^ W - 1 := by
          rintro rfl
          exact h0 hlast
        omega
      obtain ⟨r, heq, hres⟩ := xaFindAfter_spec h hW (hb.bounded h) i (2 ^ W - 1) hf
      rw [Nat.mod_eq_of_lt hi] at hres
      have hlow : Lowest x.map (i + 1) (2 ^ W - 1) i r := hres.lowest_iff.mpr fun hc => by omega
      obtain ⟨l, hl, hlist⟩ := ih (i + 1) i r hlow (by omega)
      have hpresent : ∀ e, Present x.map i e ↔ x.map i = e :=
        fun e => ⟨And.left, fun he => ⟨he, he ▸ h0⟩⟩
      refine ⟨(i, x.map i) :: l, ?_, hlist.cons hlo hpresent fun j e h1 h2 he => ?_⟩
      swap
      · exact he.2 (he.1.symm.trans (hno j h1 h2))
      rw [forEachLoop, if_neg h0, heq]
      simp only [Option.bind_eq_bind, Option.bind_some, hl]
    · refine ⟨[], ?_, .nil fun j e hj he => he.2 (he.1.symm.trans (hb.none_left hno j hj))⟩
      rw [forEachLoop, if_pos rfl]

/-- With an entry at the last index the search after it starts again. -/
theorem forEachLoop_none (h : SysInv W x pre) (hW : 6 ≤ W) (hb : MapBounded W x.map)
    (hlast : x.map (2 ^ W - 1) ≠ 0) {fuel : ℕ} (hf : searchFuel W x.xa ≤ fuel) :
    ∀ (k i : ℕ), x.map i ≠ 0 → forEachLoop W fuel x.xa k (x.map i) i = none := by
  intro k
  induction k with
  | zero => exact fun _ _ => rfl
  | succ k ih =>
    intro i h0
    obtain ⟨r, heq, hres⟩ := xaFindAfter_spec h hW (hb.bounded h) i (2 ^ W - 1) hf
    have hword : (i + 1) % 2 ^ W < 2 ^ W := Nat.mod_lt _ (by positivity)
    have hlow := hres.lowest_iff.mpr fun hc => by omega
    rw [forEachLoop, if_neg h0, heq]
    simp only [Option.bind_eq_bind, Option.bind_some]
    cases hlow with
    | found _ _ hj => rw [ih _ hj, Option.bind_none]
    | absent hno => exact absurd (hno _ (by omega) le_rfl) hlast

theorem forEachOk_iff (h : SysInv W x pre) (hW : 6 ≤ W) (hb : MapBounded W x.map) :
    ForEachOk W x ↔ x.map (2 ^ W - 1) = 0 := by
  have hpos : 0 < 2 ^ W := by positivity
  have hfirst : ∀ fuel, searchFuel W x.xa ≤ fuel → ∃ r,
      xaFind W fuel x.xa 0 (2 ^ W - 1) XA_PRESENT = some r ∧ Lowest x.map 0 (2 ^ W - 1) 0 r := by
    intro fuel hf
    obtain ⟨r, heq, hres⟩ := xaFind_spec h hW (hb.bounded h) (2 ^ W - 1) hpos hf
    exact ⟨r, heq, hres.lowest_iff.mpr fun hc => absurd hc.1 (Nat.not_lt_zero _)⟩
  constructor
  · rintro ⟨N, hN⟩
    by_contra hlast
    obtain ⟨l, hl, -⟩ := hN _ (Nat.le_max_left N (searchFuel W x.xa))
    have hf := Nat.le_max_right N (searchFuel W x.xa)
    obtain ⟨r, heq, hlow⟩ := hfirst _ hf
    unfold xaForEach at hl
    rw [heq] at hl
    simp only [Option.bind_eq_bind, Option.bind_some] at hl
    cases hlow with
    | found _ _ h0 => rw [forEachLoop_none h hW hb hlast hf _ _ h0] at hl; cases hl
    | absent hno => exact hlast (hno _ (Nat.zero_le _) le_rfl)
  · intro hlast
    refine ⟨Nat.max (searchFuel W x.xa) (2 ^ W + 1), fun fuel hf => ?_⟩
    have hf1 := (Nat.le_max_left _ _).trans hf
    have hf2 := (Nat.le_max_right _ _).trans hf
    obtain ⟨r, heq, hlow⟩ := hfirst fuel hf1
    obtain ⟨l, hl, hlist⟩ := forEachLoop_spec h hW hb hlast hf1 fuel 0 0 r hlow (by omega)
    refine ⟨l, ?_, hlist⟩
    unfold xaForEach
    rw [heq]
    exact hl

/-! ### Along the runs -/

/-- Storing `NULL` is erasing. -/
theorem xaStore_null (malloc : ℕ → Finset ℕ → ℕ) {pre : ℕ → ℕ} (hinv : Inv W xa pre) (h2 : 2 ≤ W)
    (index : ℕ) {fuel : ℕ} (hf : 2 * W + 6 ≤ fuel) :
    xaStore W malloc fuel xa index 0 = xaErase W malloc fuel xa index := by
  obtain ⟨xas, e, heq, h⟩ := Store.xasStore_null malloc hinv index hf
  obtain ⟨k, rfl⟩ : ∃ k, fuel = k + 1 := ⟨fuel - 1, by omega⟩
  have hne : xas.node ≠ xaError W ENOMEM := fun he => h.noError (he ▸ Store.xaIsInternal_xaError h2 ENOMEM)
  have hloop : storeLoop W malloc (k + 1) 0 (k + 1) (xaState xa index) =
      some ({ xas with alloc := 0 }, e) := by
    rw [storeLoop, heq]
    simp only [Option.bind_eq_bind, Option.bind_some, if_neg h.inv.track, xasNomem, if_pos hne,
      Bool.false_eq_true, if_false]
  have hadv : ¬ xaIsAdvanced 0 := by decide
  unfold xaStore xaErase
  rw [if_neg hadv, if_neg fun ht : xa.trackFree ∧ 0 = 0 => hinv.track ht.1]
  simp only [Option.bind_eq_bind, heq, hloop, Option.bind_some]
  rfl

/-- A call that builds an array: as before, or a store of `NULL`. -/
inductive Builds (W : ℕ) : System → System → Prop
  | call {x y : System} (h : Step W x y) : Builds W x y
  | null {xa xa' : Xarray} {map : ℕ → ℕ} {malloc : ℕ → Finset ℕ → ℕ} {fuel index e : ℕ}
      (hi : index < 2 ^ W) (hf : 2 * W + 6 ≤ fuel)
      (h : xaStore W malloc fuel xa index 0 = some (xa', e)) :
      Builds W ⟨xa, map⟩ ⟨xa', Function.update map index 0⟩

/-- The states of runs from an empty array that does not track free entries. -/
def Built (W : ℕ) (x : System) : Prop :=
  ∃ flags mem calls, ¬ (xarrayInit flags mem calls).trackFree ∧
    Relation.ReflTransGen (Builds W) ⟨xarrayInit flags mem calls, fun _ => 0⟩ x

theorem step_mapBounded {x y : System} (hst : Step W x y) (hb : MapBounded W x.map) :
    MapBounded W y.map := by
  have hupdate : ∀ {map : ℕ → ℕ} {index e : ℕ}, MapBounded W map → index < 2 ^ W →
      MapBounded W (Function.update map index e) := fun hb hi i h => by
    rw [Function.update_of_ne (by omega)]
    exact hb i h
  cases hst with
  | store _ hi =>
    unfold storeMap
    dsimp only
    split_ifs
    · exact hb
    · exact hupdate hb hi
  | erase hi => exact hupdate hb hi

theorem builds_step (hW : W = 32 ∨ W = 64) {x y : System} (h : ∃ pre, SysInv W x pre)
    (hst : Builds W x y) : Step W x y := by
  obtain ⟨pre, h⟩ := h
  cases hst with
  | call hst => exact hst
  | null hi hf hcall =>
    rw [xaStore_null _ h.inv (by omega) _ hf] at hcall
    exact .erase hi hf hcall

theorem built_inv (hW : W = 32 ∨ W = 64) {x : System} (h : Built W x) :
    (∃ pre, SysInv W x pre) ∧ MapBounded W x.map := by
  obtain ⟨flags, mem, calls, htrack, hrun⟩ := h
  refine Lib.Run.invariant (I := fun x => (∃ pre, SysInv W x pre) ∧ MapBounded W x.map)
    ⟨⟨_, init_sysInv htrack⟩, fun _ _ => rfl⟩ ?_ hrun
  rintro x y ⟨hinv, hb⟩ hst
  have hstep := builds_step hW hinv hst
  exact ⟨step_sysInv hW hinv hstep, step_mapBounded hstep hb⟩

/-- **When the searches do what their documentation says**: `xa_find`, unless there is an entry at
`*indexp` and the limit is below it; `xa_find_after`, unless that holds of the next index, or there
is none and it starts again from zero; `xa_for_each`, unless there is an entry at `~0UL`. -/
theorem built_search_iff (hW : W = 32 ∨ W = 64) {x : System} (h : Built W x) :
    (∀ index max, index < 2 ^ W → max < 2 ^ W →
      (FindOk W x index max ↔ InLimit x.map index max) ∧
      (AfterOk W x index max ↔ InLimitAfter W x.map index max)) ∧
    (ForEachOk W x ↔ x.map (2 ^ W - 1) = 0) := by
  obtain ⟨⟨pre, hinv⟩, hb⟩ := built_inv hW h
  have h6 : 6 ≤ W := by omega
  exact ⟨fun index max hi hm => ⟨findOk_iff hinv h6 (hb.bounded hinv) max hi,
    afterOk_iff hinv h6 (hb.bounded hinv) hi hm⟩, forEachOk_iff hinv h6 hb⟩

/-- The array after a store at index zero. -/
def oneEntry : System := ⟨⟨0, 8, fun _ => zeroNode, ∅, 0⟩, Function.update (fun _ => 0) 0 8⟩

theorem built_oneEntry : Built 64 oneEntry := by
  refine ⟨0, fun _ => zeroNode, 0, by decide, .single (.call ?_)⟩
  have hstore : xaStore 64 nextFree 134 (xarrayInit 0 (fun _ => zeroNode) 0) 0 8 =
      some (oneEntry.xa, 0) := by rfl
  exact Step.store malloc_nextFree (by decide) (by decide) (by decide) le_rfl hstore

theorem built_search_iff_oneEntry : Built 64 oneEntry ∧ FindOk 64 oneEntry 0 0 ∧
    ForEachOk 64 oneEntry := by
  obtain ⟨hfind, heach⟩ := built_search_iff (Or.inr rfl) built_oneEntry
  exact ⟨built_oneEntry, (hfind 0 0 (by decide) (by decide)).1.mpr (by unfold InLimit; omega),
    heach.mpr (by decide)⟩

/-- `xa_find_after` from `~0UL` finds the entry at zero. -/
theorem xaFindAfter_wraps : Built 64 oneEntry ∧
    xaFindAfter 64 3 oneEntry.xa (2 ^ 64 - 1) (2 ^ 64 - 1) XA_PRESENT = some (8, 0) ∧
    ¬ AfterOk 64 oneEntry (2 ^ 64 - 1) (2 ^ 64 - 1) := by
  refine ⟨built_oneEntry, by decide, fun hok => ?_⟩
  obtain ⟨⟨pre, hinv⟩, hb⟩ := built_inv (Or.inr rfl) built_oneEntry
  have hlim := (afterOk_iff hinv (by decide) (hb.bounded hinv) (by decide) (by decide)).mp hok
  unfold InLimitAfter at hlim
  rw [if_pos rfl] at hlim
  exact absurd (hlim 0 (Nat.zero_le _)) (by decide)

end HardStack.XArray.Search
