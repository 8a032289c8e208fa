import HardStack.Lib.Bitmap
import HardStack.XArray.Search

/-! # Searching for a mark

`xas_find_marked` skips the slots of a node whose mark bit is clear and descends where the bit is set.
Where the bits of the inner nodes and the flag of the array stand for the marks of the entries
(`MarkInv`), it finds the first index with a marked entry. -/

namespace HardStack.XArray.Marked

open HardStack.Lib HardStack.Lib.Trie HardStack.XArray.Model HardStack.XArray.Layout
open HardStack.XArray.Search

variable {W : ℕ} {xa : Xarray} {pre : ℕ → ℕ} {mark : ℕ}

/-- The mark at an index: the bit of its slot in a leaf, or the flag of an array without nodes. -/
def MarkedAt (xa : Xarray) (pre : ℕ → ℕ) (mark i : ℕ) : Prop :=
  (∃ n ∈ xa.live, (xa.node n).shift = 0 ∧ pre n = i / 64 ∧ (xa.node n).marks mark (i % 64) = true) ∨
    (¬ xaIsNode xa.head ∧ i = 0 ∧ xa.marked mark = true)

/-- **The mark invariant**: only entries are marked; the bit of an inner slot is set if and only if
some entry below it is marked, and the flag if and only if some entry is. -/
structure MarkInv (xa : Xarray) (pre : ℕ → ℕ) (mark : ℕ) : Prop where
  entry : ∀ i, MarkedAt xa pre mark i → ∃ a, Has xa pre i a
  inner : ∀ n ∈ xa.live, (xa.node n).shift ≠ 0 → ∀ o < 64, ((xa.node n).marks mark o = true ↔
    ∃ i, pos 6 (view xa pre) n o ≤ i ∧ i < pos 6 (view xa pre) n (o + 1) ∧ MarkedAt xa pre mark i)
  flag : xa.marked mark = true ↔ ∃ i, MarkedAt xa pre mark i

/-- No marked entry from `lo` on and before `hi`. -/
def NoMark (xa : Xarray) (pre : ℕ → ℕ) (mark lo hi : ℕ) : Prop :=
  ∀ i, lo ≤ i → i < hi → ¬ MarkedAt xa pre mark i

theorem NoMark.append {lo mid hi : ℕ} (h1 : NoMark xa pre mark lo mid)
    (h2 : NoMark xa pre mark mid hi) : NoMark xa pre mark lo hi := fun i hlo hhi => by
  rcases Nat.lt_or_ge i mid with h | h
  · exact h1 i hlo h
  · exact h2 i h hhi

theorem NoMark.mono {lo hi hi' : ℕ} (h : NoMark xa pre mark lo hi) (hle : hi' ≤ hi) :
    NoMark xa pre mark lo hi' := fun i h1 h2 => h i h1 (h2.trans_le hle)

namespace MarkInv

variable {n o i : ℕ}

/-- A slot of any node is marked if and only if an entry below it is. -/
theorem mark_iff (h : MarkInv xa pre mark) (hinv : Inv W xa pre) (hn : n ∈ xa.live) (ho : o < 64) :
    (xa.node n).marks mark o = true ↔ ∃ i, pos 6 (view xa pre) n o ≤ i ∧
      i < pos 6 (view xa pre) n (o + 1) ∧ MarkedAt xa pre mark i := by
  by_cases hs : (xa.node n).shift = 0
  · have hpos : ∀ o, pos 6 (view xa pre) n o = pre n * 64 + o := fun o => by
      show (pre n * 2 ^ 6 + o) * 2 ^ (xa.node n).shift = _
      rw [hs, pow_zero, Nat.mul_one]
      rfl
    rw [hpos, hpos]
    constructor
    · refine fun hmark => ⟨pre n * 64 + o, le_rfl, Nat.lt_succ_self _, Or.inl ⟨n, hn, hs, by omega, ?_⟩⟩
      rwa [Nat.mul_add_mod_of_lt ho]
    · rintro ⟨i, h1, h2, ⟨m, hm, hms, hmp, hmark⟩ | ⟨hhead, -⟩⟩
      · have heq : n = m := by
          refine hinv.wf.unique (by decide) hn hm (hs.trans hms.symm) ?_
          show pre n = pre m
          omega
        subst heq
        rwa [show i % 64 = o by omega] at hmark
      · obtain ⟨r, hr, -⟩ := hinv.wf.exists_root (by decide) n hn
        exact absurd (decode_eq_node.mp hr).1 hhead
  · exact h.inner n hn hs o ho

/-- No mark at the slots that a scan of the bits skips. -/
theorem noMark_skip (h : MarkInv xa pre mark) (hinv : Inv W xa pre) (hn : n ∈ xa.live) {o' : ℕ}
    (ho' : o' ≤ 64) (hclear : ∀ d, o ≤ d → d < o' → (xa.node n).marks mark d = false) :
    NoMark xa pre mark (pos 6 (view xa pre) n o) (pos 6 (view xa pre) n o') := by
  intro i h1 h2 hi
  obtain ⟨d, hod, hdo, hle, hlt⟩ := exists_slot h1 h2
  have hmark := (h.mark_iff hinv hn (by omega)).mpr ⟨i, hle, hlt, hi⟩
  rw [hclear d hod hdo] at hmark
  cases hmark

/-- A marked slot that holds no node is the slot of a marked entry. -/
theorem marked_slot (h : MarkInv xa pre mark) (hinv : Inv W xa pre) (hn : n ∈ xa.live) (ho : o < 64)
    (hmark : (xa.node n).marks mark o = true) (hslot : ¬ xaIsNode ((xa.node n).slots o))
    (h1 : pos 6 (view xa pre) n o ≤ i) (h2 : i < pos 6 (view xa pre) n (o + 1)) :
    Has xa pre i ((xa.node n).slots o) ∧ MarkedAt xa pre mark i := by
  obtain ⟨j, hj1, hj2, hj⟩ := (h.mark_iff hinv hn ho).mp hmark
  obtain ⟨a, ha⟩ := h.entry j hj
  have h0 : (xa.node n).slots o ≠ 0 := fun h0 =>
    hinv.wf.not_holds_empty (by decide) hn ho (decode_eq_empty.mpr h0) hj1 hj2 a ha
  have hitem : ((view xa pre).cell n).slot o = .item ((xa.node n).slots o) := decode_item h0 hslot
  have hs : ((view xa pre).cell n).shift = 0 := hinv.wf.leaf n hn o ho _ hitem
  have hnext := pos_add (b := 6) (T := view xa pre) n o 1
  rw [hs, pow_zero, Nat.mul_one] at hnext
  have hij : j = i := by omega
  have hio : pos 6 (view xa pre) n o = i := by omega
  exact ⟨hio ▸ hinv.wf.holds_pos hn ho hitem, hij ▸ hj⟩

end MarkInv

/-! ### The loop -/

/-- The index of the cursor is at its slot, or at the end of the node. -/
def At (xa : Xarray) (pre : ℕ → ℕ) (n o i : ℕ) : Prop :=
  (o < 64 ∧ pos 6 (view xa pre) n o ≤ i ∧ i < pos 6 (view xa pre) n (o + 1)) ∨
    (o = 64 ∧ i = pos 6 (view xa pre) n 64)

theorem At.slot {n o : ℕ} (ho : o ≤ 64) : At xa pre n o (pos 6 (view xa pre) n o) := by
  rcases Nat.eq_or_lt_of_le ho with rfl | h
  · exact Or.inr ⟨rfl, rfl⟩
  · exact Or.inl ⟨h, le_rfl, pos_lt n (Nat.lt_succ_self o)⟩

/-- **Mind the wrap**: the comparison of the source after a move to the position `p`. -/
theorem wrap_iff {p max : ℕ} (hp : 0 < p) (hmax : max < 2 ^ W) (hw : p ≤ 2 ^ W ∨ p % 2 ^ W = 0) :
    (p % 2 ^ W + (2 ^ W - 1)) % 2 ^ W ≥ max ∧ max < p ∨
      ¬ (p % 2 ^ W + (2 ^ W - 1)) % 2 ^ W ≥ max ∧ p % 2 ^ W = p ∧ p ≤ max := by
  by_cases h0 : p % 2 ^ W = 0
  · left
    have hle : 2 ^ W ≤ p := Nat.le_of_dvd hp (Nat.dvd_of_mod_eq_zero h0)
    rw [h0, Nat.zero_add, Nat.mod_eq_of_lt (by omega)]
    omega
  · have hlt : p < 2 ^ W := by
      rcases hw with h | h
      · refine lt_of_le_of_ne h fun he => h0 ?_
        rw [he, Nat.mod_self]
      · exact absurd h h0
    have hpred : (p + (2 ^ W - 1)) % 2 ^ W = p - 1 := by
      rw [show p + (2 ^ W - 1) = p - 1 + 2 ^ W by omega, Nat.add_mod_right, Nat.mod_eq_of_lt (by omega)]
    rw [Nat.mod_eq_of_lt hlt, hpred]
    omega

/-- What a search for the first marked entry from `lo` to `max` returns. -/
inductive FoundMark (xa : Xarray) (pre : ℕ → ℕ) (mark lo max : ℕ) : XaState × ℕ → Prop
  | found {xas : XaState} {a : ℕ} (h : Has xa pre xas.index a) (hmark : MarkedAt xa pre mark xas.index)
      (hlo : lo ≤ xas.index) (hmax : xas.index ≤ max) (hno : NoMark xa pre mark lo xas.index) :
      FoundMark xa pre mark lo max (xas, a)
  | nothing {xas : XaState} (hno : NoMark xa pre mark lo (max + 1)) :
      FoundMark xa pre mark lo max (xas, 0)

theorem findMarkedOut_nothing {lo max : ℕ} (xas : XaState) (hno : NoMark xa pre mark lo (max + 1)) :
    FoundMark xa pre mark lo max (findMarkedOut max xas) := by
  unfold findMarkedOut
  split
  · exact .nothing hno
  · exact .nothing hno

/-- All marks are at words. -/
theorem MarkInv.lt {i : ℕ} (h : MarkInv xa pre mark) (hbound : Bounded W xa pre)
    (hi : MarkedAt xa pre mark i) : i < 2 ^ W := by
  obtain ⟨a, ha⟩ := h.entry i hi
  exact hbound i a ha

/-- **The loop of `xas_find_marked`**, from a cursor with no mark before it. -/
theorem findMarkedLoop_spec (hinv : Inv W xa pre) (hW : 6 ≤ W) (hbound : Bounded W xa pre)
    (hm : MarkInv xa pre mark) (hr : xaIsNode xa.head) {lo max : ℕ} (hmax : max < 2 ^ W) (al : ℕ) :
    ∀ (fuel n o i : ℕ), n ∈ xa.live → At xa pre n o i → i < 2 ^ W → lo ≤ i →
      NoMark xa pre mark lo i → cost 6 (view xa pre) (xa.node (xaToNode xa.head)).shift n o < fuel →
      ∃ r, findMarkedLoop W max mark fuel ⟨xa, i, o, n, al⟩ false = some r ∧
        FoundMark xa pre mark lo max r
  | 0, _, _, _, _, _, _, _, _, hf => absurd hf (Nat.not_lt_zero _)
  | fuel + 1, n, o, i, hn, hat, hi, hlo, hno, hf => by
    have hroot := @root_eq xa pre hr
    have hsize : XA_CHUNK_SIZE = 64 := rfl
    -- a marked slot at the index: the entry, or the node below it
    have hslot : ∀ o i, o < 64 → pos 6 (view xa pre) n o ≤ i → i < pos 6 (view xa pre) n (o + 1) →
        i < 2 ^ W → lo ≤ i → i ≤ max → NoMark xa pre mark lo i → (xa.node n).marks mark o = true →
        cost 6 (view xa pre) (xa.node (xaToNode xa.head)).shift n o < fuel + 1 →
        ∃ r, (if ¬ xaIsNode ((xa.node n).slots o) then some (⟨xa, i, o, n, al⟩, (xa.node n).slots o)
          else findMarkedLoop W max mark fuel (xasSetOffset ⟨xa, i, o,
            xaToNode ((xa.node n).slots o), al⟩) false) = some r ∧ FoundMark xa pre mark lo max r := by
      intro o i ho h1 h2 hi hlo hle hno hmark hf
      by_cases hnode : xaIsNode ((xa.node n).slots o)
      · rw [if_neg (not_not.mpr hnode)]
        have hchild : ((view xa pre).cell n).slot o = .node (xaToNode ((xa.node n).slots o)) :=
          decode_eq_node.mpr ⟨hnode, rfl⟩
        obtain ⟨hoff, hdig⟩ := digits_of_pos (b := 6) (T := view xa pre) ho h1 h2
        obtain ⟨hs, -⟩ := SlotOf.down hinv ⟨hn, hdig, hoff.symm⟩ hnode
        obtain ⟨hc1, hc2⟩ := slotOf_pos_le hs
        have hcost := hinv.wf.cost_child (by decide) (xa.node (xaToNode xa.head)).shift hn ho hchild
          (show getOffset xa i (xaToNode ((xa.node n).slots o)) < 2 ^ 6 from hs.offset_lt)
        exact findMarkedLoop_spec hinv hW hbound hm hr hmax al fuel _ _ i hs.live
          (Or.inl ⟨hs.offset_lt, hc1, hc2⟩) hi hlo hno (Nat.lt_of_lt_of_le hcost (Nat.le_of_lt_succ hf))
      · rw [if_pos hnode]
        obtain ⟨hhas, hat⟩ := hm.marked_slot hinv hn ho hmark hnode h1 h2
        exact ⟨_, rfl, .found hhas hat hlo hle hno⟩
    rw [findMarkedLoop, hsize]
    dsimp only
    by_cases hle : i ≤ max
    · rw [if_pos hle]
      rcases hat with ⟨ho, h1, h2⟩ | ⟨rfl, rfl⟩
      · rw [if_neg (show o ≠ 64 by omega)]
        -- the scan of the mark bits
        obtain ⟨hge, hle64, hclear, hset⟩ := Bitmap.next_spec (p := (xa.node n).marks mark) ho.le
        have hchunk : xasFindChunk ⟨xa, i, o, n, al⟩ false mark =
            Bitmap.next ((xa.node n).marks mark) 64 o := rfl
        rw [hchunk]
        generalize Bitmap.next ((xa.node n).marks mark) 64 o = o' at hge hle64 hclear hset ⊢
        have hskip := (hm.noMark_skip hinv hn hle64 hclear)
        rcases Nat.eq_or_lt_of_le hge with rfl | hgt
        · rw [if_neg (lt_irrefl o)]
          exact hslot o i ho h1 h2 hi hlo hle hno (hset ho) hf
        · rw [if_pos hgt]
          obtain ⟨-, hdig⟩ := digits_of_pos (b := 6) (T := view xa pre) ho h1 h2
          have hmove := moveIndex_eq hinv hW hn hdig o' o al
          rw [Nat.mod_eq_of_lt hi] at hmove
          rw [hmove]
          dsimp only
          have hnext : i < pos 6 (view xa pre) n o' := h2.trans_le (pos_mono n hgt)
          have hno' : NoMark xa pre mark lo (pos 6 (view xa pre) n o') :=
            hno.append fun j hj1 hj2 => hskip j (h1.trans hj1) hj2
          have hwrap : pos 6 (view xa pre) n o' ≤ 2 ^ W ∨ pos 6 (view xa pre) n o' % 2 ^ W = 0 := by
            rcases Nat.eq_or_lt_of_le hle64 with rfl | hlt
            · exact pos_end (((pos_mono n (Nat.zero_le o)).trans h1).trans_lt hi)
            · obtain ⟨j, hj1, -, hj⟩ := (hm.mark_iff hinv hn hlt).mp (hset hlt)
              exact Or.inl (hj1.trans (hm.lt hbound hj).le)
          obtain ⟨hstop, hlt⟩ | ⟨hgo, hmod, hle'⟩ := wrap_iff (Nat.zero_lt_of_lt hnext) hmax hwrap
          · rw [if_pos hstop]
            exact ⟨_, rfl, .nothing (hno'.mono hlt)⟩
          · rw [if_neg hgo, hmod]
            have hword := hle'.trans_lt hmax
            have hcost := hinv.wf.cost_next (by decide) hroot hn hgt hle64
            have hf' := Nat.lt_of_lt_of_le hcost (Nat.le_of_lt_succ hf)
            rcases Nat.eq_or_lt_of_le hle64 with rfl | hlt
            · rw [if_pos rfl]
              exact findMarkedLoop_spec hinv hW hbound hm hr hmax al fuel n 64 _ hn (At.slot le_rfl)
                hword (hlo.trans hnext.le) hno' hf'
            · rw [if_neg hlt.ne]
              exact hslot o' _ hlt le_rfl (pos_lt n (Nat.lt_succ_self o')) hword (hlo.trans hnext.le)
                hle' hno' (hset hlt) (Nat.lt_succ_of_lt hf')
      · rw [if_pos rfl]
        unfold xasClimb
        dsimp only
        by_cases hp : (xa.node n).parent = 0
        · -- the end of the array
          rw [if_pos hp]
          refine ⟨_, rfl, findMarkedOut_nothing _ (hno.append fun j hj _ hmark => ?_)⟩
          obtain ⟨a, ha⟩ := hm.entry j hmark
          have htop : ((view xa pre).cell n).parent = none := if_pos hp
          exact hinv.wf.not_holds_end (by decide) hn htop hj a ha
        · rw [if_neg hp]
          obtain ⟨hpl, hoff, -⟩ := hinv.parent hn hp
          have hpar : ((view xa pre).cell n).parent = some (xa.node n).parent := if_neg hp
          have hpos : pos 6 (view xa pre) (xa.node n).parent ((xa.node n).offset + 1) =
              pos 6 (view xa pre) n 64 := hinv.wf.pos_climb hn hpar
          have hcost := hinv.wf.cost_climb (by decide) hroot hn hpar
          rw [Nat.mod_eq_of_lt (show (xa.node n).offset + 1 < 256 by omega)]
          exact findMarkedLoop_spec hinv hW hbound hm hr hmax al fuel _ _ _ hpl
            (hpos ▸ At.slot (by omega)) hi hlo hno (Nat.lt_of_lt_of_le hcost (Nat.le_of_lt_succ hf))
    · rw [if_neg hle]
      exact ⟨_, rfl, findMarkedOut_nothing _ (hno.mono (by omega))⟩

/-! ### `xas_find_marked` and `xa_find` -/

/-- **`xas_find_marked`** on a new state. -/
theorem xasFindMarked_spec (hinv : Inv W xa pre) (hW : 6 ≤ W) (hbound : Bounded W xa pre)
    (hm : MarkInv xa pre mark) {i max fuel : ℕ} (hi : i < 2 ^ W) (hmax : max < 2 ^ W)
    (hf : searchFuel W xa ≤ fuel) : ∃ r, xasFindMarked W fuel (xaState xa i) max mark = some r ∧
      FoundMark xa pre mark i max r := by
  have h0 : (xaState xa i).node ≠ 0 := by
    show 3 ≠ 0
    decide
  have htop : xasTop (xaState xa i).node := le_refl 3
  unfold xasFindMarked
  rw [if_neg (xasError_xaState i), if_neg h0, if_pos htop]
  unfold xaState
  dsimp only
  by_cases hbeyond : i > maxIndex W xa xa.head
  · rw [if_pos hbeyond]
    refine ⟨_, rfl, findMarkedOut_nothing _ fun j h1 h2 hj => ?_⟩
    obtain ⟨a, ha⟩ := hm.entry j hj
    exact nothing_beyond hinv hi hbeyond _ j a h1 h2 ha
  · rw [if_neg hbeyond]
    rw [maxIndex_lt xa hi] at hbeyond
    by_cases hr : xaIsNode xa.head
    · rw [if_pos hr] at hbeyond
      have hslot := slotOf_head hinv hr (i := i) (by omega)
      have hoff : i / 2 ^ (xa.node (xaToNode xa.head)).shift % 256 =
          getOffset xa i (xaToNode xa.head) := by
        have hlt : i / 2 ^ (xa.node (xaToNode xa.head)).shift < 64 := by
          refine Nat.div_lt_of_lt_mul ?_
          show i < 2 ^ (xa.node (xaToNode xa.head)).shift * 2 ^ 6
          rw [← pow_add]
          omega
        show _ = i / 2 ^ (xa.node (xaToNode xa.head)).shift % 64
        rw [Nat.mod_eq_of_lt hlt, Nat.mod_eq_of_lt (by omega)]
      have hcost : cost 6 (view xa pre) (xa.node (xaToNode xa.head)).shift (xaToNode xa.head)
          (getOffset xa i (xaToNode xa.head)) ≤ totalCost 6 (xa.node (xaToNode xa.head)).shift :=
        hinv.wf.cost_le (by decide) (root_eq hr) hslot.live _
      obtain ⟨hp1, hp2⟩ := slotOf_pos_le hslot
      rw [if_neg (not_not.mpr hr), hoff]
      refine findMarkedLoop_spec hinv hW hbound hm hr hmax 0 fuel _ _ i hslot.live
        (Or.inl ⟨hslot.offset_lt, hp1, hp2⟩) hi le_rfl (fun j h1 h2 => absurd h2 (by omega)) ?_
      unfold searchFuel at hf
      omega
    · rw [if_neg hr] at hbeyond
      obtain rfl : i = 0 := by omega
      rw [if_pos hr]
      by_cases hflag : xa.marked mark = true
      · rw [if_pos hflag]
        have hat : MarkedAt xa pre mark 0 := Or.inr ⟨hr, rfl, hflag⟩
        obtain ⟨a, ha⟩ := hm.entry 0 hat
        obtain ⟨⟨rfl, -⟩, -⟩ := (has_head hr hinv).mp ha
        exact ⟨_, rfl, .found ha hat le_rfl (Nat.zero_le max) fun j _ h2 => absurd h2 (Nat.not_lt_zero j)⟩
      · rw [if_neg hflag]
        exact ⟨_, rfl, findMarkedOut_nothing _ fun j _ _ hj => hflag (hm.flag.mpr ⟨j, hj⟩)⟩

theorem has_ne_zero {i a : ℕ} (h : Has xa pre i a) : a ≠ 0 := by
  rcases h with ⟨n, -, -, -, hslot⟩ | ⟨hroot, -⟩
  · obtain ⟨rfl, h0, -⟩ := decode_eq_item.mp hslot
    exact h0
  · obtain ⟨rfl, h0, -⟩ := decode_eq_item.mp hroot
    exact h0

/-- The marked entry with the lowest index from `lo` to `max`, and the index; `NULL` and the old index
if there is none. -/
inductive LowestMarked (xa : Xarray) (pre : ℕ → ℕ) (mark lo max old : ℕ) : ℕ × ℕ → Prop
  | found {i a : ℕ} (h : Has xa pre i a) (hmark : MarkedAt xa pre mark i) (hlo : lo ≤ i)
      (hmax : i ≤ max) (hno : NoMark xa pre mark lo i) : LowestMarked xa pre mark lo max old (a, i)
  | absent (hno : NoMark xa pre mark lo (max + 1)) : LowestMarked xa pre mark lo max old (0, old)

/-- An array with marks: the invariant, with entries that are not internal at indices of
`unsigned long`, and the mark invariant of every mark. -/
structure MarkedArray (W : ℕ) (xa : Xarray) (pre : ℕ → ℕ) : Prop where
  inv : Inv W xa pre
  bounded : Bounded W xa pre
  plain : ∀ i a, Has xa pre i a → ¬ xaIsInternal a
  marks : ∀ mark < XA_MAX_MARKS, MarkInv xa pre mark

/-- **`xa_find` with a mark** returns, with the lowest marked index from `*indexp` to `max`. -/
theorem xaFind_lowestMarked (hW : W = 32 ∨ W = 64) (h : MarkedArray W xa pre)
    (hmark : mark < XA_MAX_MARKS) {index max : ℕ} (hi : index < 2 ^ W) (hmax : max < 2 ^ W) :
    ∃ N, ∀ fuel, N ≤ fuel → ∃ r, xaFind W fuel xa index max mark = some r ∧
      LowestMarked xa pre mark index max index r := by
  refine ⟨searchFuel W xa, fun fuel hf => ?_⟩
  obtain ⟨⟨xas, e⟩, hfind, hres⟩ := xasFindMarked_spec h.inv (by omega) h.bounded (h.marks mark hmark)
    hi hmax hf
  have hplain : ¬ xaIsInternal e := by
    cases hres with
    | found hhas => exact h.plain _ _ hhas
    | nothing => decide
  obtain ⟨k, rfl⟩ : ∃ k, fuel = k + 1 := ⟨fuel - 1, by unfold searchFuel at hf; omega⟩
  have hloop : xaFindLoop W (k + 1) max mark (k + 1) (xaState xa index) = some (xas, e) := by
    rw [xaFindLoop, findFilter, if_pos hmark, hfind]
    simp only [Option.bind_eq_bind, Option.bind_some, not_retry hplain, Bool.false_eq_true, if_false]
  unfold xaFind
  rw [hloop]
  refine ⟨_, rfl, ?_⟩
  cases hres with
  | found hhas hat hlo hle hno =>
    rw [if_pos (has_ne_zero hhas)]
    exact .found hhas hat hlo hle hno
  | nothing hno => exact .absent hno

/-- An array with one entry, which has the mark 1. -/
def oneMarked : Xarray := ⟨2 ^ 24, 8, fun _ => zeroNode, ∅, 0⟩

theorem oneMarked_array : ∃ pre, MarkedArray 64 oneMarked pre := by
  have hstore : xaStore 64 Run.nextFree 134 (Run.xarrayInit (2 ^ 24) (fun _ => zeroNode) 0) 0 8 =
      some (oneMarked, 0) := by rfl
  have hbuilt : Built 64 ⟨oneMarked, Run.storeMap 64 (fun _ => 0) 0 8 0⟩ :=
    ⟨2 ^ 24, fun _ => zeroNode, 0, by decide, .single (.call
      (.store Run.malloc_nextFree (by decide) (by decide) (by decide) le_rfl hstore))⟩
  obtain ⟨⟨pre, hsys⟩, hb⟩ := built_inv (Or.inr rfl) hbuilt
  have hr : ¬ xaIsNode oneMarked.head := by decide
  have hat : ∀ {mark i}, MarkedAt oneMarked pre mark i ↔ i = 0 ∧ oneMarked.marked mark = true := by
    intro mark i
    constructor
    · rintro (⟨n, hn, -⟩ | ⟨-, h⟩)
      · exact absurd hn (Finset.notMem_empty n)
      · exact h
    · exact fun h => Or.inr ⟨hr, h⟩
  refine ⟨pre, hsys.inv, hb.bounded hsys, hsys.has_plain, fun mark _ => ⟨fun i hi => ?_,
    fun n hn => absurd hn (Finset.notMem_empty n), ?_⟩⟩
  · obtain ⟨rfl, -⟩ := hat.mp hi
    exact ⟨8, (has_head hr hsys.inv).mpr ⟨⟨rfl, by decide⟩, rfl⟩⟩
  · exact ⟨fun h => ⟨0, hat.mpr ⟨rfl, h⟩⟩, fun ⟨i, hi⟩ => (hat.mp hi).2⟩

theorem xaFind_lowestMarked_oneMarked : ∃ pre, MarkedArray 64 oneMarked pre ∧
    ∃ N, ∀ fuel, N ≤ fuel → ∃ r, xaFind 64 fuel oneMarked 0 5 1 = some r ∧
      LowestMarked oneMarked pre 1 0 5 0 r := by
  obtain ⟨pre, h⟩ := oneMarked_array
  exact ⟨pre, h, xaFind_lowestMarked (Or.inr rfl) h (by decide) (by decide) (by decide)⟩

end HardStack.XArray.Marked
