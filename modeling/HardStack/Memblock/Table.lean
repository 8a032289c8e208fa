import HardStack.Memblock.Regions

/-! # The passes over one region array

The loops run over an index of the array they edit. With the array written as the regions before the
index and the regions from it on, an insertion at the index goes between the two, and each loop is the
function of the list it stands for: `fill` for the passes of `memblock_add_range`; for
`memblock_isolate_range` the regions below the range, those inside and those above. -/

namespace HardStack.Memblock.Table

open HardStack.Memblock.Model HardStack.Memblock.Regions

/-- **The representation invariant** of a `memblock_type`, with regions `g` apart. -/
structure Wf (g : ℕ) (type : MemblockType) : Prop where
  cnt_pos : type.regions ≠ []
  cnt_le : type.cnt ≤ type.max
  apart : Apart g type.regions
  fin_le : ∀ r ∈ type.regions, r.fin ≤ PHYS_ADDR_MAX
  sum : type.totalSize = total type.regions
  sizes : (∀ r ∈ type.regions, 0 < r.size) ∨ ∃ r, type.regions = [r] ∧ r.size = 0
  flags : 0 < g → ∀ r ∈ type.regions, r.flags = 0

variable {type type' : MemblockType} {pre suf : List Region} {base fin flags g : ℕ}

theorem Apart.mono {L : List Region} {g g' : ℕ} (h : Apart g L) (hg : g' ≤ g) : Apart g' L :=
  h.imp fun hab => by omega

theorem insertIdx_length (r : Region) : (pre ++ suf).insertIdx pre.length r = pre ++ r :: suf := by
  induction pre with
  | nil => rfl
  | cons a pre ih =>
    rw [List.cons_append, List.length_cons, List.insertIdx_succ_cons, ih, List.cons_append]

theorem region_length {r : Region} (h : type.regions = pre ++ r :: suf) :
    type.region pre.length = r := by
  unfold MemblockType.region
  rw [h, List.getD_eq_getElem?_getD, List.getElem?_append_right le_rfl, Nat.sub_self]
  rfl

theorem set_length {r r' : Region} : (pre ++ r :: suf).set pre.length r' = pre ++ r' :: suf := by
  rw [List.set_append_right _ _ le_rfl, Nat.sub_self]
  rfl

/-- **Inserting** between the regions before the index and those from it on. -/
theorem insertRegion_spec {size : ℕ} (h : type.regions = pre ++ suf)
    (he : insertRegion type pre.length base size flags = some type') :
    type' = { type with
      regions := pre ++ ⟨base, size, flags⟩ :: suf
      totalSize := type.totalSize + size } ∧ type.cnt < type.max := by
  unfold insertRegion at he
  split_ifs at he with hc
  cases he
  rw [h, insertIdx_length]
  exact ⟨rfl, by omega⟩

/-! ### The passes of `memblock_add_range` -/

/-- What a pass leaves: the regions `L`, and everything else as it was. -/
structure Passed (type type' : MemblockType) (L : List Region) : Prop where
  regions : type'.regions = L
  max : type'.max = type.max
  array : type'.array = type.array
  sum : type'.totalSize + total type.regions = type.totalSize + total L
  cnt_le : type.cnt ≤ type.max → type'.cnt ≤ type'.max

theorem Passed.refl (type : MemblockType) : Passed type type type.regions :=
  ⟨rfl, rfl, rfl, rfl, fun h => h⟩

theorem Passed.trans {type₁ type₂ type₃ : MemblockType} {L M : List Region}
    (h1 : Passed type₁ type₂ L) (h2 : Passed type₂ type₃ M) : Passed type₁ type₃ M := by
  have hs1 := h1.sum
  have hs2 := h2.sum
  rw [h1.regions] at hs2
  exact ⟨h2.regions, h2.max.trans h1.max, h2.array.trans h1.array, by omega,
    fun h => h2.cnt_le (h1.cnt_le h)⟩

theorem insertRegion_passed {size : ℕ} (h : type.regions = pre ++ suf)
    (he : insertRegion type pre.length base size flags = some type') :
    Passed type type' (pre ++ ⟨base, size, flags⟩ :: suf) := by
  obtain ⟨rfl, hlt⟩ := insertRegion_spec h he
  refine ⟨rfl, rfl, rfl, ?_, fun _ => ?_⟩
  · rw [h, total_append, total_append, total_cons]
    dsimp only
    omega
  · unfold MemblockType.cnt at hlt ⊢
    rw [h, List.length_append] at hlt
    simp only [List.length_append, List.length_cons]
    omega

theorem addRest_insert {idx nr : ℕ} (hb : base < fin) :
    addRest true fin flags (type, idx, base, nr) =
      (insertRegion type idx base (fin - base) flags).map fun type => (type, nr + 1) := by
  unfold addRest
  dsimp only
  rw [if_pos hb, if_pos rfl]

theorem addRest_count {idx nr : ℕ} (hb : base < fin) :
    addRest false fin flags (type, idx, base, nr) = some (type, nr + 1) := by
  unfold addRest
  dsimp only
  rw [if_pos hb]
  rfl

theorem addRest_none {insert : Bool} {idx nr : ℕ} (hb : ¬ base < fin) :
    addRest insert fin flags (type, idx, base, nr) = some (type, nr) := by
  unfold addRest
  dsimp only
  rw [if_neg hb]

/-- **The inserting pass** fills the range. -/
theorem addLoop_insert : ∀ (suf pre : List Region) (type : MemblockType) (base nr : ℕ)
    {type' : MemblockType} {nr' : ℕ}, type.regions = pre ++ suf →
    (addLoop true fin flags suf.length type pre.length base nr).bind (addRest true fin flags) =
      some (type', nr') →
    Passed type type' (pre ++ fill fin flags base suf) ∧
      (fill fin flags base suf).length + nr = suf.length + nr'
  | [], pre, type, base, nr, type', nr', h, he => by
    unfold addLoop at he
    rw [List.length_nil, Option.bind_some] at he
    unfold fill
    by_cases hb : base < fin
    · rw [addRest_insert hb, Option.map_eq_some_iff] at he
      rw [if_pos hb]
      obtain ⟨t, ht, he⟩ := he
      cases he
      exact ⟨insertRegion_passed h ht, by simp only [List.length_cons, List.length_nil]; omega⟩
    · rw [addRest_none hb] at he
      rw [if_neg hb]
      cases he
      rw [← h]
      exact ⟨Passed.refl _, by simp⟩
  | r :: rest, pre, type, base, nr, type', nr', h, he => by
    have hstep : ∀ x : Region, (pre ++ [x]).length = pre.length + 1 := by simp
    rw [List.length_cons] at he
    unfold addLoop at he
    simp only [region_length h] at he
    unfold fill
    have hfin : r.base + r.size = r.fin := rfl
    rw [hfin] at he
    split_ifs at he ⊢ with h1 h2 h3 h4
    · -- the loop stops with a remaining portion
      rw [Option.bind_some, addRest_insert h2, Option.map_eq_some_iff] at he
      obtain ⟨t, ht, he⟩ := he
      cases he
      refine ⟨insertRegion_passed h ht, ?_⟩
      simp only [List.length_cons]
      omega
    · rw [Option.bind_some, addRest_none h2] at he
      cases he
      rw [← h]
      exact ⟨Passed.refl _, by simp⟩
    · have h' : type.regions = (pre ++ [r]) ++ rest := by rw [h]; simp
      rw [← hstep r] at he
      obtain ⟨hp, hc⟩ := addLoop_insert rest (pre ++ [r]) type base nr h' he
      refine ⟨?_, by simp only [List.length_cons]; omega⟩
      simpa using hp
    · cases hi : insertRegion type pre.length base (r.base - base) flags with
      | none =>
        rw [hi] at he
        cases he
      | some t =>
        rw [hi] at he
        have ht := insertRegion_passed h hi
        have h' : t.regions = (pre ++ [⟨base, r.base - base, flags⟩, r]) ++ rest := by
          rw [ht.regions]
          simp
        have hlen : (pre ++ [⟨base, r.base - base, flags⟩, r]).length = pre.length + 1 + 1 := by simp
        dsimp only at he
        rw [← hlen] at he
        obtain ⟨hp, hc⟩ := addLoop_insert rest _ t _ _ h' he
        refine ⟨?_, by simp only [List.length_cons]; omega⟩
        simpa using ht.trans hp
    · have h' : type.regions = (pre ++ [r]) ++ rest := by rw [h]; simp
      rw [← hstep r] at he
      obtain ⟨hp, hc⟩ := addLoop_insert rest (pre ++ [r]) type _ nr h' he
      refine ⟨?_, by simp only [List.length_cons]; omega⟩
      simpa using hp

/-- **The counting pass** counts what the inserting one inserts. -/
theorem addLoop_count : ∀ (suf pre : List Region) (type : MemblockType) (base nr : ℕ),
    type.regions = pre ++ suf →
    ∃ nr', (addLoop false fin flags suf.length type pre.length base nr).bind
        (addRest false fin flags) = some (type, nr') ∧
      (fill fin flags base suf).length + nr = suf.length + nr'
  | [], pre, type, base, nr, h => by
    unfold addLoop fill
    rw [List.length_nil, Option.bind_some]
    by_cases hb : base < fin
    · rw [addRest_count hb, if_pos hb]
      exact ⟨nr + 1, rfl, by simp only [List.length_cons, List.length_nil]; omega⟩
    · rw [addRest_none hb, if_neg hb]
      exact ⟨nr, rfl, by simp⟩
  | r :: rest, pre, type, base, nr, h => by
    have hstep : ∀ x : Region, (pre ++ [x]).length = pre.length + 1 := by simp
    have h' : type.regions = (pre ++ [r]) ++ rest := by rw [h]; simp
    have hfin : r.base + r.size = r.fin := rfl
    rw [List.length_cons]
    unfold addLoop fill
    simp only [region_length h, Bool.false_eq_true, if_false]
    rw [hfin]
    split_ifs with h1 h2 h3 h4
    · rw [Option.bind_some, addRest_count h2]
      exact ⟨nr + 1, rfl, by simp only [List.length_cons]; omega⟩
    · rw [Option.bind_some, addRest_none h2]
      exact ⟨nr, rfl, by simp⟩
    · obtain ⟨nr', he, hc⟩ := addLoop_count rest (pre ++ [r]) type base nr h'
      rw [hstep] at he
      exact ⟨nr', he, by simp only [List.length_cons]; omega⟩
    · obtain ⟨nr', he, hc⟩ := addLoop_count rest (pre ++ [r]) type (min r.fin fin) (nr + 1) h'
      rw [hstep] at he
      exact ⟨nr', he, by simp only [List.length_cons]; omega⟩
    · obtain ⟨nr', he, hc⟩ := addLoop_count rest (pre ++ [r]) type (min r.fin fin) nr h'
      rw [hstep] at he
      exact ⟨nr', he, by simp only [List.length_cons]; omega⟩

/-- A pass that counts nothing finds the range covered. -/
theorem fill_eq_self {L : List Region} (h : (fill fin flags base L).length = L.length) :
    fill fin flags base L = L := ((sublist_fill base L).eq_of_length h.symm).symm

theorem covered_of_fill {L : List Region} (h : fill fin flags base L = L) :
    covered L = covered L ∪ Set.Ico base fin := by
  conv_lhs => rw [← h]
  exact covered_fill base L

/-- Everything that is new is not there afterwards exactly if it was covered. -/
theorem addPass_count (type : MemblockType) (base fin flags : ℕ) :
    ∃ nr, addPass false type base fin flags = some (type, nr) ∧
      (fill fin flags base type.regions).length = type.cnt + nr := by
  obtain ⟨nr, he, hc⟩ := @addLoop_count fin flags type.regions [] type base 0 rfl
  exact ⟨nr, he, hc⟩

theorem addPass_insert {nr : ℕ} (he : addPass true type base fin flags = some (type', nr)) :
    Passed type type' (fill fin flags base type.regions) ∧
      (fill fin flags base type.regions).length = type.cnt + nr :=
  addLoop_insert type.regions [] type base 0 rfl he

/-- **Inserting and merging** keeps the representation and adds the range. -/
theorem insert_merge_wf (hg : g ≤ 1) (h : Wf g type) (hpos : ∀ r ∈ type.regions, 0 < r.size)
    (hfin : fin ≤ PHYS_ADDR_MAX) (hflags : 0 < g → flags = 0) {nr : ℕ}
    (he : addPass true type base fin flags = some (type', nr)) :
    ∃ M, mergeRegions type' = some { type' with regions := M } ∧ Wf g { type' with regions := M } ∧
      covered M = covered type.regions ∪ Set.Ico base fin := by
  obtain ⟨hp, hc⟩ := addPass_insert he
  have hap : Apart 0 (fill fin flags base type.regions) :=
    apart_fill (Apart.mono h.apart (Nat.zero_le g))
  have hmem : ∀ x ∈ fill fin flags base type.regions,
      0 < x.size ∧ x.fin ≤ PHYS_ADDR_MAX ∧ (0 < g → x.flags = 0) := by
    intro x hx
    rcases mem_fill hx with hx | ⟨-, hx1, hx2, hx3⟩
    · exact ⟨hpos x hx, h.fin_le x hx, fun hg => h.flags hg x hx⟩
    · exact ⟨hx1, by omega, fun hg => hx3.trans (hflags hg)⟩
  cases hL : fill fin flags base type.regions with
  | nil =>
    have := @sublist_fill fin flags base type.regions
    rw [hL] at this
    exact absurd (List.sublist_nil.mp this) h.cnt_pos
  | cons this rest =>
    rw [hL] at hap hmem
    obtain ⟨M, hM, hMap, hcov, htot, hlen, hnil, -, hMfin, hMpos, hMflags⟩ :=
      mergeFrom_spec hg rest this hap fun hz r hr => (hmem r hr).2.2 hz
    have hreg := hp.regions
    rw [hL] at hreg
    refine ⟨M, ?_, ⟨hnil, ?_, hMap, ?_, ?_, Or.inl ?_, hMflags⟩, ?_⟩
    · unfold mergeRegions
      rw [hreg]
      dsimp only
      rw [hM]
      rfl
    · have hle := hp.cnt_le h.cnt_le
      unfold MemblockType.cnt at hle ⊢
      rw [hreg] at hle
      dsimp only
      simp only [List.length_cons] at hle
      omega
    · exact hMfin _ fun r hr => (hmem r hr).2.1
    · have hs := hp.sum
      have hs' := h.sum
      rw [hL] at hs
      dsimp only
      omega
    · exact hMpos fun r hr => (hmem r hr).1
    · rw [hcov, ← hL, covered_fill]

/-! ### Isolating and removing a range -/

/-- The regions are below the range, inside it and above it, in this order. -/
structure Isolated (g base fin : ℕ) (A B C : List Region) : Prop where
  apartA : Apart g A
  apartC : Apart g C
  below : ∀ r ∈ A, r.fin ≤ base
  inside : ∀ r ∈ B, base ≤ r.base ∧ r.fin ≤ fin
  above : ∀ r ∈ C, fin ≤ r.base

/-- The out parameters give the indices of the regions inside the range. -/
def Recorded (A B : List Region) (startRgn endRgn : ℕ) : Prop :=
  (B = [] ∧ startRgn = 0 ∧ endRgn = 0) ∨
    (B ≠ [] ∧ startRgn = A.length ∧ endRgn = A.length + B.length)

/-- The state of the loop: what is before the index is below the range or recorded; from the index
on the regions are `g` apart, and `g` above those below the range until the range is reached. -/
structure Isolating (g base fin : ℕ) (A B suf : List Region) : Prop where
  apartA : Apart g A
  apartS : Apart g suf
  below : ∀ r ∈ A, r.fin ≤ base
  inside : ∀ r ∈ B, base ≤ r.base ∧ r.fin ≤ fin
  cross : ∀ a ∈ A, ∀ r ∈ suf, a.fin + g ≤ r.base ∨ base ≤ r.base
  later : B ≠ [] → ∀ r ∈ suf, base ≤ r.base
  pos : ∀ r ∈ suf, 0 < r.size

/-- `type'` has the regions of `type`, some of them split. -/
structure Split (type type' : MemblockType) : Prop where
  max : type'.max = type.max
  array : type'.array = type.array
  sum : type.totalSize = total type.regions → type'.totalSize = total type'.regions
  cnt_le : type.cnt ≤ type.max → type'.cnt ≤ type'.max
  covered : covered type'.regions = covered type.regions
  origin : ∀ x ∈ type'.regions, ∃ r ∈ type.regions, x.fin ≤ r.fin ∧ x.flags = r.flags
  pos : (∀ r ∈ type.regions, 0 < r.size) → ∀ x ∈ type'.regions, 0 < x.size

theorem Split.refl (type : MemblockType) : Split type type :=
  ⟨rfl, rfl, fun h => h, fun h => h, rfl, fun x hx => ⟨x, hx, le_rfl, rfl⟩, fun h => h⟩

theorem Split.trans {type₁ type₂ type₃ : MemblockType} (h1 : Split type₁ type₂)
    (h2 : Split type₂ type₃) : Split type₁ type₃ := by
  refine ⟨h2.max.trans h1.max, h2.array.trans h1.array, fun h => h2.sum (h1.sum h),
    fun h => h2.cnt_le (h1.cnt_le h), h2.covered.trans h1.covered, fun x hx => ?_,
    fun h => h2.pos (h1.pos h)⟩
  obtain ⟨y, hy, hxy, hf⟩ := h2.origin x hx
  obtain ⟨z, hz, hyz, hf'⟩ := h1.origin y hy
  exact ⟨z, hz, hxy.trans hyz, hf.trans hf'⟩

/-- **Splitting** the region at the index at `m`. -/
theorem insertRegion_split {m : ℕ} {r : Region} (h : type.regions = pre ++ r :: suf)
    (h1 : r.base < m) (h2 : m < r.fin)
    (he : insertRegion { type with
      regions := pre ++ { r with base := m, size := r.size - (m - r.base) } :: suf
      totalSize := type.totalSize - (m - r.base) } pre.length r.base (m - r.base) r.flags =
        some type') :
    type'.regions = pre ++ ⟨r.base, m - r.base, r.flags⟩ ::
        { r with base := m, size := r.size - (m - r.base) } :: suf ∧ Split type type' := by
  obtain ⟨rfl, hlt⟩ := insertRegion_spec rfl he
  have hfin : r.fin = r.base + r.size := rfl
  refine ⟨rfl, rfl, rfl, fun hs => ?_, fun _ => ?_, ?_, fun x hx => ?_, fun hp x hx => ?_⟩
  · have hle := size_le_total (L := type.regions) (r := r) (by rw [h]; simp)
    rw [h] at hs hle
    simp only [total_append, total_cons] at hs hle ⊢
    omega
  · unfold MemblockType.cnt at hlt ⊢
    simp only [List.length_append, List.length_cons] at hlt ⊢
    omega
  · rw [h]
    simp only [covered_append, covered_cons]
    congr 1
    rw [← Set.union_assoc]
    congr 1
    ext x
    simp only [Set.mem_union, Set.mem_Ico]
    unfold Region.fin
    dsimp only
    omega
  · simp only [List.mem_append, List.mem_cons] at hx
    rw [h]
    rcases hx with hx | rfl | rfl | hx
    · exact ⟨x, by simp [hx], le_rfl, rfl⟩
    · exact ⟨r, by simp, by unfold Region.fin at *; dsimp only; omega, rfl⟩
    · exact ⟨r, by simp, by unfold Region.fin at *; dsimp only; omega, rfl⟩
    · exact ⟨x, by simp [hx], le_rfl, rfl⟩
  · rw [h] at hp
    simp only [List.mem_append, List.mem_cons] at hx
    rcases hx with hx | rfl | rfl | hx
    · exact hp x (by simp [hx])
    · dsimp only
      omega
    · dsimp only
      omega
    · exact hp x (by simp [hx])

theorem isolateLoop_succ {k idx startRgn endRgn : ℕ} {r : Region}
    (h : type.regions = pre ++ r :: suf) (hidx : idx = pre.length) :
    isolateLoop base fin (k + 1) type idx startRgn endRgn =
      if r.base ≥ fin then some (type, startRgn, endRgn)
      else if r.fin ≤ base then isolateLoop base fin k type (idx + 1) startRgn endRgn
      else if r.base < base then
        match insertRegion { type with
            regions := pre ++ { r with base := base, size := r.size - (base - r.base) } :: suf
            totalSize := type.totalSize - (base - r.base) } idx r.base (base - r.base) r.flags with
        | none => none
        | some type => isolateLoop base fin k type (idx + 1) startRgn endRgn
      else if r.fin > fin then
        match insertRegion { type with
            regions := pre ++ { r with base := fin, size := r.size - (fin - r.base) } :: suf
            totalSize := type.totalSize - (fin - r.base) } idx r.base (fin - r.base) r.flags with
        | none => none
        | some type => isolateLoop base fin k type idx startRgn endRgn
      else isolateLoop base fin k type (idx + 1) (if endRgn = 0 then idx else startRgn) (idx + 1) := by
  subst hidx
  have hlt : pre.length < type.cnt := by
    unfold MemblockType.cnt
    rw [h, List.length_append, List.length_cons]
    omega
  rw [isolateLoop, if_pos hlt]
  simp only [region_length h]
  rw [h, set_length, set_length]
  rfl

theorem isolateLoop_end {k idx startRgn endRgn : ℕ} (h : type.cnt ≤ idx) :
    isolateLoop base fin (k + 1) type idx startRgn endRgn = some (type, startRgn, endRgn) := by
  rw [isolateLoop, if_neg (by omega)]

theorem Recorded.snoc {A B : List Region} {startRgn endRgn : ℕ} (h : Recorded A B startRgn endRgn)
    (r : Region) :
    Recorded A (B ++ [r]) (if endRgn = 0 then (A ++ B).length else startRgn)
      ((A ++ B).length + 1) := by
  refine Or.inr ⟨by simp, ?_, by simp only [List.length_append, List.length_cons, List.length_nil]; omega⟩
  rcases h with ⟨rfl, -, rfl⟩ | ⟨hB, rfl, rfl⟩
  · simp
  · have := List.length_pos_iff.mpr hB
    rw [if_neg (by omega)]

/-- **`memblock_isolate_range`** splits the regions at both ends of the range and records those
inside. The induction is on the rounds; a region that crosses the upper end takes two of them. -/
theorem isolateLoop_spec (hbf : base < fin) (k : ℕ) : ∀ (type : MemblockType)
    (startRgn endRgn : ℕ) (A B suf : List Region) {type' : MemblockType} {startRgn' endRgn' : ℕ},
    type.regions = A ++ B ++ suf → Isolating g base fin A B suf → Recorded A B startRgn endRgn →
    isolateLoop base fin k type (A ++ B).length startRgn endRgn = some (type', startRgn', endRgn') →
    Split type type' ∧ ∃ A' B' C', type'.regions = A' ++ B' ++ C' ∧ Isolated g base fin A' B' C' ∧
      Recorded A' B' startRgn' endRgn' := by
  induction k using Nat.strong_induction_on with
  | _ k ih =>
  intro type startRgn endRgn A B suf type' startRgn' endRgn' h hI hrec he
  cases k with
  | zero => cases he
  | succ k =>
  cases suf with
  | nil =>
    have hcnt : type.cnt ≤ (A ++ B).length := by
      unfold MemblockType.cnt
      rw [h, List.append_nil]
    rw [isolateLoop_end hcnt] at he
    cases he
    exact ⟨Split.refl _, A, B, [], h, ⟨hI.apartA, List.Pairwise.nil, hI.below, hI.inside,
      fun r hr => absurd hr List.not_mem_nil⟩, hrec⟩
  | cons r rest =>
    obtain ⟨hr, hrest⟩ := apart_cons.mp hI.apartS
    have hpos := hI.pos r List.mem_cons_self
    have hfin : r.fin = r.base + r.size := rfl
    rw [isolateLoop_succ h rfl] at he
    by_cases c1 : r.base ≥ fin
    · -- the rest is above the range
      rw [if_pos c1] at he
      cases he
      refine ⟨Split.refl _, A, B, r :: rest, h, ⟨hI.apartA, hI.apartS, hI.below, hI.inside,
        fun x hx => ?_⟩, hrec⟩
      rcases List.mem_cons.mp hx with rfl | hx
      · exact c1
      · have := hr x hx
        omega
    rw [if_neg c1] at he
    by_cases c2 : r.fin ≤ base
    · rw [if_pos c2] at he
      have hB : B = [] := by
        by_contra hB
        have := hI.later hB r List.mem_cons_self
        omega
      subst hB
      rw [List.append_nil] at h he
      have hlen : (A ++ [r] ++ []).length = A.length + 1 := by simp
      rw [← hlen] at he
      refine ih k k.lt_succ_self type startRgn endRgn (A ++ [r]) [] rest (by rw [h]; simp)
        ⟨?_, hrest, ?_, hI.inside, ?_, by simp, fun x hx => hI.pos x (List.mem_cons_of_mem _ hx)⟩
        (hrec.imp (fun hx => hx) fun hx => absurd rfl hx.1) he
      · refine List.pairwise_append.mpr ⟨hI.apartA, List.pairwise_singleton _ _, fun a ha x hx => ?_⟩
        rw [List.mem_singleton.mp hx]
        rcases hI.cross a ha r List.mem_cons_self with hc | hc
        · exact hc
        · omega
      · intro x hx
        rcases List.mem_append.mp hx with hx | hx
        · exact hI.below x hx
        · rw [List.mem_singleton.mp hx]
          exact c2
      · intro a ha x hx
        rcases List.mem_append.mp ha with ha | ha
        · exact hI.cross a ha x (List.mem_cons_of_mem _ hx)
        · rw [List.mem_singleton.mp ha]
          exact Or.inl (hr x hx)
    rw [if_neg c2] at he
    by_cases c3 : r.base < base
    · -- the region crosses the lower end
      rw [if_pos c3] at he
      have hB : B = [] := by
        by_contra hB
        have := hI.later hB r List.mem_cons_self
        omega
      subst hB
      rw [List.append_nil] at h he
      cases hi : insertRegion { type with
          regions := A ++ { r with base := base, size := r.size - (base - r.base) } :: rest
          totalSize := type.totalSize - (base - r.base) } A.length r.base (base - r.base) r.flags with
      | none =>
        rw [hi] at he
        cases he
      | some t =>
        rw [hi] at he
        obtain ⟨ht, hsplit⟩ := insertRegion_split h c3 (by omega) hi
        have hlen : (A ++ [Region.mk r.base (base - r.base) r.flags] ++ []).length = A.length + 1 := by simp
        dsimp only at he
        rw [← hlen] at he
        have hI' : Isolating g base fin (A ++ [⟨r.base, base - r.base, r.flags⟩]) []
            ({ r with base := base, size := r.size - (base - r.base) } :: rest) := by
          refine ⟨?_, ?_, ?_, hI.inside, ?_, by simp, ?_⟩
          · refine List.pairwise_append.mpr ⟨hI.apartA, List.pairwise_singleton _ _, fun a ha x hx => ?_⟩
            rw [List.mem_singleton.mp hx]
            rcases hI.cross a ha r List.mem_cons_self with hc | hc
            · exact hc
            · omega
          · refine apart_cons.mpr ⟨fun x hx => ?_, hrest⟩
            have := hr x hx
            unfold Region.fin at this ⊢
            dsimp only
            omega
          · intro x hx
            rcases List.mem_append.mp hx with hx | hx
            · exact hI.below x hx
            · rw [List.mem_singleton.mp hx]
              unfold Region.fin
              dsimp only
              omega
          · intro a _ x hx
            right
            rcases List.mem_cons.mp hx with rfl | hx
            · exact le_rfl
            · have := hr x hx
              omega
          · intro x hx
            rcases List.mem_cons.mp hx with rfl | hx
            · dsimp only
              omega
            · exact hI.pos x (List.mem_cons_of_mem _ hx)
        obtain ⟨hs, hres⟩ := ih k k.lt_succ_self t startRgn endRgn _ [] _ (by rw [ht]; simp) hI'
          (hrec.imp (fun hx => hx) fun hx => absurd rfl hx.1) he
        exact ⟨hsplit.trans hs, hres⟩
    rw [if_neg c3] at he
    by_cases c4 : r.fin > fin
    · -- the region crosses the upper end: the next round records its lower part
      rw [if_pos c4] at he
      cases hi : insertRegion { type with
          regions := A ++ B ++ { r with base := fin, size := r.size - (fin - r.base) } :: rest
          totalSize := type.totalSize - (fin - r.base) } (A ++ B).length r.base (fin - r.base)
          r.flags with
      | none =>
        rw [hi] at he
        cases he
      | some t =>
        rw [hi] at he
        dsimp only at he
        obtain ⟨ht, hsplit⟩ := insertRegion_split h (by omega) c4 hi
        cases k with
        | zero => cases he
        | succ k =>
        have hin : (Region.fin ⟨r.base, fin - r.base, r.flags⟩) = fin := by
          unfold Region.fin
          dsimp only
          omega
        rw [isolateLoop_succ ht rfl, hin] at he
        dsimp only at he
        rw [if_neg c1, if_neg (by omega), if_neg c3, if_neg (by omega)] at he
        have hlen : (A ++ (B ++ [Region.mk r.base (fin - r.base) r.flags])).length =
            (A ++ B).length + 1 := by
          simp only [List.length_append, List.length_cons, List.length_nil]
          omega
        rw [← hlen] at he
        have hI' : Isolating g base fin A (B ++ [⟨r.base, fin - r.base, r.flags⟩])
            ({ r with base := fin, size := r.size - (fin - r.base) } :: rest) := by
          have hafter : ∀ x ∈ { r with base := fin, size := r.size - (fin - r.base) } :: rest,
              base ≤ x.base := by
            intro x hx
            rcases List.mem_cons.mp hx with rfl | hx
            · dsimp only
              omega
            · have := hr x hx
              omega
          refine ⟨hI.apartA, ?_, hI.below, ?_, fun a _ x hx => Or.inr (hafter x hx),
            fun _ => hafter, ?_⟩
          · refine apart_cons.mpr ⟨fun x hx => ?_, hrest⟩
            have := hr x hx
            unfold Region.fin at this ⊢
            dsimp only
            omega
          · intro x hx
            rcases List.mem_append.mp hx with hx | hx
            · exact hI.inside x hx
            · rw [List.mem_singleton.mp hx, hin]
              exact ⟨by dsimp only; omega, le_rfl⟩
          · intro x hx
            rcases List.mem_cons.mp hx with rfl | hx
            · dsimp only
              omega
            · exact hI.pos x (List.mem_cons_of_mem _ hx)
        obtain ⟨hs, hres⟩ := ih k (by omega) t _ _ A _ _ (by rw [ht]; simp) hI'
          (hlen ▸ hrec.snoc ⟨r.base, fin - r.base, r.flags⟩) he
        exact ⟨hsplit.trans hs, hres⟩
    · -- the region is inside the range
      rw [if_neg c4] at he
      have hlen : (A ++ (B ++ [r])).length = (A ++ B).length + 1 := by
        simp only [List.length_append, List.length_cons, List.length_nil]
        omega
      have hafter : ∀ x ∈ rest, base ≤ x.base := by
        intro x hx
        have := hr x hx
        omega
      rw [← hlen] at he
      refine ih k k.lt_succ_self type _ _ A (B ++ [r]) rest (by rw [h]; simp)
        ⟨hI.apartA, hrest, hI.below, ?_, fun a ha x hx => Or.inr (hafter x hx), fun _ => hafter,
          fun x hx => hI.pos x (List.mem_cons_of_mem _ hx)⟩ (hlen ▸ hrec.snoc r) he
      intro x hx
      rcases List.mem_append.mp hx with hx | hx
      · exact hI.inside x hx
      · rw [List.mem_singleton.mp hx]
        exact ⟨by omega, by omega⟩

/-- What is left of the regions `L` of a type: the dummy region if there are none. -/
def orDummy (L : List Region) : List Region := if L.length = 0 then [⟨0, 0, 0⟩] else L

theorem eraseIdx_length {r : Region} : (pre ++ r :: suf).eraseIdx pre.length = pre ++ suf := by
  rw [List.eraseIdx_append_of_length_le le_rfl, Nat.sub_self]
  rfl

theorem removeRegion_spec {r : Region} (h : type.regions = pre ++ r :: suf) :
    removeRegion type pre.length = { type with
      regions := orDummy (pre ++ suf)
      totalSize := type.totalSize - r.size } := by
  unfold removeRegion
  rw [region_length h, h, eraseIdx_length]
  rfl

/-- **The removing loop** takes out the recorded regions. -/
theorem removeLoop_spec (A C B : List Region) : ∀ (type : MemblockType),
    type.regions = A ++ B ++ C → B ≠ [] →
    removeLoop A.length B.length type = { type with
      regions := orDummy (A ++ C)
      totalSize := type.totalSize - total B } := by
  induction B using List.reverseRecOn with
  | nil => exact fun type h hB => absurd rfl hB
  | append_singleton B b ih =>
    intro type h _
    have hb : type.regions = (A ++ B) ++ b :: C := by rw [h]; simp
    rw [List.length_append, List.length_singleton, removeLoop, ← List.length_append,
      removeRegion_spec hb]
    by_cases hB : B = []
    · subst hB
      rw [List.append_nil, List.length_nil, removeLoop]
      simp
    · have hne : orDummy (A ++ B ++ C) = A ++ B ++ C := by
        unfold orDummy
        rw [if_neg]
        have := List.length_pos_iff.mpr hB
        simp only [List.length_append]
        omega
      rw [ih _ hne hB]
      simp only [total_append, total_cons, total_nil]
      congr 1
      omega

/-- The dummy region: nothing to split, and if it is recorded, it is there again afterwards. -/
theorem remove_dummy {r : Region} {startRgn endRgn : ℕ} (hr : type.regions = [r]) (hz : r.size = 0)
    (he : isolateLoop base fin 4 type 0 0 0 = some (type', startRgn, endRgn)) :
    removeLoop startRgn (endRgn - startRgn) type' = type ∨
      removeLoop startRgn (endRgn - startRgn) type' = { type with
        regions := [⟨0, 0, 0⟩]
        totalSize := type.totalSize - 0 } := by
  have hreg : type.regions = [] ++ r :: [] := hr
  have hcnt : type.cnt ≤ 0 + 1 := by
    unfold MemblockType.cnt
    rw [hr]
    exact le_rfl
  have hfin : r.fin = r.base := by
    unfold Region.fin
    omega
  rw [isolateLoop_succ hreg (show 0 = [].length from rfl), hfin] at he
  by_cases c1 : r.base ≥ fin
  · rw [if_pos c1] at he
    cases he
    exact Or.inl rfl
  rw [if_neg c1] at he
  by_cases c2 : r.base ≤ base
  · rw [if_pos c2, isolateLoop_end hcnt] at he
    cases he
    exact Or.inl rfl
  · rw [if_neg c2, if_neg (by omega), if_neg (by omega), isolateLoop_end hcnt] at he
    cases he
    right
    have := removeRegion_spec hreg
    rw [hz] at this
    exact this

/-- **Isolating and removing** keeps the representation and takes the range away. -/
theorem remove_wf (hg : g ≤ 1) (h : Wf g type) (hbf : base < fin) {startRgn endRgn : ℕ}
    (he : isolateLoop base fin (3 * type.cnt + 1) type 0 0 0 = some (type', startRgn, endRgn)) :
    Wf g (removeLoop startRgn (endRgn - startRgn) type') ∧
      covered (removeLoop startRgn (endRgn - startRgn) type').regions =
        covered type.regions \ Set.Ico base fin ∧
      (removeLoop startRgn (endRgn - startRgn) type').max = type.max ∧
      (removeLoop startRgn (endRgn - startRgn) type').array = type.array := by
  have hone : 1 ≤ type.max := (List.length_pos_iff.mpr h.cnt_pos).trans_le h.cnt_le
  rcases h.sizes with hpos | ⟨r, hr, hz⟩
  · -- a proper array
    obtain ⟨hs, A, B, C, hreg, hiso, hrec⟩ := isolateLoop_spec hbf _ type 0 0 [] [] type.regions
      rfl ⟨List.Pairwise.nil, h.apart, by simp, by simp, by simp, by simp, hpos⟩
      (Or.inl ⟨rfl, rfl, rfl⟩) he
    have hremove : removeLoop startRgn (endRgn - startRgn) type' = { type' with
        regions := orDummy (A ++ C)
        totalSize := type'.totalSize - total B } := by
      rcases hrec with ⟨rfl, rfl, rfl⟩ | ⟨hB, rfl, rfl⟩
      · have hne : type'.regions ≠ [] := by
          intro hnil
          have hcov := hs.covered
          obtain ⟨x, hx⟩ := List.exists_mem_of_ne_nil _ h.cnt_pos
          have hmem : x.base ∈ covered type.regions :=
            ⟨x, hx, le_rfl, by have := hpos x hx; unfold Region.fin; omega⟩
          rw [← hcov, hnil, covered_nil] at hmem
          exact hmem
        rw [List.append_nil] at hreg
        have hdummy : orDummy (A ++ C) = type'.regions := by
          unfold orDummy
          rw [← hreg, if_neg]
          exact fun hlen => hne (List.length_eq_zero_iff.mp hlen)
        rw [hdummy]
        rfl
      · rw [Nat.add_sub_cancel_left]
        exact removeLoop_spec A C B type' hreg hB
    have hcov : covered (A ++ C) = covered type.regions \ Set.Ico base fin := by
      rw [← hs.covered, hreg]
      ext x
      simp only [covered_append, Set.mem_sdiff, Set.mem_union, Set.mem_Ico, mem_covered]
      constructor
      · rintro (⟨r, hr, hx⟩ | ⟨r, hr, hx⟩)
        · have := hiso.below r hr
          exact ⟨Or.inl (Or.inl ⟨r, hr, hx⟩), by omega⟩
        · have := hiso.above r hr
          exact ⟨Or.inr ⟨r, hr, hx⟩, by omega⟩
      · rintro ⟨(hx | ⟨r, hr, hx⟩) | hx, hno⟩
        · exact Or.inl hx
        · have := hiso.inside r hr
          omega
        · exact Or.inr hx
    have hsub : ∀ x ∈ A ++ C, x ∈ type'.regions := by
      intro x hx
      rw [hreg]
      rcases List.mem_append.mp hx with hx | hx
      · simp [hx]
      · simp [hx]
    have hsum := hs.sum h.sum
    rw [hreg] at hsum
    simp only [total_append] at hsum
    have hmax := hs.max
    have hcnt' := hs.cnt_le h.cnt_le
    have hlen : (A ++ C).length ≤ type'.cnt := by
      unfold MemblockType.cnt
      rw [hreg]
      simp only [List.length_append]
      omega
    have htotal : type'.totalSize - total B = total (A ++ C) := by
      rw [total_append]
      omega
    have hone' : 1 ≤ type'.cnt := by
      refine List.length_pos_iff.mpr fun hnil => ?_
      obtain ⟨x, hx⟩ := List.exists_mem_of_ne_nil _ h.cnt_pos
      have hmem : x.base ∈ covered type.regions :=
        ⟨x, hx, le_rfl, by have := hpos x hx; unfold Region.fin; omega⟩
      rw [← hs.covered, hnil, covered_nil] at hmem
      exact hmem
    rw [hremove, htotal]
    unfold orDummy
    by_cases hnil : (A ++ C).length = 0
    · rw [if_pos hnil]
      have hAC := List.length_eq_zero_iff.mp hnil
      refine ⟨⟨by simp, ?_, List.pairwise_singleton _ _, ?_, ?_, Or.inr ⟨_, rfl, rfl⟩, ?_⟩, ?_, hmax,
        hs.array⟩
      · show 1 ≤ type'.max
        omega
      · intro r hr
        rw [List.mem_singleton.mp hr]
        decide
      · rw [hAC]
        rfl
      · intro _ r hr
        rw [List.mem_singleton.mp hr]
      · rw [← hcov, hAC]
        ext x
        simp [Region.fin]
    · rw [if_neg hnil]
      refine ⟨⟨fun hAC => hnil (List.length_eq_zero_iff.mpr hAC), ?_, ?_, ?_, rfl, Or.inl ?_, ?_⟩, hcov, hmax,
        hs.array⟩
      · show (A ++ C).length ≤ type'.max
        omega
      · refine List.pairwise_append.mpr ⟨hiso.apartA, hiso.apartC, fun a ha x hx => ?_⟩
        have h1 := hiso.below a ha
        have h2 := hiso.above x hx
        omega
      · intro x hx
        obtain ⟨r, hr, hle, -⟩ := hs.origin x (hsub x hx)
        exact hle.trans (h.fin_le r hr)
      · exact fun x hx => hs.pos hpos x (hsub x hx)
      · intro hz x hx
        obtain ⟨r, hr, -, hf⟩ := hs.origin x (hsub x hx)
        exact hf.trans (h.flags hz r hr)
  · -- the dummy region
    have hcnt : type.cnt = 1 := by
      unfold MemblockType.cnt
      rw [hr]
      rfl
    have hempty : covered type.regions = ∅ := by
      rw [hr]
      ext x
      simp only [mem_covered, List.mem_singleton, exists_eq_left, Set.mem_empty_iff_false, iff_false]
      unfold Region.fin
      omega
    have hsum := h.sum
    rw [hr, total_cons, hz] at hsum
    rw [hcnt] at he
    rcases remove_dummy hr hz he with heq | heq
    · rw [heq]
      exact ⟨h, by rw [hempty, Set.empty_sdiff], rfl, rfl⟩
    · rw [heq]
      refine ⟨⟨by simp, hone, List.pairwise_singleton _ _, ?_, hsum, Or.inr ⟨_, rfl, rfl⟩, ?_⟩, ?_, rfl,
        rfl⟩
      · intro r hr
        rw [List.mem_singleton.mp hr]
        decide
      · intro _ r hr
        rw [List.mem_singleton.mp hr]
      · rw [hempty, Set.empty_sdiff]
        ext x
        simp [Region.fin]

/-! ### The number of regions -/

/-- The regions that a point cuts in two. -/
def crossing (p : ℕ) (L : List Region) : ℕ := L.countP fun r => r.base < p ∧ p < r.fin

theorem crossing_cons (p : ℕ) (r : Region) (L : List Region) :
    crossing p (r :: L) = crossing p L + if r.base < p ∧ p < r.fin then 1 else 0 := by
  unfold crossing
  rw [List.countP_cons]
  simp only [decide_eq_true_eq]

theorem crossing_le_one (p : ℕ) : ∀ {L : List Region}, Apart 0 L → crossing p L ≤ 1
  | [], _ => by simp [crossing]
  | r :: L, h => by
    obtain ⟨hr, hL⟩ := apart_cons.mp h
    rw [crossing_cons]
    split_ifs with hc
    · have hnone : crossing p L = 0 := by
        refine List.countP_eq_zero.mpr fun x hx => ?_
        have := hr x hx
        simp only [decide_eq_true_eq]
        omega
      omega
    · exact crossing_le_one p hL

/-- A round of `memblock_isolate_range` adds a region only where it cuts one. -/
theorem isolateLoop_cnt (hbf : base < fin) : ∀ (k : ℕ) (type : MemblockType)
    (startRgn endRgn : ℕ) (pre suf : List Region) {type' : MemblockType} {startRgn' endRgn' : ℕ},
    type.regions = pre ++ suf →
    isolateLoop base fin k type pre.length startRgn endRgn = some (type', startRgn', endRgn') →
    type'.cnt ≤ type.cnt + crossing base suf + crossing fin suf
  | 0, _, _, _, _, _, _, _, _, _, he => by cases he
  | k + 1, type, startRgn, endRgn, pre, [], type', startRgn', endRgn', h, he => by
    rw [isolateLoop_end (by unfold MemblockType.cnt; rw [h, List.append_nil])] at he
    cases he
    omega
  | k + 1, type, startRgn, endRgn, pre, r :: rest, type', startRgn', endRgn', h, he => by
    have hnext : ∀ x : Region, (pre ++ [x]).length = pre.length + 1 := by simp
    have hskip : type.regions = (pre ++ [r]) ++ rest := by
      rw [h]
      simp
    rw [isolateLoop_succ h rfl] at he
    rw [crossing_cons, crossing_cons]
    by_cases c1 : r.base ≥ fin
    · rw [if_pos c1] at he
      cases he
      omega
    rw [if_neg c1] at he
    by_cases c2 : r.fin ≤ base
    · rw [if_pos c2, ← hnext r] at he
      have := isolateLoop_cnt hbf k type _ _ _ _ hskip he
      omega
    rw [if_neg c2] at he
    by_cases c3 : r.base < base
    · -- the upper part crosses `fin` where the region did
      rw [if_pos c3] at he
      split at he
      · cases he
      rename_i t hins
      obtain ⟨ht, -⟩ := insertRegion_split h c3 (by omega) hins
      rw [← hnext ⟨r.base, base - r.base, r.flags⟩] at he
      have hregs : t.regions = (pre ++ [⟨r.base, base - r.base, r.flags⟩]) ++
          { r with base := base, size := r.size - (base - r.base) } :: rest := by
        rw [ht]
        simp
      have hcnt := isolateLoop_cnt hbf k t _ _ _ _ hregs he
      have hone : t.cnt = type.cnt + 1 := by
        unfold MemblockType.cnt
        rw [ht, h]
        simp
        omega
      have hfin : (Region.mk base (r.size - (base - r.base)) r.flags).fin = r.fin := by
        unfold Region.fin at *
        dsimp only
        omega
      rw [crossing_cons, crossing_cons, hfin, if_neg (by dsimp only; omega)] at hcnt
      rw [if_pos ⟨c3, by omega⟩]
      dsimp only at hcnt
      split_ifs at hcnt ⊢ <;> omega
    rw [if_neg c3] at he
    by_cases c4 : r.fin > fin
    · rw [if_pos c4] at he
      split at he
      · cases he
      rename_i t hins
      obtain ⟨ht, -⟩ := insertRegion_split h (by omega) c4 hins
      have hcnt := isolateLoop_cnt hbf k t _ _ _ _ ht he
      have hone : t.cnt = type.cnt + 1 := by
        unfold MemblockType.cnt
        rw [ht, h]
        simp
        omega
      have hlow : (Region.mk r.base (fin - r.base) r.flags).fin = fin := by
        unfold Region.fin
        dsimp only
        omega
      simp only [crossing_cons] at hcnt
      rw [hlow, if_neg (by omega), if_neg (by omega), if_neg (by omega), if_neg (by omega)] at hcnt
      rw [if_pos (show r.base < fin ∧ fin < r.fin by omega)]
      omega
    · rw [if_neg c4, ← hnext r] at he
      have := isolateLoop_cnt hbf k type _ _ _ _ hskip he
      omega

theorem removeLoop_cnt (startRgn : ℕ) : ∀ (k : ℕ) (type : MemblockType),
    (removeLoop startRgn k type).cnt ≤ max 1 type.cnt
  | 0, type => le_max_right _ _
  | k + 1, type => by
    have hone : (removeRegion type (startRgn + k)).cnt ≤ max 1 type.cnt := by
      unfold removeRegion MemblockType.cnt
      dsimp only
      have := List.length_eraseIdx_le type.regions (startRgn + k)
      split_ifs
      · exact le_max_left _ _
      · omega
    have := removeLoop_cnt startRgn k (removeRegion type (startRgn + k))
    rw [removeLoop]
    omega

/-- Taking a range away adds at most two regions. -/
theorem remove_cnt (h : Wf g type) (hbf : base < fin) {k startRgn endRgn : ℕ}
    (he : isolateLoop base fin k type 0 0 0 = some (type', startRgn, endRgn)) :
    (removeLoop startRgn (endRgn - startRgn) type').cnt ≤ type.cnt + 2 := by
  have hap := Apart.mono h.apart (Nat.zero_le g)
  have hpos : 0 < type.cnt := List.length_pos_iff.mpr h.cnt_pos
  have h1 := isolateLoop_cnt hbf k type 0 0 [] type.regions rfl he
  have h2 := crossing_le_one base hap
  have h3 := crossing_le_one fin hap
  have h4 := removeLoop_cnt startRgn (endRgn - startRgn) type'
  omega

end HardStack.Memblock.Table
