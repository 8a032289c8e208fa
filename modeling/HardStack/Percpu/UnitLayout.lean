import Mathlib
import HardStack.Percpu.Model

/-! # The layout of the first chunk

`pcpu_build_alloc_info` and `pcpu_alloc_alloc_info` of `mm/percpu.c`, in a `size_t` of 32 bits. A
division by zero, a read of `best_upa` before it is assigned and an access outside of an array have no
result. `for_each_cpu` ignores its mask, so all of the `NR_CPUS` are possible; the `int`s that count them are smaller than `NR_CPUS + upa`. -/

namespace HardStack.Percpu.UnitLayout

open HardStack.Percpu.Model

def PERCPU_DYNAMIC_EARLY_SIZE : ℕ := 12 * 1024
def INT_MAX : ℕ := 2 ^ 31 - 1

/-! ### Arithmetic -/

def word (x : ℕ) : ℕ := x % 2 ^ 32

def sub (x y : ℕ) : ℕ := word (x + (2 ^ 32 - y))

def PFN_ALIGN (x : ℕ) : ℕ := word (x + (PAGE_SIZE - 1)) / PAGE_SIZE * PAGE_SIZE

def offsetInPage (p : ℕ) : ℕ := p % PAGE_SIZE

def div (x y : ℕ) : Option ℕ := if y = 0 then none else some (x / y)

/-- `roundup` of a `size_t`. -/
def roundupSize (x y : ℕ) : Option ℕ := do
  let q ← div (word (x + (y - 1))) y
  some (word (q * y))

/-- `roundup` of an `int`. -/
def roundup (x y : ℕ) : Option ℕ := do
  let q ← div (x + (y - 1)) y
  some (q * y)

/-! ### The layout -/

/-- `struct pcpu_group_info`; a `cpu_map` is a place in the memory of all of them. -/
structure GroupInfo where
  nrUnits : ℕ
  baseOffset : ℕ
  cpuMap : ℕ

/-- `struct pcpu_alloc_info`. -/
structure AllocInfo where
  staticSize : ℕ
  reservedSize : ℕ
  dynSize : ℕ
  unitSize : ℕ
  atomSize : ℕ
  allocSize : ℕ
  nrGroups : ℕ
  groups : List GroupInfo
  cpuMap : List ℕ

/-- `pcpu_alloc_alloc_info`, out of zeroed memory. -/
def pcpuAllocAllocInfo (nrCpus nrGroups nrUnits : ℕ) : AllocInfo :=
  { staticSize := 0, reservedSize := 0, dynSize := 0, unitSize := 0, atomSize := 0, allocSize := 0,
    nrGroups := nrGroups, groups := List.replicate nrGroups ⟨0, 0, 0⟩,
    cpuMap := List.replicate nrUnits nrCpus }

/-- The units of an allocation do not have a whole number of pages. -/
def Uneven (allocSize upa : ℕ) : Prop :=
  allocSize % upa ≠ 0 ∨ offsetInPage (allocSize / upa) ≠ 0

instance (allocSize upa : ℕ) : Decidable (Uneven allocSize upa) := instDecidableOr

/-- The loop that lowers `upa`. -/
def lowerUpa (allocSize : ℕ) : ℕ → Option ℕ
  | 0 => none
  | upa + 1 => if Uneven allocSize (upa + 1) then lowerUpa allocSize upa else some (upa + 1)

/-- The round of the grouping for a cpu; the pairs of a group map and its counts. -/
def groupCpu (groups : List ℕ × List ℕ) (cpu : ℕ) : List ℕ × List ℕ :=
  let group := 0
  (groups.1.set cpu group, groups.2.set group (groups.2.getD group 0 + 1))

def groupCpus (nrCpus : ℕ) : List ℕ × List ℕ :=
  (List.range nrCpus).foldl groupCpu (List.replicate nrCpus 0, List.replicate nrCpus 0)

/-- `allocs` and `wasted` after a group. -/
def countAllocs (groupCnt : List ℕ) (upa : ℕ) (counts : ℕ × ℕ) (group : ℕ) : ℕ × ℕ :=
  let thisAllocs := (groupCnt.getD group 0 + upa - 1) / upa
  (counts.1 + thisAllocs, counts.2 + (thisAllocs * upa - groupCnt.getD group 0))

/-- The loop that chooses `best_upa`. -/
def bestUpa (allocSize nrCpus nrGroups : ℕ) (groupCnt : List ℕ) : ℕ → ℕ → Option ℕ → Option ℕ
  | 0, _, best => best
  | upa + 1, lastAllocs, best =>
    if Uneven allocSize (upa + 1) then bestUpa allocSize nrCpus nrGroups groupCnt upa lastAllocs best
    else
      let counts := (List.range nrGroups).foldl (countAllocs groupCnt (upa + 1)) (0, 0)
      if nrCpus / 3 < counts.2 then bestUpa allocSize nrCpus nrGroups groupCnt upa lastAllocs best
      else if lastAllocs < counts.1 then best
      else bestUpa allocSize nrCpus nrGroups groupCnt upa counts.1 (some (upa + 1))

/-- The units of the groups. -/
def countUnits (groupCnt : List ℕ) (upa nrUnits group : ℕ) : Option ℕ := do
  let units ← roundup (groupCnt.getD group 0) upa
  some (nrUnits + units)

/-- The place of the map of a group; the state is the groups and the next place. -/
def placeMap (groupCnt : List ℕ) (upa : ℕ) (state : List GroupInfo × ℕ) (group : ℕ) :
    Option (List GroupInfo × ℕ) := do
  let units ← roundup (groupCnt.getD group 0) upa
  some (state.1.modify group (fun gi => { gi with cpuMap := state.2 }), state.2 + units)

/-- `gi->cpu_map[gi->nr_units++] = cpu` for a cpu of the group. -/
def fillCpu (groupMap : List ℕ) (group : ℕ) (state : GroupInfo × List ℕ) (cpu : ℕ) :
    Option (GroupInfo × List ℕ) :=
  if groupMap.getD cpu 0 = group then
    let unit := state.1.cpuMap + state.1.nrUnits
    if unit < state.2.length then
      some ({ state.1 with nrUnits := state.1.nrUnits + 1 }, state.2.set unit cpu)
    else none
  else some state

/-- The loop over the groups, which ends at a group without cpus. -/
def fillGroups (nrCpus upa : ℕ) (groupMap groupCnt : List ℕ) :
    ℕ → ℕ → ℕ → AllocInfo → Option AllocInfo
  | 0, _, _, _ => none
  | fuel + 1, group, unit, ai =>
    match groupCnt[group]? with
    | none => none
    | some 0 => some ai
    | some (_ + 1) => do
      let gi ← ai.groups[group]?
      let gi := { gi with baseOffset := word (unit * ai.unitSize) }
      let filled ← (List.range nrCpus).foldlM (fillCpu groupMap group) (gi, ai.cpuMap)
      let units ← roundup filled.1.nrUnits upa
      let gi := { filled.1 with nrUnits := units }
      fillGroups nrCpus upa groupMap groupCnt fuel (group + 1) (unit + units)
        { ai with groups := ai.groups.set group gi, cpuMap := filled.2 }

/-- `pcpu_build_alloc_info`. -/
def pcpuBuildAllocInfo (nrCpus staticSize reservedSize dynSize atomSize : ℕ) : Option AllocInfo := do
  let nrGroups := 1
  let sizeSum := PFN_ALIGN (word (staticSize + reservedSize + max dynSize PERCPU_DYNAMIC_EARLY_SIZE))
  let dynSize := sub (sub sizeSum staticSize) reservedSize
  let minUnitSize := max sizeSum PCPU_MIN_UNIT_SIZE
  let allocSize ← roundupSize minUnitSize atomSize
  let upa ← div allocSize minUnitSize
  let maxUpa ← lowerUpa allocSize upa
  let groups := groupCpus nrCpus
  let upa ← bestUpa allocSize nrCpus nrGroups groups.2 maxUpa INT_MAX none
  let nrUnits ← (List.range nrGroups).foldlM (countUnits groups.2 upa) 0
  let ai := pcpuAllocAllocInfo nrCpus nrGroups nrUnits
  let placed ← (List.range nrGroups).foldlM (placeMap groups.2 upa) (ai.groups, 0)
  let unitSize ← div allocSize upa
  let ai := { ai with
    groups := placed.1, staticSize := staticSize, reservedSize := reservedSize, dynSize := dynSize,
    unitSize := unitSize, atomSize := atomSize, allocSize := allocSize }
  fillGroups nrCpus upa groups.1 groups.2 (nrCpus + 1) 0 0 ai

/-! ### The sizes -/

variable {nrCpus staticSize reservedSize dynSize atomSize allocSize : ℕ}

/-- The sums of the sizes fit in a word. -/
structure NoOverflow (staticSize reservedSize dynSize atomSize : ℕ) : Prop where
  sum : staticSize + reservedSize + max dynSize PERCPU_DYNAMIC_EARLY_SIZE + (PAGE_SIZE - 1) < 2 ^ 32
  atom : max (PFN_ALIGN (staticSize + reservedSize + max dynSize PERCPU_DYNAMIC_EARLY_SIZE))
    PCPU_MIN_UNIT_SIZE + (atomSize - 1) < 2 ^ 32

theorem PFN_ALIGN_spec {x : ℕ} (h : x + (PAGE_SIZE - 1) < 2 ^ 32) :
    x ≤ PFN_ALIGN x ∧ PFN_ALIGN x < 2 ^ 32 ∧ PAGE_SIZE ∣ PFN_ALIGN x := by
  refine ⟨?_, ?_, Nat.dvd_mul_left _ _⟩ <;>
  · unfold PFN_ALIGN word
    rw [Nat.mod_eq_of_lt h]
    unfold PAGE_SIZE at *
    omega

theorem sub_eq {x y : ℕ} (hx : x < 2 ^ 32) (hle : y ≤ x) : sub x y = x - y := by
  unfold sub word
  omega

theorem roundupSize_spec {x y : ℕ} (hy : 0 < y) (h : x + (y - 1) < 2 ^ 32) :
    ∃ r, roundupSize x y = some r ∧ x ≤ r ∧ y ∣ r := by
  have hle : (x + (y - 1)) / y * y ≤ x + (y - 1) := Nat.div_mul_le_self _ _
  refine ⟨(x + (y - 1)) / y * y, ?_, ?_, Nat.dvd_mul_left _ _⟩
  · unfold roundupSize div word
    rw [Nat.mod_eq_of_lt h, if_neg (by omega), Option.bind_eq_bind, Option.bind_some,
      Nat.mod_eq_of_lt (by omega)]
  · have hmod := Nat.mod_lt (x + (y - 1)) hy
    have hdm := Nat.div_add_mod' (x + (y - 1)) y
    omega

theorem roundup_spec {x y : ℕ} (hy : 0 < y) : ∃ r, roundup x y = some r ∧ x ≤ r ∧ y ∣ r := by
  refine ⟨(x + (y - 1)) / y * y, ?_, ?_, Nat.dvd_mul_left _ _⟩
  · unfold roundup div
    rw [if_neg (by omega), Option.bind_eq_bind, Option.bind_some]
  · have hmod := Nat.mod_lt (x + (y - 1)) hy
    have hdm := Nat.div_add_mod' (x + (y - 1)) y
    omega

/-! ### The units of an allocation -/

theorem uneven_one (h : PAGE_SIZE ∣ allocSize) : ¬ Uneven allocSize 1 := by
  unfold Uneven offsetInPage
  rw [Nat.mod_one, Nat.div_one, Nat.mod_eq_zero_of_dvd h]
  simp

theorem units_of_even {upa : ℕ} (h : ¬ Uneven allocSize upa) :
    upa ∣ allocSize ∧ PAGE_SIZE ∣ allocSize / upa := by
  unfold Uneven offsetInPage at h
  exact ⟨Nat.dvd_of_mod_eq_zero (by omega), Nat.dvd_of_mod_eq_zero (by omega)⟩

theorem lowerUpa_spec (h : PAGE_SIZE ∣ allocSize) : ∀ upa, 1 ≤ upa →
    ∃ r, lowerUpa allocSize upa = some r ∧ 1 ≤ r ∧ r ≤ upa
  | 0, h1 => absurd h1 (by decide)
  | upa + 1, _ => by
    rw [lowerUpa]
    by_cases hu : Uneven allocSize (upa + 1)
    · rw [if_pos hu]
      -- one unit has all of the pages
      have hpos : 1 ≤ upa := by
        by_contra h0
        obtain rfl : upa = 0 := by omega
        exact uneven_one h hu
      obtain ⟨r, h1, h2, h3⟩ := lowerUpa_spec h upa hpos
      exact ⟨r, h1, h2, by omega⟩
    · rw [if_neg hu]
      exact ⟨upa + 1, rfl, by omega, le_rfl⟩

/-- **`best_upa`** is assigned in the round of `upa = 1` at the latest, which wastes nothing. -/
theorem bestUpa_spec {count bound : ℕ} {groupCnt : List ℕ} (h : PAGE_SIZE ∣ allocSize) (hcount : 1 ≤ count)
    (hmax : count ≤ INT_MAX) :
    ∀ (upa lastAllocs : ℕ) (best : Option ℕ), upa ≤ bound →
      (∀ b, best = some b → 1 ≤ b ∧ b ≤ bound ∧ ¬ Uneven allocSize b) →
      (best = none → 1 ≤ upa ∧ lastAllocs = INT_MAX) →
      ∃ b, bestUpa allocSize nrCpus 1 (count :: groupCnt) upa lastAllocs best = some b ∧
        1 ≤ b ∧ b ≤ bound ∧ ¬ Uneven allocSize b
  | 0, lastAllocs, best, _, hsome, hnone => by
    cases best with
    | none => exact absurd (hnone rfl).1 (by decide)
    | some b => exact ⟨b, rfl, hsome b rfl⟩
  | upa + 1, lastAllocs, best, hle, hsome, hnone => by
    have hcounts : (List.range 1).foldl (countAllocs (count :: groupCnt) (upa + 1)) (0, 0) =
        ((count + upa) / (upa + 1), (count + upa) / (upa + 1) * (upa + 1) - count) := by
      simp [countAllocs]
    rw [bestUpa, hcounts]
    dsimp only
    have hnext : 1 ≤ upa → best = none → 1 ≤ upa ∧ lastAllocs = INT_MAX :=
      fun hpos hbest => ⟨hpos, (hnone hbest).2⟩
    by_cases hu : Uneven allocSize (upa + 1)
    · rw [if_pos hu]
      have hpos : 1 ≤ upa := by
        by_contra h0
        obtain rfl : upa = 0 := by omega
        exact uneven_one h hu
      exact bestUpa_spec h hcount hmax upa lastAllocs best (by omega) hsome (hnext hpos)
    · rw [if_neg hu]
      by_cases hw : nrCpus / 3 < (count + upa) / (upa + 1) * (upa + 1) - count
      · rw [if_pos hw]
        have hpos : 1 ≤ upa := by
          by_contra h0
          obtain rfl : upa = 0 := by omega
          rw [Nat.zero_add, Nat.div_one, Nat.mul_one] at hw
          omega
        exact bestUpa_spec h hcount hmax upa lastAllocs best (by omega) hsome (hnext hpos)
      · rw [if_neg hw]
        by_cases hl : lastAllocs < (count + upa) / (upa + 1)
        · -- a first round does not stop here, as it needs at most `count` allocations
          rw [if_pos hl]
          have hfew : (count + upa) / (upa + 1) ≤ count := by
            rw [Nat.div_le_iff_le_mul_add_pred (by omega)]
            have : (upa + 1) * count = upa * count + count := by ring
            have : upa * 1 ≤ upa * count := Nat.mul_le_mul_left _ hcount
            omega
          cases best with
          | none => exact absurd hl (by rw [(hnone rfl).2]; omega)
          | some b => exact ⟨b, rfl, hsome b rfl⟩
        · rw [if_neg hl]
          refine bestUpa_spec h hcount hmax upa _ _ (by omega) (fun b hb => ?_)
            (fun hb => absurd hb (by simp))
          obtain rfl := Option.some.inj hb
          exact ⟨by omega, hle, hu⟩

/-! ### The groups -/

theorem foldl_groupCpu (n : ℕ) (rest : List ℕ) : ∀ (cpus : List ℕ) (count : ℕ),
    cpus.foldl groupCpu (List.replicate n 0, count :: rest) =
      (List.replicate n 0, (count + cpus.length) :: rest)
  | [], _ => rfl
  | cpu :: cpus, count => by
    have hmap : (List.replicate n 0).set cpu 0 = List.replicate n 0 := by
      rw [List.set_replicate_self]
    have hround : groupCpu (List.replicate n 0, count :: rest) cpu =
        (List.replicate n 0, (count + 1) :: rest) := by
      unfold groupCpu
      dsimp only
      rw [hmap]
      rfl
    rw [List.foldl_cons, hround, foldl_groupCpu n rest cpus (count + 1), List.length_cons,
      Nat.add_assoc, Nat.add_comm 1]

/-- All cpus are in the first group. -/
theorem groupCpus_eq (h : 1 ≤ nrCpus) :
    groupCpus nrCpus = (List.replicate nrCpus 0, nrCpus :: List.replicate (nrCpus - 1) 0) := by
  obtain ⟨n, rfl⟩ : ∃ n, nrCpus = n + 1 := ⟨nrCpus - 1, by omega⟩
  have := foldl_groupCpu (n + 1) (List.replicate n 0) (List.range (n + 1)) 0
  rw [List.length_range, Nat.zero_add] at this
  exact this

/-! ### The map of the cpus -/

/-- The map while the cpus below `k` are in it. -/
def filledMap (nrCpus units k : ℕ) : List ℕ := List.range k ++ List.replicate (units - k) nrCpus

theorem length_filledMap {units k : ℕ} (h : k ≤ units) : (filledMap nrCpus units k).length = units := by
  unfold filledMap
  rw [List.length_append, List.length_range, List.length_replicate]
  omega

theorem set_filledMap {units k : ℕ} (h : k < units) :
    (filledMap nrCpus units k).set k k = filledMap nrCpus units (k + 1) := by
  obtain ⟨m, hm⟩ : ∃ m, units - k = m + 1 := ⟨units - k - 1, by omega⟩
  have hm' : units - (k + 1) = m := by omega
  unfold filledMap
  rw [hm, hm', List.set_append_right _ _ (by simp), List.length_range, Nat.sub_self,
    List.replicate_succ, List.set_cons_zero, List.range_succ, List.append_assoc, List.singleton_append]

theorem fill_range {units base : ℕ} (hunits : nrCpus ≤ units) : ∀ m k, k + m = nrCpus →
    (List.range' k m).foldlM (fillCpu (List.replicate nrCpus 0) 0)
      (⟨k, base, 0⟩, filledMap nrCpus units k) =
    some (⟨nrCpus, base, 0⟩, filledMap nrCpus units nrCpus)
  | 0, k, h => by
    obtain rfl : k = nrCpus := h
    rfl
  | m + 1, k, h => by
    have hround : fillCpu (List.replicate nrCpus 0) 0 (⟨k, base, 0⟩, filledMap nrCpus units k) k =
        some (⟨k + 1, base, 0⟩, filledMap nrCpus units (k + 1)) := by
      unfold fillCpu
      dsimp only
      rw [if_pos (by simp), Nat.zero_add, length_filledMap (by omega), if_pos (by omega),
        set_filledMap (by omega)]
    rw [List.range'_succ, List.foldlM_cons, hround, Option.bind_eq_bind, Option.bind_some]
    exact fill_range hunits m (k + 1) (by omega)

/-- Every cpu has one entry. -/
theorem count_filledMap {units cpu : ℕ} (h : cpu < nrCpus) :
    (filledMap nrCpus units nrCpus).count cpu = 1 := by
  unfold filledMap
  rw [List.count_append, List.count_eq_one_of_mem List.nodup_range (List.mem_range.mpr h),
    List.count_replicate, if_neg (by simp; omega)]

/-- The only group gets all of the cpus, and its units are rounded up. -/
theorem fillGroups_spec {upa units : ℕ} (ai : AllocInfo) (hcpus : 2 ≤ nrCpus) (hunits : nrCpus ≤ units)
    (hround : roundup nrCpus upa = some units) (hgroups : ai.groups = [⟨0, 0, 0⟩])
    (hmap : ai.cpuMap = List.replicate units nrCpus) :
    fillGroups nrCpus upa (List.replicate nrCpus 0) (nrCpus :: List.replicate (nrCpus - 1) 0)
        (nrCpus + 1) 0 0 ai =
      some { ai with groups := [⟨units, 0, 0⟩], cpuMap := filledMap nrCpus units nrCpus } := by
  obtain ⟨n, rfl⟩ : ∃ n, nrCpus = n + 2 := ⟨nrCpus - 2, by omega⟩
  have hfill : (List.range (n + 2)).foldlM (fillCpu (List.replicate (n + 2) 0) 0)
      (⟨0, word (0 * ai.unitSize), 0⟩, ai.cpuMap) =
      some (⟨n + 2, 0, 0⟩, filledMap (n + 2) units (n + 2)) := by
    have hzero : word (0 * ai.unitSize) = 0 := by
      rw [Nat.zero_mul]
      rfl
    have hstart : ai.cpuMap = filledMap (n + 2) units 0 := hmap
    rw [hzero, hstart, List.range_eq_range']
    exact fill_range hunits (n + 2) 0 (Nat.zero_add _)
  rw [fillGroups]
  simp only [List.getElem?_cons_zero, hgroups, Option.bind_eq_bind, Option.bind_some]
  rw [hfill, Option.bind_some, hround, Option.bind_some]
  rfl

/-! ### The layout -/

/-- A layout of allocations of `upa` units. -/
structure Consistent (nrCpus staticSize reservedSize dynSize atomSize : ℕ) (ai : AllocInfo)
    (upa : ℕ) : Prop where
  pos : 1 ≤ upa
  staticSize : ai.staticSize = staticSize
  reservedSize : ai.reservedSize = reservedSize
  dynSize : dynSize ≤ ai.dynSize
  page : PAGE_SIZE ∣ ai.unitSize
  unit : ai.staticSize + ai.reservedSize + ai.dynSize ≤ ai.unitSize
  atom : atomSize ∣ ai.allocSize
  alloc : ai.allocSize = ai.unitSize * upa
  groups : ∀ gi ∈ ai.groups, upa ∣ gi.nrUnits
  units : upa ∣ ai.cpuMap.length
  cpus : ∀ cpu < nrCpus, ai.cpuMap.count cpu = 1

/-- **The layout of the units.** Every step has a result, also the divisions and the read of
`best_upa`, and the layout is consistent. -/
theorem pcpuBuildAllocInfo_consistent (hcpus : 2 ≤ nrCpus) (hint : nrCpus ≤ INT_MAX)
    (hpos : 0 < atomSize) (hpage : PAGE_SIZE ∣ atomSize)
    (hsizes : NoOverflow staticSize reservedSize dynSize atomSize) :
    ∃ ai upa, pcpuBuildAllocInfo nrCpus staticSize reservedSize dynSize atomSize = some ai ∧
      Consistent nrCpus staticSize reservedSize dynSize atomSize ai upa := by
  obtain ⟨hsum, hatom⟩ := hsizes
  have hword : word (staticSize + reservedSize + max dynSize PERCPU_DYNAMIC_EARLY_SIZE) =
      staticSize + reservedSize + max dynSize PERCPU_DYNAMIC_EARLY_SIZE := Nat.mod_eq_of_lt (by omega)
  obtain ⟨hle, hlt, hdvd⟩ := PFN_ALIGN_spec hsum
  obtain ⟨sizeSum, hsizeSum⟩ : ∃ sizeSum, PFN_ALIGN
      (staticSize + reservedSize + max dynSize PERCPU_DYNAMIC_EARLY_SIZE) = sizeSum := ⟨_, rfl⟩
  rw [hsizeSum] at hle hlt hdvd hatom
  obtain ⟨allocSize, halloc, hmin, hdvda⟩ := roundupSize_spec hpos hatom
  have hpagea : PAGE_SIZE ∣ allocSize := hpage.trans hdvda
  have hunit : 0 < max sizeSum PCPU_MIN_UNIT_SIZE := lt_of_lt_of_le (by decide) (le_max_right _ _)
  obtain ⟨maxUpa, hlower, hmax1, hmax⟩ := lowerUpa_spec hpagea
    (allocSize / max sizeSum PCPU_MIN_UNIT_SIZE) (Nat.div_pos hmin hunit)
  obtain ⟨upa, hbest, hupa, hupamax, heven⟩ := @bestUpa_spec nrCpus _ nrCpus maxUpa
    (List.replicate (nrCpus - 1) 0) hpagea (by omega) hint maxUpa INT_MAX none le_rfl
    (fun b hb => absurd hb (by simp)) (fun _ => ⟨hmax1, rfl⟩)
  obtain ⟨hdvdu, hpageu⟩ := units_of_even heven
  obtain ⟨units, hround, hunits, hdvdr⟩ := @roundup_spec nrCpus upa hupa
  have hgroups := @groupCpus_eq nrCpus (by omega)
  have hdyn : sub (sub sizeSum staticSize) reservedSize = sizeSum - staticSize - reservedSize := by
    rw [sub_eq hlt (by omega), sub_eq (by omega) (by omega)]
  have hle' : sizeSum ≤ allocSize / upa := by
    rw [Nat.le_div_iff_mul_le hupa]
    calc sizeSum * upa ≤ max sizeSum PCPU_MIN_UNIT_SIZE * (allocSize / max sizeSum PCPU_MIN_UNIT_SIZE) :=
          Nat.mul_le_mul (le_max_left _ _) (hupamax.trans hmax)
      _ ≤ allocSize := Nat.mul_div_le _ _
  have hcount : (List.range 1).foldlM
      (countUnits (nrCpus :: List.replicate (nrCpus - 1) 0) upa) 0 = some units := by
    simp [countUnits, hround]
  have hplaced : (List.range 1).foldlM (placeMap (nrCpus :: List.replicate (nrCpus - 1) 0) upa)
      ((pcpuAllocAllocInfo nrCpus 1 units).groups, 0) = some ([⟨0, 0, 0⟩], units) := by
    simp [placeMap, hround, pcpuAllocAllocInfo]
  have hdiv : div allocSize (max sizeSum PCPU_MIN_UNIT_SIZE) =
      some (allocSize / max sizeSum PCPU_MIN_UNIT_SIZE) := if_neg (by omega)
  have hdivu : div allocSize upa = some (allocSize / upa) := if_neg (by omega)
  have hbuild : pcpuBuildAllocInfo nrCpus staticSize reservedSize dynSize atomSize =
      some ⟨staticSize, reservedSize, sizeSum - staticSize - reservedSize, allocSize / upa, atomSize,
        allocSize, 1, [⟨units, 0, 0⟩], filledMap nrCpus units nrCpus⟩ := by
    unfold pcpuBuildAllocInfo
    simp only [hword, hsizeSum, hdyn, halloc, hdiv, hlower, hgroups, hbest, hcount, hplaced, hdivu,
      Option.bind_eq_bind, Option.bind_some]
    exact fillGroups_spec _ hcpus hunits hround rfl rfl
  refine ⟨_, upa, hbuild, ?_⟩
  constructor
  · exact hupa
  · rfl
  · rfl
  · show dynSize ≤ sizeSum - staticSize - reservedSize
    omega
  · exact hpageu
  · show staticSize + reservedSize + (sizeSum - staticSize - reservedSize) ≤ allocSize / upa
    omega
  · exact hdvda
  · exact (Nat.div_mul_cancel hdvdu).symm
  · intro gi hgi
    obtain rfl := List.mem_singleton.mp hgi
    exact hdvdr
  · rw [length_filledMap hunits]
    exact hdvdr
  · exact fun cpu hcpu => count_filledMap hcpu

/-- The layout of four cpus, with the sizes of the first chunk. -/
theorem pcpuBuildAllocInfo_consistent_four :
    ∃ ai upa, pcpuBuildAllocInfo 4 100 (8 * 1024) (20 * 1024) PAGE_SIZE = some ai ∧
      Consistent 4 100 (8 * 1024) (20 * 1024) PAGE_SIZE ai upa :=
  pcpuBuildAllocInfo_consistent (by decide) (by decide) (by decide) dvd_rfl ⟨by decide, by decide⟩

end HardStack.Percpu.UnitLayout
