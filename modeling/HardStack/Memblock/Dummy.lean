import HardStack.Memblock.Iterate

/-! # Where the dummy region lies

A region of size 0 is the dummy of an empty array, and it lies at 0: the static initial value has it
there, and so does `memblock_remove_region`, while every region that is inserted, cut or merged keeps
an address. So every state that the calls of the interface reach is one the iterators are made for. -/

namespace HardStack.Memblock.Dummy

open HardStack.Memblock.Model HardStack.Memblock.Range HardStack.Memblock.Run
open HardStack.Memblock.Iterate

/-- The regions without an address lie at 0. -/
def Based (L : List Region) : Prop := ∀ r ∈ L, r.size = 0 → r.base = 0

/-- Both arrays are so. -/
def StBased (s : State) : Prop := ∀ k, Based (s.type k).regions

/-- What is assumed of the nested calls. -/
def Keeps (double : State → Kind → ℕ → ℕ → Option (State × Bool)) : Prop :=
  ∀ s kind a m s' ok, StBased s → double s kind a m = some (s', ok) → StBased s'

section

variable {type type' : MemblockType} {s s' : State} {kind : Kind} {base size fin flags n : ℕ}

theorem StBased.setType {t : MemblockType} (h : StBased s) (ht : Based t.regions) :
    StBased (s.setType kind t) := by
  intro k
  by_cases hk : k = kind
  · subst hk
    rw [type_setType]
    exact ht
  · rw [type_setType_ne s t hk]
    exact h k

/-! ### Edits of an array -/

theorem insertRegion_based {idx : ℕ} (h : Based type.regions) (hsize : 0 < size)
    (he : insertRegion type idx base size flags = some type') : Based type'.regions := by
  unfold insertRegion at he
  split_ifs at he
  cases he
  intro r hr hz
  rcases List.eq_or_mem_of_mem_insertIdx hr with rfl | hr
  · exact absurd hz (by dsimp only; omega)
  · exact h r hr hz

theorem set_based {idx : ℕ} {r : Region} {L : List Region} (h : Based L) (hr : 0 < r.size) :
    Based (L.set idx r) := by
  intro x hx hz
  rcases List.mem_or_eq_of_mem_set hx with hx | rfl
  · exact h x hx hz
  · omega

theorem mergeFrom_based : ∀ (L : List Region) (this : Region) {M : List Region},
    Based (this :: L) → mergeFrom this L = some M → Based M
  | [], this, M, h, he => by
    cases he
    exact h
  | next :: rest, this, M, h, he => by
    obtain ⟨hthis, hrest⟩ := List.forall_mem_cons.mp h
    unfold mergeFrom at he
    split_ifs at he with h1 h2
    · obtain ⟨N, hN, rfl⟩ := Option.map_eq_some_iff.mp he
      exact List.forall_mem_cons.mpr ⟨hthis, mergeFrom_based rest next hrest hN⟩
    · refine mergeFrom_based rest _ (List.forall_mem_cons.mpr ⟨fun hz => ?_, ?_⟩) he
      · dsimp only at hz ⊢
        exact hthis (by omega)
      · exact (List.forall_mem_cons.mp hrest).2

theorem mergeRegions_based (h : Based type.regions) (he : mergeRegions type = some type') :
    Based type'.regions := by
  unfold mergeRegions at he
  cases hr : type.regions with
  | nil =>
    rw [hr] at he
    cases he
    exact h
  | cons this rest =>
    rw [hr] at he h
    obtain ⟨M, hM, rfl⟩ := Option.map_eq_some_iff.mp he
    exact mergeFrom_based rest this h hM

theorem addLoop_based : ∀ (k : ℕ) (type : MemblockType) (idx base nr : ℕ) {type' : MemblockType}
    {idx' base' nr' : ℕ}, Based type.regions →
    addLoop true fin flags k type idx base nr = some (type', idx', base', nr') → Based type'.regions
  | 0, type, idx, base, nr, type', idx', base', nr', h, he => by
    cases he
    exact h
  | k + 1, type, idx, base, nr, type', idx', base', nr', h, he => by
    unfold addLoop at he
    dsimp only at he
    by_cases h1 : (type.region idx).base ≥ fin
    · rw [if_pos h1] at he
      cases he
      exact h
    rw [if_neg h1] at he
    by_cases h2 : (type.region idx).base + (type.region idx).size ≤ base
    · rw [if_pos h2] at he
      exact addLoop_based k type _ _ _ h he
    rw [if_neg h2] at he
    by_cases h3 : (type.region idx).base > base
    · rw [if_pos h3, if_pos rfl] at he
      cases hins : insertRegion type idx base ((type.region idx).base - base) flags with
      | none =>
        rw [hins] at he
        cases he
      | some t =>
        rw [hins] at he
        exact addLoop_based k t _ _ _ (insertRegion_based h (by omega) hins) he
    · rw [if_neg h3] at he
      exact addLoop_based k type _ _ _ h he

theorem addPass_based {nr : ℕ} (h : Based type.regions)
    (he : addPass true type base fin flags = some (type', nr)) : Based type'.regions := by
  obtain ⟨⟨t, idx, b, m⟩, hloop, hrest⟩ := Option.bind_eq_some_iff.mp he
  have ht := addLoop_based _ _ _ _ _ h hloop
  unfold addRest at hrest
  dsimp only at hrest
  by_cases hb : b < fin
  · rw [if_pos hb, if_pos rfl] at hrest
    obtain ⟨t', hins, heq⟩ := Option.map_eq_some_iff.mp hrest
    cases heq
    exact insertRegion_based ht (by omega) hins
  · rw [if_neg hb] at hrest
    cases hrest
    exact ht

theorem isolateLoop_based : ∀ (k : ℕ) (type : MemblockType) (idx startRgn endRgn : ℕ)
    {type' : MemblockType} {startRgn' endRgn' : ℕ}, Based type.regions →
    isolateLoop base fin k type idx startRgn endRgn = some (type', startRgn', endRgn') →
    Based type'.regions
  | 0, type, idx, startRgn, endRgn, type', startRgn', endRgn', h, he => by cases he
  | k + 1, type, idx, startRgn, endRgn, type', startRgn', endRgn', h, he => by
    unfold isolateLoop at he
    dsimp only at he
    by_cases h0 : idx < type.cnt
    swap
    · rw [if_neg h0] at he
      cases he
      exact h
    rw [if_pos h0] at he
    by_cases h1 : (type.region idx).base ≥ fin
    · rw [if_pos h1] at he
      cases he
      exact h
    rw [if_neg h1] at he
    by_cases h2 : (type.region idx).base + (type.region idx).size ≤ base
    · rw [if_pos h2] at he
      exact isolateLoop_based k type _ _ _ h he
    rw [if_neg h2] at he
    by_cases h3 : (type.region idx).base < base
    · rw [if_pos h3] at he
      split at he
      · cases he
      rename_i t hins
      exact isolateLoop_based k t _ _ _ (insertRegion_based (set_based h (by dsimp only; omega))
        (by omega) hins) he
    rw [if_neg h3] at he
    by_cases h4 : (type.region idx).base + (type.region idx).size > fin
    · rw [if_pos h4] at he
      split at he
      · cases he
      rename_i t hins
      exact isolateLoop_based k t _ _ _ (insertRegion_based (set_based h (by dsimp only; omega))
        (by omega) hins) he
    · rw [if_neg h4] at he
      exact isolateLoop_based k type _ _ _ h he

theorem removeRegion_based {r : ℕ} (h : Based type.regions) :
    Based (removeRegion type r).regions := by
  unfold removeRegion
  dsimp only
  split_ifs
  · intro x hx _
    rw [List.mem_singleton.mp hx]
  · exact fun x hx => h x (List.mem_of_mem_eraseIdx hx)

theorem removeLoop_based (startRgn : ℕ) : ∀ (k : ℕ) {type : MemblockType}, Based type.regions →
    Based (removeLoop startRgn k type).regions
  | 0, _, h => h
  | k + 1, _, h => removeLoop_based startRgn k (removeRegion_based h)

/-! ### The calls -/

variable {double : State → Kind → ℕ → ℕ → Option (State × Bool)} {ret : ℤ}

theorem growArray_based (hd : Keeps double) {extra : ℕ} : ∀ (n : ℕ) (s : State) {s' : State}
    {ok : Bool}, StBased s → growArray double kind extra base size n s = some (s', ok) → StBased s'
  | n, s, s', ok, h, he => by
    unfold growArray at he
    split_ifs at he with hroom
    · cases he
      exact h
    cases n with
    | zero => cases he
    | succ n =>
      dsimp only at he
      split at he
      · cases he
      · rename_i t hdouble
        cases he
        exact hd _ _ _ _ _ _ h hdouble
      · rename_i t hdouble
        exact growArray_based hd n t (hd _ _ _ _ _ _ h hdouble) he

theorem addRange_based (hd : Keeps double) (h : StBased s)
    (he : addRange double n s kind base size flags = some (s', ret)) : StBased s' := by
  unfold addRange at he
  dsimp only at he
  split_ifs at he with hsize hfirst
  · cases he
    exact h
  · cases he
    refine h.setType (List.forall_mem_cons.mpr ⟨fun hz => absurd hz hsize, fun r hr => ?_⟩)
    exact h kind r (List.mem_of_mem_tail hr)
  · split at he
    · cases he
    split_ifs at he
    · cases he
      exact h
    split at he
    · cases he
    · rename_i t hgrow
      cases he
      exact growArray_based hd n s h hgrow
    · rename_i t hgrow
      have ht := growArray_based hd n s h hgrow
      split at he
      · cases he
      rename_i t' nr hpass
      have hpass' := addPass_based (ht kind) hpass
      split_ifs at he
      · cases he
        exact ht.setType hpass'
      · obtain ⟨t'', hmerge, heq⟩ := Option.map_eq_some_iff.mp he
        cases heq
        exact ht.setType (mergeRegions_based hpass' hmerge)

theorem removeRange_based (hd : Keeps double) (h : StBased s)
    (he : removeRange double n s kind base size = some (s', ret)) : StBased s' := by
  unfold removeRange isolateRange at he
  dsimp only at he
  split at he
  · cases he
  rename_i t r startRgn endRgn hiso
  have ht : StBased t := by
    split_ifs at hiso
    · cases hiso
      exact h
    split at hiso
    · cases hiso
    · rename_i t' hgrow
      cases hiso
      exact growArray_based hd n s h hgrow
    · rename_i t' hgrow
      obtain ⟨⟨type', a, b⟩, hloop, heq⟩ := Option.map_eq_some_iff.mp hiso
      cases heq
      have ht' := growArray_based hd n s h hgrow
      exact ht'.setType (isolateLoop_based _ _ _ _ _ (ht' kind) hloop)
  split_ifs at he
  · cases he
    exact ht
  · cases he
    exact ht.setType (removeLoop_based _ _ (ht kind))

end

variable {c : Config} {s s' : State} {n : ℕ}

theorem switched_based {kind : Kind} (addr : ℕ) (h : StBased s) : StBased (switched s kind addr) :=
  StBased.setType h (h kind)

theorem doubleArray_based : ∀ n, Keeps (doubleArray c n)
  | 0 => fun s kind a m s' ok h he => by cases he
  | n + 1 => by
    intro s kind a m s' ok h he
    have hd := doubleArray_based n
    rcases doubleArray_cases he with ⟨-, rfl, -⟩ | ⟨addr, s₂, s₃, hadd, hne, hfreed, hres, rfl, -⟩
    · exact h
    have h₂ : StBased s₂ := by
      have hsw := @switched_based _ kind addr h
      unfold OldFreed at hfreed
      cases harr : (s.type kind).array with
      | none =>
        rw [harr] at hfreed
        rw [hfreed]
        exact hsw
      | some old =>
        rw [harr] at hfreed
        obtain ⟨s₁, ret, hrem, rfl⟩ := hfreed
        have h₁ := removeRange_based hd hsw hrem
        intro k
        split_ifs
        · cases k
          · exact h₁ .memory
          · exact h₁ .reserved
        · exact h₁ k
    have h₃ := addRange_based hd h₂ hres
    intro k
    cases k
    · exact h₃ .memory
    · exact h₃ .reserved

theorem findAndReserve_based {size align start fin a : ℕ} (h : StBased s)
    (he : findAndReserve c n s size align start fin = some (s', a)) : StBased s' := by
  unfold findAndReserve at he
  dsimp only at he
  split_ifs at he with hf
  · cases he
    exact h
  · obtain ⟨⟨t, ret⟩, hres, he⟩ := Option.map_eq_some_iff.mp he
    cases he
    exact addRange_based (doubleArray_based n) h hres

/-- **Every call** keeps it. -/
theorem step_based (h : StBased s) (hst : Step c s s') : StBased s' := by
  obtain ⟨n, call, -, he⟩ := hst
  cases call with
  | add base size =>
    obtain ⟨⟨t, ret⟩, hr, rfl⟩ := Option.map_eq_some_iff.mp he
    exact addRange_based (doubleArray_based n) h hr
  | reserve base size =>
    obtain ⟨⟨t, ret⟩, hr, rfl⟩ := Option.map_eq_some_iff.mp he
    exact addRange_based (doubleArray_based n) h hr
  | free base size =>
    obtain ⟨⟨t, ret⟩, hr, rfl⟩ := Option.map_eq_some_iff.mp he
    exact removeRange_based (doubleArray_based n) h hr
  | physAlloc size align =>
    obtain ⟨⟨t, a⟩, hr, rfl⟩ := Option.map_eq_some_iff.mp he
    exact findAndReserve_based h hr
  | allocTryNid size align minAddr maxAddr =>
    obtain ⟨⟨t, a⟩, hr, rfl⟩ := Option.map_eq_some_iff.mp he
    obtain ⟨⟨t', a'⟩, hr', heq⟩ := Option.map_eq_some_iff.mp hr
    cases heq
    rcases allocInternal_cases hr' with hr | ⟨t'', hfirst, hr⟩
    · exact findAndReserve_based h hr
    · exact findAndReserve_based (findAndReserve_based h hfirst) hr

theorem init_based : StBased init := by
  intro k
  cases k
  · exact fun r hr _ => by rw [List.mem_singleton.mp hr]
  · exact fun r hr _ => by rw [List.mem_singleton.mp hr]

/-- **In every run** the iterators meet arrays they are made for, as long as these lie in the address
space. -/
theorem reachable_proper (hrun : Relation.ReflTransGen (Step c) init s)
    (hbytes : ∀ k, (s.type k).cnt * regionBytes ≤ 2 ^ 32) : ∀ k, Proper (s.type k) := by
  have hwf : StWf 1 s := Lib.Run.invariant init_wf (fun _ _ ha hst => step_wf ha hst) hrun
  have hbased : StBased s := Lib.Run.invariant init_based (fun _ _ ha hst => step_based ha hst) hrun
  intro k
  have hrep := rep_of_wf (hwf.types k)
  exact ⟨hrep, hbased k _ (mem_regions.mpr ⟨0, hrep.cnt_pos, rfl⟩), hbytes k⟩

end HardStack.Memblock.Dummy
