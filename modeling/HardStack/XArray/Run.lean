import HardStack.Lib.Run
import HardStack.XArray.Store

/-! # The XArray as a finite map

The run keeps, beside the array, the map that the calls so far stand for: a store that does not fail
puts its entry, an erasure takes the index out. In every reachable state the array answers like the
map, whatever allocations failed on the way, and every call returns. -/

namespace HardStack.XArray.Run

open HardStack.XArray.Model HardStack.XArray.Layout HardStack.XArray.Create HardStack.XArray.Store

variable {W : ℕ}

/-- The array, and the map it stands for, with `NULL` for a free index. -/
structure System where
  xa : Xarray
  map : ℕ → ℕ

/-- The map after a store that returned `e`. -/
def storeMap (W : ℕ) (map : ℕ → ℕ) (index entry e : ℕ) : ℕ → ℕ :=
  if e = xaError W ENOMEM then map else Function.update map index entry

/-- One call on indices of `unsigned long`, with the fuel its loops need. -/
inductive Step (W : ℕ) : System → System → Prop
  | store {xa xa' : Xarray} {map : ℕ → ℕ} {malloc : ℕ → Finset ℕ → ℕ} {fuel index entry e : ℕ}
      (hm : Malloc malloc) (hi : index < 2 ^ W) (h0 : entry ≠ 0) (hentry : ¬ xaIsInternal entry)
      (hf : 2 * W + 6 ≤ fuel) (h : xaStore W malloc fuel xa index entry = some (xa', e)) :
      Step W ⟨xa, map⟩ ⟨xa', storeMap W map index entry e⟩
  | erase {xa xa' : Xarray} {map : ℕ → ℕ} {malloc : ℕ → Finset ℕ → ℕ} {fuel index e : ℕ}
      (hi : index < 2 ^ W) (hf : 2 * W + 6 ≤ fuel)
      (h : xaErase W malloc fuel xa index = some (xa', e)) :
      Step W ⟨xa, map⟩ ⟨xa', Function.update map index 0⟩

/-- `xas_load` on a new state gives the map. -/
def LoadsAs (W : ℕ) (xa : Xarray) (map : ℕ → ℕ) : Prop :=
  ∀ i < 2 ^ W, ∀ fuel, 2 * W + 6 ≤ fuel → xaLoad W fuel xa i = some (map i)

/-- **The array answers like the map.** A store fails only after an allocation did. -/
structure IsMap (W : ℕ) (x : System) : Prop where
  load : LoadsAs W x.xa x.map
  store : ∀ malloc, Malloc malloc → ∀ i < 2 ^ W, ∀ entry, entry ≠ 0 → ¬ xaIsInternal entry →
    ∀ fuel, 2 * W + 6 ≤ fuel → ∃ xa' e, xaStore W malloc fuel x.xa i entry = some (xa', e) ∧
      ((e = xaError W ENOMEM ∧ (∃ t L, malloc t L = 0) ∧ LoadsAs W xa' x.map ∧
          Step W x ⟨xa', x.map⟩) ∨
        (e = x.map i ∧ e ≠ xaError W ENOMEM ∧ LoadsAs W xa' (Function.update x.map i entry) ∧
          Step W x ⟨xa', Function.update x.map i entry⟩))
  erase : ∀ malloc, ∀ i < 2 ^ W, ∀ fuel, 2 * W + 6 ≤ fuel →
    ∃ xa', xaErase W malloc fuel x.xa i = some (xa', x.map i) ∧
      LoadsAs W xa' (Function.update x.map i 0) ∧ Step W x ⟨xa', Function.update x.map i 0⟩

/-- The invariant of a run. -/
structure SysInv (W : ℕ) (x : System) (pre : ℕ → ℕ) : Prop where
  inv : Inv W x.xa pre
  has : ∀ i a, Has x.xa pre i a ↔ x.map i = a ∧ a ≠ 0
  plain : ∀ i, ¬ xaIsInternal (x.map i)

namespace SysInv

variable {x : System} {pre : ℕ → ℕ}

theorem has_plain (h : SysInv W x pre) : ∀ i a, Has x.xa pre i a → ¬ xaIsInternal a := by
  intro i a ha
  obtain ⟨rfl, -⟩ := (h.has i a).mp ha
  exact h.plain i

theorem loadsAs (h : SysInv W x pre) : LoadsAs W x.xa x.map := by
  intro i _ fuel hf
  obtain ⟨n, o, e, heq, hfound⟩ := xasLoad_spec h.inv (i := i) (show W < fuel by omega)
  have hval : e = x.map i := Lib.Word.eq_of_pointers fun a => (hfound.has_iff h.inv).symm.trans (h.has i a)
  unfold xaLoad
  rw [heq, ← hval]
  rfl

/-- Putting an entry at an index, in the array and in the map. -/
theorem put (h : SysInv W x pre) {xa' : Xarray} {pre' : ℕ → ℕ} {index entry : ℕ}
    (hinv : Inv W xa' pre') (hput : Put x.xa pre index entry xa' pre')
    (hentry : ¬ xaIsInternal entry) : SysInv W ⟨xa', Function.update x.map index entry⟩ pre' := by
  refine ⟨hinv, fun i a => ?_, fun i => ?_⟩
  · rw [hput i a]
    by_cases hi : i = index
    · subst hi
      simp
    · rw [if_neg hi, h.has i a]
      simp [hi]
  · by_cases hi : i = index
    · subst hi
      simpa using hentry
    · simpa [hi] using h.plain i

/-- What a store does to the array and the map. -/
theorem store (hW : W = 32 ∨ W = 64) (h : SysInv W x pre) {malloc : ℕ → Finset ℕ → ℕ}
    (hm : Malloc malloc) {index entry fuel : ℕ} (hi : index < 2 ^ W) (h0 : entry ≠ 0)
    (hentry : ¬ xaIsInternal entry) (hf : 2 * W + 6 ≤ fuel) : ∃ xa' pre' e,
      xaStore W malloc fuel x.xa index entry = some (xa', e) ∧
      ((e = xaError W ENOMEM ∧ (∃ t L, malloc t L = 0) ∧ SysInv W ⟨xa', x.map⟩ pre') ∨
        (e = x.map index ∧ e ≠ xaError W ENOMEM ∧
          SysInv W ⟨xa', Function.update x.map index entry⟩ pre')) := by
  obtain ⟨xa', pre', e, heq, hinv, hres⟩ := xaStore_spec hm hW h.inv h.has_plain hi h0 hentry hf
  refine ⟨xa', pre', e, heq, ?_⟩
  rcases hres with ⟨he, hfail, hhas⟩ | ⟨hold, hput⟩
  · exact Or.inl ⟨he, hfail, hinv, fun i a => (hhas i a).trans (h.has i a), h.plain⟩
  · have hval : e = x.map index := Lib.Word.eq_of_pointers fun a => (hold a).symm.trans (h.has index a)
    refine Or.inr ⟨hval, fun he => ?_, h.put hinv hput hentry⟩
    exact h.plain index (hval ▸ he ▸ xaIsInternal_xaError (by omega) ENOMEM)

/-- What an erasure does to the array and the map. -/
theorem erase (h : SysInv W x pre) (malloc : ℕ → Finset ℕ → ℕ) (index : ℕ) {fuel : ℕ}
    (hf : 2 * W + 6 ≤ fuel) : ∃ xa', xaErase W malloc fuel x.xa index = some (xa', x.map index) ∧
      SysInv W ⟨xa', Function.update x.map index 0⟩ pre := by
  obtain ⟨xa', e, heq, hinv, hold, hput⟩ := xaErase_spec malloc h.inv h.has_plain index hf
  have hval : e = x.map index := Lib.Word.eq_of_pointers fun a => (hold a).symm.trans (h.has index a)
  exact ⟨xa', hval ▸ heq, h.put hinv hput (by decide)⟩

theorem isMap (hW : W = 32 ∨ W = 64) (h : SysInv W x pre) : IsMap W x := by
  refine ⟨h.loadsAs, fun malloc hm i hi entry h0 hentry fuel hf => ?_, fun malloc i hi fuel hf => ?_⟩
  · obtain ⟨xa', pre', e, heq, hres⟩ := h.store hW hm hi h0 hentry hf
    have hstep : Step W x ⟨xa', storeMap W x.map i entry e⟩ := Step.store hm hi h0 hentry hf heq
    unfold storeMap at hstep
    refine ⟨xa', e, heq, ?_⟩
    rcases hres with ⟨he, hfail, h'⟩ | ⟨he, hne, h'⟩
    · rw [if_pos he] at hstep
      exact Or.inl ⟨he, hfail, h'.loadsAs, hstep⟩
    · rw [if_neg hne] at hstep
      exact Or.inr ⟨he, hne, h'.loadsAs, hstep⟩
  · obtain ⟨xa', heq, h'⟩ := h.erase malloc i hf
    exact ⟨xa', heq, h'.loadsAs, Step.erase hi hf heq⟩

end SysInv

theorem step_sysInv (hW : W = 32 ∨ W = 64) {x y : System} (h : ∃ pre, SysInv W x pre)
    (hst : Step W x y) : ∃ pre, SysInv W y pre := by
  obtain ⟨pre, h⟩ := h
  cases hst with
  | store hm hi h0 hentry hf hcall =>
    obtain ⟨xa', pre', e, heq, hres⟩ := h.store hW hm hi h0 hentry hf
    rw [heq] at hcall
    cases hcall
    unfold storeMap
    rcases hres with ⟨he, -, h'⟩ | ⟨-, hne, h'⟩
    · rw [if_pos he]
      exact ⟨pre', h'⟩
    · rw [if_neg hne]
      exact ⟨pre', h'⟩
  | erase hi hf hcall =>
    obtain ⟨xa', heq, h'⟩ := h.erase _ _ hf
    rw [heq] at hcall
    cases hcall
    exact ⟨pre, h'⟩

/-- An empty array, `XARRAY_INIT`. -/
def xarrayInit (flags : ℕ) (mem : ℕ → XaNode) (calls : ℕ) : Xarray := ⟨flags, 0, mem, ∅, calls⟩

theorem init_sysInv {flags calls : ℕ} {mem : ℕ → XaNode}
    (htrack : ¬ (xarrayInit flags mem calls).trackFree) :
    SysInv W ⟨xarrayInit flags mem calls, fun _ => 0⟩ fun _ => 0 := by
  have hlive : (xarrayInit flags mem calls).live = ∅ := rfl
  have hinv : Inv W (xarrayInit flags mem calls) fun _ => 0 := by
    refine ⟨⟨?_, ?_, ?_, ?_, ?_, ?_, ?_⟩, ?_, ?_, htrack⟩
    all_goals try simp [hlive, view]
    exact fun n hn => absurd hn (by simp [xarrayInit])
  refine ⟨hinv, fun i a => ?_, fun i => (by decide : ¬ xaIsInternal 0)⟩
  rw [has_head (by exact not_xaIsNode_zero) hinv]
  show ((0 = a ∧ a ≠ 0) ∧ i = 0) ↔ (0 = a ∧ a ≠ 0)
  constructor
  · exact fun h => h.1
  · rintro ⟨h1, h2⟩
    exact absurd h1.symm h2

/-- **The XArray is a finite map.** Along every run of stores and erasures from an empty array that
does not track free entries, and with any pattern of failed allocations: a load gives the entry of
the last store that did not fail and was not erased; a store gives the old entry, or
`XA_ERROR(-ENOMEM)` with the content of every index as before; an erasure gives the old entry. -/
theorem reachable_xarray_isMap (hW : W = 32 ∨ W = 64) {flags calls : ℕ} {mem : ℕ → XaNode}
    (htrack : ¬ (xarrayInit flags mem calls).trackFree) {x : System}
    (h : Relation.ReflTransGen (Step W) ⟨xarrayInit flags mem calls, fun _ => 0⟩ x) : IsMap W x := by
  obtain ⟨pre, hx⟩ := Lib.Run.invariant (I := fun x => ∃ pre, SysInv W x pre)
    ⟨_, init_sysInv htrack⟩ (fun _ _ => step_sysInv hW) h
  exact hx.isMap hW

/-- Addresses above those in use. -/
def nextFree (_ : ℕ) (L : Finset ℕ) : ℕ := 4096 + 4 * (L.sup id + 1)

theorem malloc_nextFree : Malloc nextFree := by
  intro t L
  right
  unfold nextFree
  refine ⟨⟨by omega, by omega⟩, fun hmem => ?_⟩
  have := Finset.le_sup (f := id) hmem
  simp only [id_eq] at this
  omega

/-- An entry at each end of the index range. -/
theorem reachable_xarray_isMap_two : ∃ xa, Relation.ReflTransGen (Step 64)
      ⟨xarrayInit 0 (fun _ => zeroNode) 0, fun _ => 0⟩
      ⟨xa, Function.update (Function.update (fun _ => 0) 0 8) (2 ^ 64 - 1) 12⟩ ∧
    IsMap 64 ⟨xa, Function.update (Function.update (fun _ => 0) 0 8) (2 ^ 64 - 1) 12⟩ := by
  have hmap : ∀ {x}, Relation.ReflTransGen (Step 64)
      ⟨xarrayInit 0 (fun _ => zeroNode) 0, fun _ => 0⟩ x → IsMap 64 x :=
    reachable_xarray_isMap (Or.inr rfl) (by decide)
  have hnot : ¬ ∃ t L, nextFree t L = 0 := by
    rintro ⟨t, L, h⟩
    unfold nextFree at h
    omega
  obtain ⟨xa₁, -, -, ⟨-, h, -⟩ | ⟨-, -, -, h1⟩⟩ := (hmap .refl).store nextFree malloc_nextFree 0
    (by decide) 8 (by decide) (by decide) 134 le_rfl
  · exact absurd h hnot
  have hrun := Relation.ReflTransGen.single h1
  obtain ⟨xa₂, -, -, ⟨-, h, -⟩ | ⟨-, -, -, h2⟩⟩ := (hmap hrun).store nextFree malloc_nextFree
    (2 ^ 64 - 1) (by decide) 12 (by decide) (by decide) 134 le_rfl
  · exact absurd h hnot
  exact ⟨xa₂, hrun.tail h2, hmap (hrun.tail h2)⟩

end HardStack.XArray.Run
