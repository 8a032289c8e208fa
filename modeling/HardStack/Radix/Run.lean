import HardStack.Lib.Run
import HardStack.Radix.Delete

/-! # The radix tree as a finite map

The run keeps, beside the tree, the map that the calls so far stand for: an insertion adds its item
where the index is free, a deletion takes the index out. In every reachable state the tree answers
like the map, and every call returns. -/

namespace HardStack.Radix.Run

open HardStack.Lib.Trie HardStack.Radix.Model HardStack.Radix.Layout
open HardStack.Radix.Insert HardStack.Radix.Delete

variable {W : ℕ}

/-- The tree, and the map it stands for, with `NULL` for a free index. -/
structure System where
  tree : Tree
  map : ℕ → ℕ

/-- The map after an insertion. -/
def insertMap (map : ℕ → ℕ) (index item : ℕ) : ℕ → ℕ :=
  if map index = 0 then Function.update map index item else map

/-- One call on indices of `unsigned long`, with the fuel its loops need. -/
inductive Step (W : ℕ) : System → System → Prop
  | insert {s s' : Tree} {map : ℕ → ℕ} {malloc : Finset ℕ → ℕ} {fuel index item : ℕ} {r : ℤ}
      (hm : Malloc malloc) (hi : index < 2 ^ W) (hitem : ¬ isInternalNode item) (h0 : item ≠ 0)
      (hf : 2 * W + 6 ≤ fuel) (h : radixTreeInsert W malloc fuel s index 0 item = some (s', r)) :
      Step W ⟨s, map⟩ ⟨s', insertMap map index item⟩
  | delete {s s' : Tree} {map : ℕ → ℕ} {fuel index e : ℕ} (hi : index < 2 ^ W)
      (hf : 2 * W + 6 ≤ fuel) (h : radixTreeDelete W fuel s index = some (s', e)) :
      Step W ⟨s, map⟩ ⟨s', Function.update map index 0⟩

/-- **The tree answers like the map.** -/
structure IsMap (W : ℕ) (x : System) : Prop where
  lookup : ∀ i < 2 ^ W, ∀ fuel, 2 * W + 6 ≤ fuel →
    radixTreeLookup W fuel x.tree i = some (x.map i)
  insert : ∀ malloc, Malloc malloc → ∀ i < 2 ^ W, ∀ item, ¬ isInternalNode item → item ≠ 0 →
    ∀ fuel, 2 * W + 6 ≤ fuel →
      (x.map i = 0 → ∃ s', radixTreeInsert W malloc fuel x.tree i 0 item = some (s', 0) ∧
        Step W x ⟨s', Function.update x.map i item⟩) ∧
      (x.map i ≠ 0 → radixTreeInsert W malloc fuel x.tree i 0 item = some (x.tree, -EEXIST))
  delete : ∀ i < 2 ^ W, ∀ fuel, 2 * W + 6 ≤ fuel →
    ∃ s', radixTreeDelete W fuel x.tree i = some (s', x.map i) ∧
      Step W x ⟨s', Function.update x.map i 0⟩

/-- The invariant of a run. -/
def SysInv (W : ℕ) (x : System) : Prop :=
  ∃ pre, Inv W x.tree pre ∧ ∀ i a, Has x.tree pre i a ↔ x.map i = a ∧ a ≠ 0

theorem SysInv.isMap (hW : W ≤ 64) {x : System} (h : SysInv W x) : IsMap W x := by
  obtain ⟨pre, hinv, hmap⟩ := h
  refine ⟨fun i hi fuel hf => ?_, fun malloc hm i hi item hitem h0 fuel hf => ?_,
    fun i hi fuel hf => ?_⟩
  · obtain ⟨r, hr, hfound⟩ := radixTreeLookupSlot_spec hinv hi (show W < fuel by omega)
    have hval : r.1 = x.map i := Lib.Word.eq_of_pointers fun a => (hfound.has_iff hinv).symm.trans (hmap i a)
    unfold radixTreeLookup
    rw [hr, ← hval]
    rfl
  · obtain ⟨h1, h2⟩ := radixTreeInsert_spec hm hW hinv hi hitem h0 (show W + 1 < fuel by omega)
    constructor
    · intro hz
      obtain ⟨s', -, heq, -⟩ := h2 fun a ha => ((hmap i a).mp ha).2 (((hmap i a).mp ha).1 ▸ hz)
      have hstep : Step W x ⟨s', insertMap x.map i item⟩ := Step.insert hm hi hitem h0 hf heq
      unfold insertMap at hstep
      rw [if_pos hz] at hstep
      exact ⟨s', heq, hstep⟩
    · exact fun hne => h1 ⟨_, (hmap i _).mpr ⟨rfl, hne⟩⟩
  · obtain ⟨s', e, heq, -, he, -⟩ := radixTreeDelete_spec hinv hi hf
    have hval : e = x.map i := Lib.Word.eq_of_pointers fun a => (he a).symm.trans (hmap i a)
    subst hval
    exact ⟨s', heq, Step.delete hi hf heq⟩

/-- Putting an item at an index, in the tree and in the map. -/
theorem sysInv_put {s s' : Tree} {pre pre' map : ℕ → ℕ} {index item : ℕ}
    (hmap : ∀ i a, Has s pre i a ↔ map i = a ∧ a ≠ 0) (hinv : Inv W s' pre')
    (hput : Put s pre index item s' pre') : SysInv W ⟨s', Function.update map index item⟩ := by
  refine ⟨pre', hinv, fun i a => ?_⟩
  rw [hput i a]
  by_cases hi : i = index
  · subst hi
    simp
  · rw [if_neg hi, hmap i a]
    simp [hi]

theorem step_sysInv (hW : W ≤ 64) {x y : System} (h : SysInv W x) (hst : Step W x y) :
    SysInv W y := by
  obtain ⟨pre, hinv, hmap⟩ := h
  cases hst with
  | @insert s s' map malloc fuel index item r hm hi hitem h0 hf hcall =>
    obtain ⟨h1, h2⟩ := radixTreeInsert_spec hm hW hinv hi hitem h0 (show W + 1 < fuel by omega)
    unfold insertMap
    by_cases hz : map index = 0
    · obtain ⟨s₁, pre₁, heq, hinv₁, hput⟩ := h2 fun a ha =>
        ((hmap index a).mp ha).2 (((hmap index a).mp ha).1 ▸ hz)
      rw [heq] at hcall
      cases hcall
      rw [if_pos hz]
      exact sysInv_put hmap hinv₁ hput
    · rw [h1 ⟨_, (hmap index _).mpr ⟨rfl, hz⟩⟩] at hcall
      cases hcall
      rw [if_neg hz]
      exact ⟨pre, hinv, hmap⟩
  | @delete s s' map fuel index e hi hf hcall =>
    obtain ⟨s₁, e₁, heq, hinv₁, -, hput⟩ := radixTreeDelete_spec hinv hi hf
    rw [heq] at hcall
    cases hcall
    exact sysInv_put hmap hinv₁ hput

/-- An empty root, `RADIX_TREE_INIT`. -/
def radixTreeInit (mask : ℕ) (mem : ℕ → Node) : Tree := ⟨mask, 0, mem, ∅⟩

theorem init_sysInv {mask : ℕ} {mem : ℕ → Node} (hmask : mask < 2 ^ ROOT_TAG_SHIFT)
    (hidr : ¬ (radixTreeInit mask mem).isIdr) :
    SysInv W ⟨radixTreeInit mask mem, fun _ => 0⟩ := by
  have hlive : (radixTreeInit mask mem).live = ∅ := rfl
  refine ⟨fun _ => 0, ⟨⟨?_, ?_, ?_, ?_, ?_, ?_, ?_⟩, ?_, ?_, hmask, hidr, ?_, ?_⟩, fun i a => ?_⟩
  all_goals try simp [hlive, view]
  · exact fun n hn => absurd hn (by simp [radixTreeInit])
  · unfold Has Holds
    have hroot : (view (radixTreeInit mask mem) fun _ => 0).root = .empty := rfl
    rw [hroot]
    have hl : (view (radixTreeInit mask mem) fun _ => 0).live = ∅ := rfl
    rw [hl]
    simp only [Finset.notMem_empty, false_and, exists_false, reduceCtorEq, or_self, false_iff]
    omega

/-- **The radix tree is a finite map.** Along every run of insertions and deletions from an empty root
that is not an IDR's, a lookup gives the item of the last insertion that was not deleted; an insertion
at a free index gives `0`, at a taken one `-EEXIST` with nothing changed; a deletion gives the item. -/
theorem reachable_isMap (hW : W = 32 ∨ W = 64) {mask : ℕ} {mem : ℕ → Node}
    (hmask : mask < 2 ^ ROOT_TAG_SHIFT) (hidr : ¬ (radixTreeInit mask mem).isIdr) {x : System}
    (h : Relation.ReflTransGen (Step W) ⟨radixTreeInit mask mem, fun _ => 0⟩ x) : IsMap W x := by
  have hW' : W ≤ 64 := by omega
  exact (Lib.Run.invariant (I := SysInv W) (init_sysInv hmask hidr)
    (fun _ _ => step_sysInv hW') h).isMap hW'

/-- Addresses above those in use. -/
def nextFree (L : Finset ℕ) : ℕ := 4 * (L.sup id + 1)

theorem malloc_nextFree : Malloc nextFree := by
  intro L
  unfold nextFree
  refine ⟨by omega, dvd_mul_right _ _, fun hmem => ?_⟩
  have := Finset.le_sup (f := id) hmem
  simp only [id_eq] at this
  omega

/-- An item at each end of the index range. -/
theorem reachable_isMap_two : ∃ s, Relation.ReflTransGen (Step 64)
      ⟨radixTreeInit 0 fun _ => ⟨0, 0, 0, 0, 0, fun _ => 0, fun _ _ => 0⟩, fun _ => 0⟩
      ⟨s, Function.update (Function.update (fun _ => 0) 0 8) (2 ^ 64 - 1) 12⟩ ∧
    IsMap 64 ⟨s, Function.update (Function.update (fun _ => 0) 0 8) (2 ^ 64 - 1) 12⟩ := by
  have hmap : ∀ {x}, Relation.ReflTransGen (Step 64)
      ⟨radixTreeInit 0 fun _ => ⟨0, 0, 0, 0, 0, fun _ => 0, fun _ _ => 0⟩, fun _ => 0⟩ x →
      IsMap 64 x := reachable_isMap (Or.inr rfl) (by decide) (by decide)
  obtain ⟨s₁, -, h1⟩ := ((hmap .refl).insert nextFree malloc_nextFree 0 (by decide) 8 (by decide)
    (by decide) 134 le_rfl).1 rfl
  have hrun := Relation.ReflTransGen.single h1
  obtain ⟨s₂, -, h2⟩ := ((hmap hrun).insert nextFree malloc_nextFree (2 ^ 64 - 1) (by decide) 12
    (by decide) (by decide) 134 le_rfl).1 rfl
  exact ⟨s₂, hrun.tail h2, hmap (hrun.tail h2)⟩

end HardStack.Radix.Run
