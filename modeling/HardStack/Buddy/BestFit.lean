import HardStack.Buddy.Partition

/-! # Allocation is complete and best-fit

`__rmqueue_smallest` goes up the orders to the first list that is not empty, and `expand` lists the
upper half of every split below it. The lists in between were empty, so that each of them holds just
that half afterwards. -/

namespace HardStack.Buddy.BestFit

open HardStack.Buddy.Model HardStack.Buddy.Invariant HardStack.Buddy.Partition

variable {lo hi E : ℕ} {s : State} {held : List Lib.Dyadic.Block} {page order k : ℕ} {rest : List ℕ}

/-- **The splitting loop** lists one block of every order below the block it splits. -/
theorem expandLoop_freeList (page low : ℕ) : ∀ (n : ℕ) (s : State) (j : ℕ),
    (expandLoop n s page low (2 ^ (low + n))).freeList j =
      if low ≤ j ∧ j < low + n then (page + 2 ^ j) :: s.freeList j else s.freeList j
  | 0, s, j => by
    rw [if_neg (by omega)]
    rfl
  | n + 1, s, j => by
    have hsize : 2 ^ (low + (n + 1)) >>> 1 = 2 ^ (low + n) := by
      rw [Nat.shiftRight_eq_div_pow, ← add_assoc, pow_succ, pow_one, Nat.mul_div_cancel _ two_pos]
    unfold expandLoop
    dsimp only
    rw [hsize, expandLoop_freeList page low n]
    rcases Nat.lt_trichotomy j (low + n) with hlt | rfl | hgt
    · have hj : (((s.listAdd (page + 2 ^ (low + n)) (low + n)).incNrFree (low + n)).setPageOrder
          (page + 2 ^ (low + n)) (low + n)).freeList j = s.freeList j :=
        Function.update_of_ne (by omega) _ _
      rw [hj]
      by_cases hlow : low ≤ j
      · rw [if_pos (by omega), if_pos (by omega)]
      · rw [if_neg (by omega), if_neg (by omega)]
    · rw [if_neg (by omega), if_pos (by omega)]
      exact Function.update_self _ _ _
    · rw [if_neg (by omega), if_neg (by omega)]
      exact Function.update_of_ne (by omega) _ _

theorem expand_freeList (page : ℕ) {low high : ℕ} (hle : low ≤ high) (s : State) (j : ℕ) :
    (expand s page low high).freeList j =
      if low ≤ j ∧ j < high then (page + 2 ^ j) :: s.freeList j else s.freeList j := by
  obtain ⟨n, rfl⟩ := Nat.exists_eq_add_of_le hle
  unfold expand
  rw [Nat.one_shiftLeft, Nat.add_sub_cancel_left]
  exact expandLoop_freeList page low n s j

/-- Taking the first block of a list leaves the others. -/
theorem takeBlock_freeList (h : Inv lo hi E s held []) (hk : s.freeList k = page :: rest) (j : ℕ) :
    (takeBlock s page k).freeList j = if j = k then rest else s.freeList j := by
  have hmem : page ∈ s.freeList k := by rw [hk]; exact List.mem_cons_self
  show (s.freeList j).erase page = _
  by_cases hj : j = k
  · rw [if_pos hj, hj, hk, List.erase_cons_head]
  · rw [if_neg hj]
    exact List.erase_of_not_mem fun hp => hj (h.order_unique hmem hp)

/-- The lists after an allocation that has split the first block `page` of the list `k`. -/
def splitLists (s : State) (order k page : ℕ) (rest : List ℕ) (j : ℕ) : List ℕ :=
  if j = k then rest else if order ≤ j ∧ j < k then [page + 2 ^ j] else s.freeList j

/-- What `__alloc_pages` is for: NULL and no change if and only if no block is large enough; otherwise
the first block of the smallest order that has one is taken, its lowest pages are returned, and the
upper halves of its splits are the only new blocks. -/
structure IsBestFit (order : ℕ) (s s' : State) (res : Option ℕ) : Prop where
  null : res = none ↔ ∀ k, order ≤ k → k < MAX_ORDER → s.freeList k = []
  unchanged : res = none → s' = s
  split : ∀ k page rest, order ≤ k → k < MAX_ORDER → s.freeList k = page :: rest →
    (∀ j, order ≤ j → j < k → s.freeList j = []) →
    res = some page ∧ s'.freeList = splitLists s order k page rest

/-- **The search** up the orders. -/
theorem rmqueueLoop_cases (order : ℕ) (h : Inv lo hi E s held []) : ∀ (n cur : ℕ), order ≤ cur →
    cur + n = MAX_ORDER → (∀ j, order ≤ j → j < cur → s.freeList j = []) →
    ((∀ k, order ≤ k → k < MAX_ORDER → s.freeList k = []) ∧ rmqueueLoop order n s cur = (s, none)) ∨
      ∃ k page rest, order ≤ k ∧ k < MAX_ORDER ∧ s.freeList k = page :: rest ∧
        (∀ j, order ≤ j → j < k → s.freeList j = []) ∧ ∃ s', rmqueueLoop order n s cur = (s', some page) ∧
          s'.freeList = splitLists s order k page rest
  | 0, cur, _, hn, hno => Or.inl ⟨fun k h1 h2 => hno k h1 (by omega), rfl⟩
  | n + 1, cur, hle, hn, hno => by
    unfold rmqueueLoop
    cases hl : s.freeList cur with
    | nil =>
      refine rmqueueLoop_cases order h n (cur + 1) (by omega) (by omega) fun j h1 h2 => ?_
      rcases Nat.eq_or_lt_of_le (Nat.le_of_lt_succ h2) with rfl | hlt
      · exact hl
      · exact hno j h1 hlt
    | cons page rest =>
      refine Or.inr ⟨cur, page, rest, hle, by omega, hl, hno, _, rfl, ?_⟩
      funext j
      rw [expand_freeList page hle]
      unfold splitLists
      have htake := takeBlock_freeList h hl j
      unfold takeBlock at htake
      by_cases hj : j = cur
      · rw [if_pos hj] at htake
        rw [if_neg (by omega), if_pos hj]
        exact htake
      · rw [if_neg hj] at htake ⊢
        by_cases hin : order ≤ j ∧ j < cur
        · rw [if_pos hin, if_pos hin, ← hno j hin.1 hin.2]
          exact congrArg _ htake
        · rw [if_neg hin, if_neg hin]
          exact htake

theorem allocPages_isBestFit (h : Inv lo hi E s held []) (ho : order < MAX_ORDER) {s' : State}
    {res : Option ℕ} (he : allocPages s order = (s', res)) : IsBestFit order s s' res := by
  have hcases := rmqueueLoop_cases order h (MAX_ORDER - order) order le_rfl (by omega)
    fun j h1 h2 => absurd h1 (by omega)
  unfold allocPages rmqueueSmallest at he
  rw [he] at hcases
  rcases hcases with ⟨hno, heq⟩ | ⟨k, page, rest, hk, hmax, hl, hno, t, heq, ht⟩
  · cases heq
    refine ⟨⟨fun _ => hno, fun _ => rfl⟩, fun _ => rfl, fun k p rest h1 h2 hl _ => ?_⟩
    rw [hno k h1 h2] at hl
    cases hl
  · cases heq
    refine ⟨⟨fun hn => (by cases hn), fun hall => ?_⟩, fun hn => (by cases hn), ?_⟩
    · rw [hall k hk hmax] at hl
      cases hl
    · intro k' page' rest' h1 h2 hl' hno'
      -- there is only one smallest order
      have hkk : k' = k := by
        rcases Nat.lt_trichotomy k' k with hlt | heq | hgt
        · rw [hno k' h1 hlt] at hl'
          cases hl'
        · exact heq
        · rw [hno' k hk hgt] at hl
          cases hl
      subst hkk
      rw [hl] at hl'
      cases hl'
      exact ⟨rfl, ht⟩

/-- **Allocation is complete and best-fit** in every state that a run from `memory_init` reaches. -/
theorem reachable_isBestFit (c : Config) {raw : ℕ → Page} (hraw : Raw c raw) {t : System}
    (h : Reachable c raw t) {order : ℕ} (ho : order < MAX_ORDER) :
    IsBestFit order t.st (allocPages t.st order).1 (allocPages t.st order).2 :=
  allocPages_isBestFit (reachable_inv hraw h) ho (Prod.eta _).symm

/-- Seven pages after `memory_init`. -/
def sevenFree : System := ⟨memoryInit sevenPages fun _ => ⟨0, 0⟩, []⟩

theorem reachable_isBestFit_sevenFree : IsBestFit 0 sevenFree.st (allocPages sevenFree.st 0).1
    (allocPages sevenFree.st 0).2 := by
  have hraw : Raw sevenPages fun _ => ⟨0, 0⟩ := ⟨fun _ _ => rfl, fun _ _ => by decide⟩
  have hr : Reachable sevenPages (fun _ => ⟨0, 0⟩) sevenFree := Relation.ReflTransGen.refl
  exact reachable_isBestFit sevenPages hraw hr (by decide)

end HardStack.Buddy.BestFit
