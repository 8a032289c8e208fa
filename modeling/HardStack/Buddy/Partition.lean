import HardStack.Buddy.Invariant

/-! # The operations keep the partition

Each function of `mm/buddy.c` as a composition of the changes of `Invariant`: merging takes the
buddy and joins it to the block in flight, `expand` splits the block in flight and lists the upper
half, `memory_init` grows the range block by block. The run then keeps the invariant step by step. -/

namespace HardStack.Buddy.Partition

open HardStack.Lib.Dyadic HardStack.Buddy.Model HardStack.Buddy.Invariant

variable {lo hi E : ℕ} {s : State} {held fl : List Block}

/-! ### `__free_one_page` -/

/-- **The buddy test is sound.** A buddy that passes `page_is_buddy` is listed with that order. A
stale page passes it with order `0` only, and then the block around it would contain `p`; the
hypothesis excludes the pages that `memory_init` has not reached yet. -/
theorem buddy_listed {p o : ℕ} (h : Inv lo hi E s held [⟨p, o⟩])
    (hb : pageIsBuddy s (findBuddyPfn p o) o = true)
    (h0 : o = 0 → ¬ (hi ≤ findBuddyPfn p o ∧ findBuddyPfn p o < E)) :
    findBuddyPfn p o ∈ s.freeList o := by
  unfold pageIsBuddy at hb
  rw [Bool.and_eq_true, beq_iff_eq] at hb
  obtain ⟨hbud, hpriv⟩ := hb
  obtain ⟨hlo, hE, hmem | ⟨hz, hheld⟩⟩ := h.stale _ hbud
  · rwa [hpriv] at hmem
  · have ho : o = 0 := hpriv.symm.trans hz
    have hhi : findBuddyPfn p o < hi := by have := h0 ho; omega
    have hpin : (⟨p, o⟩ : Block) ∈ freeBlocks s ++ (held ++ [⟨p, o⟩]) := by simp
    have hal : 2 ^ o ∣ p := (h.shape _ hpin).1
    obtain ⟨c, hc, hcov⟩ := h.tiles.exists_covers hlo hhi
    rcases Nat.lt_or_ge o c.order with hlt | hge
    · -- a larger block around the buddy would contain `p` too
      have hcp := covers_of_buddy hal (h.shape c hc).1 hlt hcov
      have := h.tiles.eq_of_covers hc hpin hcp (Block.covers_head ⟨p, o⟩)
      rw [this] at hlt
      exact absurd hlt (lt_irrefl _)
    · obtain ⟨ch, co⟩ := c
      obtain rfl : co = 0 := by simp only at hge; omega
      obtain rfl : ch = findBuddyPfn p o := by
        unfold Block.Covers at hcov; simp only [pow_zero] at hcov; omega
      rcases List.mem_append.mp hc with hc | hc
      · rw [ho] at hc ⊢; exact (mem_blocksOf.mp hc).2
      · rcases List.mem_append.mp hc with hc | hc
        · exact absurd rfl (hheld _ hc)
        · rw [List.mem_singleton, Block.mk.injEq] at hc
          exact absurd hc.1 (buddy_ne p o)

/-- **The merging loop** keeps one block in flight. -/
theorem continueMerging_inv : ∀ (n : ℕ) (s : State) (p o bp : ℕ), o + n < MAX_ORDER →
    Inv lo hi E s held [⟨p, o⟩] →
    (o = 0 → ¬ (hi ≤ findBuddyPfn p o ∧ findBuddyPfn p o < E)) →
    Inv lo hi E (continueMerging n s p o bp).1 held
      [⟨(continueMerging n s p o bp).2.1, (continueMerging n s p o bp).2.2.1⟩]
  | 0, s, p, o, bp, _, h, _ => h
  | n + 1, s, p, o, bp, hn, h, h0 => by
    unfold continueMerging
    simp only
    split_ifs with hb
    · have htake := h.take (buddy_listed h hb h0)
      exact continueMerging_inv n _ _ _ _ (by omega) (htake.merge (by omega)) (by omega)
    · exact h

theorem setPageOrder_freeList (p o : ℕ) : (s.setPageOrder p o).freeList = s.freeList := rfl

theorem setPageOrder_nrFree (p o : ℕ) : (s.setPageOrder p o).nrFree = s.nrFree := rfl

theorem put_head {p o : ℕ} (h : Inv lo hi E s held (⟨p, o⟩ :: fl)) :
    Inv lo hi E (((s.setPageOrder p o).listAdd p o).incNrFree o) held fl := by
  refine h.put rfl ?_ (fun o' ho => ?_) rfl
  · simp [State.incNrFree, State.listAdd, setPageOrder_freeList]
  · simp [State.incNrFree, State.listAdd, setPageOrder_freeList, ho]

theorem put_tail {p o : ℕ} (h : Inv lo hi E s held (⟨p, o⟩ :: fl)) :
    Inv lo hi E (((s.setPageOrder p o).listAddTail p o).incNrFree o) held fl := by
  refine h.put rfl ?_ (fun o' ho => ?_) rfl
  · simp only [State.incNrFree, State.listAddTail, setPageOrder_freeList, Function.update_self]
    exact List.perm_append_comm
  · simp [State.incNrFree, State.listAddTail, setPageOrder_freeList, ho]

theorem doneMerging_inv {p o : ℕ} (bp : ℕ) (h : Inv lo hi E s held (⟨p, o⟩ :: fl)) :
    Inv lo hi E (doneMerging s p o bp) held fl := by
  unfold doneMerging
  simp only
  split_ifs
  · exact put_head h
  · exact put_tail h
  · exact put_head h
  · exact put_head h

/-- **Freeing** lists the block in flight. -/
theorem freeOnePage_inv {p o : ℕ} (h : Inv lo hi E s held [⟨p, o⟩])
    (h0 : o = 0 → ¬ (hi ≤ findBuddyPfn p o ∧ findBuddyPfn p o < E)) :
    Inv lo hi E (freeOnePage s p o) held [] := by
  have ho : o < MAX_ORDER := (h.shape ⟨p, o⟩ (by simp)).2
  have hn : o + (min MAX_ORDER (pageblockOrder + 1) - 1 - o) < MAX_ORDER := by
    unfold MAX_ORDER pageblockOrder at *; omega
  exact doneMerging_inv _ (continueMerging_inv _ s p o 0 hn h h0)

/-! ### `expand` and `__rmqueue_smallest` -/

theorem expandLoop_inv (page low : ℕ) : ∀ (n : ℕ) (s : State),
    Inv lo hi E s held (⟨page, low + n⟩ :: fl) → PageBuddy (s.page page) = false →
    Inv lo hi E (expandLoop n s page low (2 ^ (low + n))) held (⟨page, low⟩ :: fl) ∧
      PageBuddy ((expandLoop n s page low (2 ^ (low + n))).page page) = false
  | 0, s, h, hb => ⟨h, hb⟩
  | n + 1, s, h, hb => by
    have hsize : 2 ^ (low + (n + 1)) >>> 1 = 2 ^ (low + n) := by
      rw [Nat.shiftRight_eq_div_pow, ← add_assoc, pow_succ, pow_one, Nat.mul_div_cancel _ two_pos]
    have hpos : 0 < 2 ^ (low + n) := by positivity
    unfold expandLoop
    simp only [hsize]
    refine expandLoop_inv page low n _ (h.split.put rfl ?_ (fun o' ho => ?_) rfl) ?_
    · simp [State.setPageOrder, State.incNrFree, State.listAdd]
    · exact Function.update_of_ne ho _ _
    · have hne : page ≠ page + 2 ^ (low + n) := by omega
      simpa [State.setPageOrder, State.incNrFree, State.listAdd, hne] using hb

theorem expand_inv {page low high : ℕ} (hle : low ≤ high)
    (h : Inv lo hi E s held (⟨page, high⟩ :: fl)) (hb : PageBuddy (s.page page) = false) :
    Inv lo hi E (expand s page low high) held (⟨page, low⟩ :: fl) ∧
      PageBuddy ((expand s page low high).page page) = false := by
  obtain ⟨n, rfl⟩ := Nat.exists_eq_add_of_le hle
  unfold expand
  rw [Nat.one_shiftLeft, Nat.add_sub_cancel_left]
  exact expandLoop_inv page low n s h hb

theorem rmqueueLoop_inv (order : ℕ) {s' : State} (h : Inv lo hi E s held []) :
    ∀ (n cur : ℕ), order ≤ cur →
    (∀ page, rmqueueLoop order n s cur = (s', some page) →
      Inv lo hi E s' (⟨page, order⟩ :: held) []) ∧
    (rmqueueLoop order n s cur = (s', none) → s' = s)
  | 0, cur, _ => ⟨fun page he => (by cases he), fun he => (by cases he; rfl)⟩
  | n + 1, cur, hle => by
    unfold rmqueueLoop
    cases hl : s.freeList cur with
    | nil => exact rmqueueLoop_inv order h n (cur + 1) (by omega)
    | cons page rest =>
      have hmem : page ∈ s.freeList cur := by rw [hl]; exact List.mem_cons_self
      obtain ⟨hlo, hhi⟩ := h.free_range hmem
      have hE := h.le_end
      have hb := take_not_buddy (o := cur) h hlo (by omega)
      obtain ⟨hexp, hnb⟩ := expand_inv hle (h.take hmem) hb
      refine ⟨fun p he => ?_, fun he => by cases he⟩
      cases he
      exact hexp.hold hnb

/-! ### `memory_init` -/

theorem ffs_dvd (w : ℕ) : 2 ^ ffs w ∣ w := by
  unfold ffs
  refine two_pow_dvd_of_testBit fun i hi => ?_
  cases hf : (List.range 32).find? fun i => w.testBit i with
  | none =>
    rw [hf] at hi
    have := List.find?_eq_none.mp hf i (List.mem_range.mpr hi)
    simpa using this
  | some k =>
    rw [hf] at hi
    simp only [Option.getD_some] at hi
    obtain ⟨-, h2⟩ := List.find?_range_eq_some.mp hf
    simpa using h2.2 i hi

theorem odd_of_ffs {w : ℕ} (h : ffs w = 0) : w % 2 = 1 := by
  unfold ffs at h
  cases hf : (List.range 32).find? fun i => w.testBit i with
  | none => rw [hf] at h; simp at h
  | some k =>
    rw [hf] at h
    simp only [Option.getD_some] at h
    subst h
    have := List.find?_some hf
    simpa [Nat.testBit_zero] using this

theorem shrinkOrder_spec {a e : ℕ} (h : a < e) : ∀ k, shrinkOrder a e k ≤ k ∧
    a + 2 ^ shrinkOrder a e k ≤ e ∧ (shrinkOrder a e k = 0 → 0 < k → e ≤ a + 1)
  | 0 => ⟨le_rfl, by simp [shrinkOrder]; omega, fun _ h => absurd h (lt_irrefl 0)⟩
  | k + 1 => by
    obtain ⟨h1, h2, h3⟩ := shrinkOrder_spec h k
    unfold shrinkOrder
    split_ifs with hgt
    · refine ⟨by omega, h2, fun hz _ => ?_⟩
      rcases Nat.eq_zero_or_pos k with rfl | hk
      · rw [Nat.one_shiftLeft] at hgt; omega
      · exact h3 hz hk
    · rw [Nat.one_shiftLeft] at hgt
      exact ⟨le_rfl, by omega, fun hz => hz.elim⟩

/-- `order--` stops at the largest order that fits. -/
theorem le_shrinkOrder {a e o : ℕ} (h : a + 2 ^ o ≤ e) : ∀ {k : ℕ}, o ≤ k → o ≤ shrinkOrder a e k
  | 0, hk => hk
  | k + 1, hk => by
    unfold shrinkOrder
    rw [Nat.one_shiftLeft]
    split_ifs with hgt
    · refine le_shrinkOrder h ?_
      by_contra hlt
      obtain rfl : o = k + 1 := by omega
      omega
    · exact hk

theorem le_ffs {a o : ℕ} (ha : 0 < a) (ho : o < MAX_ORDER) (hal : 2 ^ o ∣ a) : o ≤ ffs a := by
  unfold ffs
  cases hf : (List.range 32).find? fun i => a.testBit i with
  | none =>
    rw [Option.getD_none]
    unfold MAX_ORDER at ho
    omega
  | some k =>
    rw [Option.getD_some]
    by_contra hlt
    have hbit := List.find?_some hf
    obtain ⟨m, rfl⟩ := hal
    rw [Nat.testBit_two_pow_mul] at hbit
    simp only [Bool.and_eq_true, decide_eq_true_eq] at hbit
    omega

/-- A block of order `0` is freed by `memory_init` only at an odd pfn or as the last page, so its
buddy is behind it or beyond the end. -/
theorem buddy_zero_outside {a e : ℕ} (h : a < e)
    (h0 : shrinkOrder a e (min (MAX_ORDER - 1) (ffs a)) = 0) :
    ¬ (a + 2 ^ 0 ≤ findBuddyPfn a 0 ∧ findBuddyPfn a 0 < e) := by
  unfold findBuddyPfn
  rcases Nat.eq_zero_or_pos (ffs a) with hf | hf
  · have hodd := odd_of_ffs hf
    obtain ⟨k, rfl⟩ : ∃ k, a = 2 * k + 1 := ⟨a / 2, by omega⟩
    rw [Nat.shiftLeft_zero, two_mul_add_one_xor_one]; omega
  · have hk : 0 < min (MAX_ORDER - 1) (ffs a) := by unfold MAX_ORDER; omega
    have := (shrinkOrder_spec h _).2.2 h0 hk
    rcases buddy_cases (p := a) (o := 0) (by simp) with ⟨-, hb, -⟩ | ⟨-, -, hb, -⟩ <;>
      rw [hb] <;> omega

theorem freeRange_inv : ∀ (n : ℕ) (s : State) (a : ℕ), lo ≤ a → a ≤ E → E - a ≤ n →
    Inv lo a E s [] [] → Inv lo E E (freeRange E n s a) [] []
  | 0, s, a, _, hE, hn, h => by
    obtain rfl : a = E := by omega
    exact h
  | n + 1, s, a, hlo, hE, hn, h => by
    unfold freeRange
    by_cases hlt : a < E
    · rw [if_pos hlt]
      simp only
      generalize ho : shrinkOrder a E (min (MAX_ORDER - 1) (ffs a)) = o
      obtain ⟨h1, h2, -⟩ := shrinkOrder_spec hlt (min (MAX_ORDER - 1) (ffs a))
      rw [ho] at h1 h2
      have hal : 2 ^ o ∣ a := (pow_dvd_pow 2 (by omega)).trans (ffs_dvd a)
      have hpos : 0 < 2 ^ o := by positivity
      rw [Nat.one_shiftLeft]
      refine freeRange_inv n _ _ (by omega) h2 (by omega) (freeOnePage_inv ?_ fun hz => ?_)
      · exact h.grow hlo h2 hal (by unfold MAX_ORDER at *; omega)
      · rw [hz] at ho ⊢
        exact buddy_zero_outside hlt ho
    · rw [if_neg hlt]
      obtain rfl : a = E := by omega
      exact h

variable {c : Config} {raw : ℕ → Page}

theorem startPfn_eq (c : Config) : c.startPfn = c.PFN_OFFSET := by
  obtain ⟨k, hk⟩ := c.offset_aligned
  simp only [Config.startPfn, Config.PFN_OFFSET, PFN_UP, PHYS_PFN, PAGE_SIZE, PAGE_SHIFT,
    Nat.shiftRight_eq_div_pow, Nat.one_shiftLeft] at hk ⊢
  omega

theorem endPfn_eq (c : Config) : c.endPfn = c.PFN_OFFSET + c.nrPages := by
  obtain ⟨k, hk⟩ := c.offset_aligned
  simp only [Config.endPfn, Config.PFN_OFFSET, Config.nrPages, PFN_DOWN, PHYS_PFN, PAGE_SIZE,
    PAGE_SHIFT, Nat.shiftRight_eq_div_pow, Nat.one_shiftLeft] at hk ⊢
  omega

theorem initPages_inv (hraw : Raw c raw) :
    Inv c.startPfn c.startPfn c.endPfn (initPages c raw) [] [] := by
  have hs := startPfn_eq c
  have he := endPfn_eq c
  have hin : ∀ q, c.InMemMap q ↔ c.startPfn ≤ q ∧ q < c.endPfn := by
    intro q; unfold Config.InMemMap; rw [hs, he]
  have hempty : freeBlocks (initPages c raw) = [] := by
    simp [freeBlocks, blocksOf, initPages]
  refine ⟨by omega, fun q => ?_, by simp [hempty], by simp [initPages], by simp [initPages],
    fun q h1 h2 => ?_, fun q hq => ?_⟩
  · rw [hempty, if_neg (by omega)]; rfl
  · left
    have := (hin q).mpr ⟨h1, h2⟩
    simp only [initPages, this, if_true, hraw.zero q this]
    decide
  · by_cases hm : c.InMemMap q
    · refine ⟨((hin q).mp hm).1, ((hin q).mp hm).2, Or.inr ⟨?_, by simp⟩⟩
      simp [initPages, hm, hraw.zero q hm]
    · simp only [initPages, if_neg hm, hraw.outside q hm] at hq
      cases hq

/-- **`memory_init`** leaves the whole range tiled by free blocks. -/
theorem memoryInit_inv (hraw : Raw c raw) :
    Inv c.startPfn c.endPfn c.endPfn (memoryInit c raw) [] [] := by
  have hs := startPfn_eq c
  have he := endPfn_eq c
  exact freeRange_inv _ _ _ le_rfl (by omega) le_rfl (initPages_inv hraw)

/-! ### Runs -/

theorem step_inv {t t' : System} (h : Inv lo hi hi t.st t.held []) (hst : Step t t') :
    Inv lo hi hi t'.st t'.held [] := by
  cases hst with
  | alloc ho he => exact (rmqueueLoop_inv _ h _ _ le_rfl).1 _ he
  | allocNull ho he => rw [(rmqueueLoop_inv _ h _ _ le_rfl).2 he]; exact h
  | free hb => exact freeOnePage_inv (h.release hb) fun _ => by omega

theorem reachable_inv (hraw : Raw c raw) {t : System} (h : Reachable c raw t) :
    Inv c.startPfn c.endPfn c.endPfn t.st t.held [] :=
  Lib.Run.invariant (I := fun t => Inv c.startPfn c.endPfn c.endPfn t.st t.held [])
    (memoryInit_inv hraw) (fun _ _ => step_inv) h

/-- What a caller can rely on: the listed and the held blocks are aligned and partition the range,
every listed head carries its mark and its order, and every counter is the length of its list. -/
structure Consistent (lo hi : ℕ) (t : System) : Prop where
  aligned : ∀ b ∈ freeBlocks t.st ++ t.held, b.Aligned
  partition : Partition lo hi (freeBlocks t.st ++ t.held)
  marked : ∀ o < MAX_ORDER, ∀ p ∈ t.st.freeList o,
    PageBuddy (t.st.page p) = true ∧ (t.st.page p).priv = o
  counted : ∀ o < MAX_ORDER, t.st.nrFree o = (t.st.freeList o).length

/-- **The buddy allocator partitions its range** in every state that a run from `memory_init`
reaches. -/
theorem reachable_consistent (c : Config) {raw : ℕ → Page} (hraw : Raw c raw) {t : System}
    (h : Reachable c raw t) : Consistent c.startPfn c.endPfn t := by
  have hinv := reachable_inv hraw h
  have htiles := hinv.tiles
  have hshape := hinv.shape
  rw [List.append_nil] at htiles hshape
  exact ⟨fun b hb => (hshape b hb).1, htiles.partition, fun o _ p hp => (hinv.flags o p hp).2,
    fun o _ => hinv.count o⟩

/-- Seven pages at `0x3000`. -/
def sevenPages : Config where
  PHYS_OFFSET := 0x3000
  MEMORY_SIZE := 0x7000
  offset_pos := by decide
  offset_aligned := by decide
  size_aligned := by decide
  no_overflow := by decide

/-- The state after allocating one page of the seven. -/
theorem reachable_consistent_sevenPages :
    Consistent sevenPages.startPfn sevenPages.endPfn
      ⟨(allocPages (memoryInit sevenPages fun _ => ⟨0, 0⟩) 0).1, [⟨3, 0⟩]⟩ := by
  have hraw : Raw sevenPages fun _ => ⟨0, 0⟩ := ⟨fun _ _ => rfl, fun _ _ => by decide⟩
  refine reachable_consistent sevenPages hraw (Relation.ReflTransGen.single ?_)
  exact Step.alloc (by decide) (Prod.ext rfl (by decide))

end HardStack.Buddy.Partition
