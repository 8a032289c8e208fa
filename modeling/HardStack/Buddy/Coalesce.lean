import HardStack.Buddy.Partition

/-! # Coalescing is maximal

No free block stands on a list together with its buddy: the merging loop stops only where the buddy
is not listed, and what `expand` lists is the buddy of a block in flight. A range has one tiling of
this kind only, so that a run which gives everything back ends with the free lists of
`memory_init`. -/

namespace HardStack.Buddy.Coalesce

open HardStack.Lib.Dyadic HardStack.Buddy.Model HardStack.Buddy.Invariant HardStack.Buddy.Partition

variable {lo hi E : ℕ} {s : State} {held fl : List Block}

theorem mem_freeBlocks_iff {p o : ℕ} : ⟨p, o⟩ ∈ freeBlocks s ↔ o < MAX_ORDER ∧ p ∈ s.freeList o :=
  mem_blocksOf

theorem findBuddyPfn_findBuddyPfn (p o : ℕ) : findBuddyPfn (findBuddyPfn p o) o = p := by
  unfold findBuddyPfn
  rw [Nat.xor_assoc, Nat.xor_self, Nat.xor_zero]

/-! ### The changes of the lists -/

theorem coalesced_take {p o : ℕ} (hco : Coalesced MAX_ORDER (freeBlocks s)) :
    Coalesced MAX_ORDER (freeBlocks (takeBlock s p o)) := by
  intro q oq hoq hq hb
  rw [mem_freeBlocks_iff] at hq hb
  have hq' : q ∈ s.freeList oq := List.mem_of_mem_erase hq.2
  have hb' : q ^^^ (1 <<< oq) ∈ s.freeList oq := List.mem_of_mem_erase hb.2
  exact hco q oq hoq (mem_freeBlocks_iff.mpr ⟨hq.1, hq'⟩) (mem_freeBlocks_iff.mpr ⟨hb.1, hb'⟩)

/-- Listing a block whose buddy is not listed. -/
theorem coalesced_put {p o : ℕ} {s' : State} (hco : Coalesced MAX_ORDER (freeBlocks s))
    (hlist : (s'.freeList o).Perm (p :: s.freeList o))
    (hne : ∀ o', o' ≠ o → s'.freeList o' = s.freeList o')
    (hbud : o + 1 < MAX_ORDER → findBuddyPfn p o ∉ s.freeList o) :
    Coalesced MAX_ORDER (freeBlocks s') := by
  intro q oq hoq hq hb
  rw [mem_freeBlocks_iff] at hq hb
  obtain ⟨hlt, hq⟩ := hq
  obtain ⟨-, hb⟩ := hb
  by_cases ho : oq = o
  · subst ho
    rw [hlist.mem_iff, List.mem_cons] at hq hb
    rcases hq with rfl | hq
    · rcases hb with hb | hb
      · exact buddy_ne q oq hb
      · exact hbud hoq hb
    · rcases hb with hb | hb
      · -- the listed block is the buddy of the new one
        have hqp : findBuddyPfn p oq = q := by
          rw [← hb]
          exact findBuddyPfn_findBuddyPfn q oq
        exact hbud hoq (hqp ▸ hq)
      · exact hco q oq hoq (mem_freeBlocks_iff.mpr ⟨hlt, hq⟩) (mem_freeBlocks_iff.mpr ⟨hlt, hb⟩)
  · rw [hne oq ho] at hq hb
    exact hco q oq hoq (mem_freeBlocks_iff.mpr ⟨hlt, hq⟩) (mem_freeBlocks_iff.mpr ⟨hlt, hb⟩)

/-! ### `__free_one_page` -/

/-- A buddy that fails `page_is_buddy` is not listed. -/
theorem not_listed {p o : ℕ} (h : Inv lo hi E s held fl)
    (hb : ¬ pageIsBuddy s (findBuddyPfn p o) o = true) : findBuddyPfn p o ∉ s.freeList o := by
  intro hmem
  obtain ⟨-, h1, h2⟩ := h.flags o _ hmem
  refine hb ?_
  unfold pageIsBuddy
  rw [h1, h2, Bool.true_and, beq_iff_eq]

/-- **The merging loop** ends where the buddy is not listed, or at the largest order. -/
theorem continueMerging_coalesced : ∀ (n : ℕ) (s : State) (p o bp : ℕ), o + n + 1 = MAX_ORDER →
    Inv lo hi E s held [⟨p, o⟩] →
    (o = 0 → ¬ (hi ≤ findBuddyPfn p o ∧ findBuddyPfn p o < E)) →
    Coalesced MAX_ORDER (freeBlocks s) →
    Coalesced MAX_ORDER (freeBlocks (continueMerging n s p o bp).1) ∧
      ((continueMerging n s p o bp).2.2.1 + 1 < MAX_ORDER →
        findBuddyPfn (continueMerging n s p o bp).2.1 (continueMerging n s p o bp).2.2.1 ∉
          (continueMerging n s p o bp).1.freeList (continueMerging n s p o bp).2.2.1)
  | 0, s, p, o, bp, hn, _, _, hco => by
    refine ⟨hco, fun hlt => ?_⟩
    simp only [continueMerging] at hlt
    omega
  | n + 1, s, p, o, bp, hn, h, h0, hco => by
    unfold continueMerging
    simp only
    split_ifs with hb
    · have htake := h.take (buddy_listed h hb h0)
      exact continueMerging_coalesced n _ _ _ _ (by omega) (htake.merge (by omega)) (by omega)
        (coalesced_take hco)
    · exact ⟨hco, fun _ => not_listed h hb⟩

theorem doneMerging_coalesced {p o : ℕ} (bp : ℕ) (hco : Coalesced MAX_ORDER (freeBlocks s))
    (hbud : o + 1 < MAX_ORDER → findBuddyPfn p o ∉ s.freeList o) :
    Coalesced MAX_ORDER (freeBlocks (doneMerging s p o bp)) := by
  have hhead : Coalesced MAX_ORDER
      (freeBlocks (((s.setPageOrder p o).listAdd p o).incNrFree o)) := by
    refine coalesced_put hco ?_ (fun o' ho => ?_) hbud
    · simp [State.incNrFree, State.listAdd, setPageOrder_freeList]
    · simp [State.incNrFree, State.listAdd, setPageOrder_freeList, ho]
  have htail : Coalesced MAX_ORDER
      (freeBlocks (((s.setPageOrder p o).listAddTail p o).incNrFree o)) := by
    refine coalesced_put hco ?_ (fun o' ho => ?_) hbud
    · simp only [State.incNrFree, State.listAddTail, setPageOrder_freeList, Function.update_self]
      exact List.perm_append_comm
    · simp [State.incNrFree, State.listAddTail, setPageOrder_freeList, ho]
  unfold doneMerging
  simp only
  split_ifs
  · exact hhead
  · exact htail
  · exact hhead
  · exact hhead

theorem freeOnePage_coalesced {p o : ℕ} (h : Inv lo hi E s held [⟨p, o⟩])
    (h0 : o = 0 → ¬ (hi ≤ findBuddyPfn p o ∧ findBuddyPfn p o < E))
    (hco : Coalesced MAX_ORDER (freeBlocks s)) :
    Coalesced MAX_ORDER (freeBlocks (freeOnePage s p o)) := by
  have ho : o < MAX_ORDER := (h.shape ⟨p, o⟩ (by simp)).2
  have hn : o + (min MAX_ORDER (pageblockOrder + 1) - 1 - o) + 1 = MAX_ORDER := by
    unfold MAX_ORDER pageblockOrder at *; omega
  obtain ⟨hco', hbud⟩ := continueMerging_coalesced _ s p o 0 hn h h0 hco
  exact doneMerging_coalesced _ hco' hbud

/-! ### `expand` and `__rmqueue_smallest` -/

/-- Every half that `expand` lists has its buddy in flight. -/
theorem expandLoop_coalesced (page low : ℕ) : ∀ (n : ℕ) (s : State),
    Inv lo hi E s held (⟨page, low + n⟩ :: fl) → Coalesced MAX_ORDER (freeBlocks s) →
    Coalesced MAX_ORDER (freeBlocks (expandLoop n s page low (2 ^ (low + n))))
  | 0, s, _, hco => hco
  | n + 1, s, h, hco => by
    have hsize : 2 ^ (low + (n + 1)) >>> 1 = 2 ^ (low + n) := by
      rw [Nat.shiftRight_eq_div_pow, ← add_assoc, pow_succ, pow_one, Nat.mul_div_cancel _ two_pos]
    have hal : 2 ^ (low + n + 1) ∣ page := (h.shape ⟨page, low + (n + 1)⟩ (by simp)).1
    have hpos : 0 < 2 ^ (low + n) := by positivity
    have hfree : page ∉ s.freeList (low + n) := fun hmem =>
      h.tiles.not_both (mem_freeBlocks h hmem) (List.mem_append_right held List.mem_cons_self)
        (Block.covers_head ⟨page, low + n⟩) (Block.covers_head ⟨page, low + (n + 1)⟩)
    have hbud : findBuddyPfn (page + 2 ^ (low + n)) (low + n) = page := by
      have hp : findBuddyPfn page (low + n) = page + 2 ^ (low + n) := by
        unfold findBuddyPfn
        rcases buddy_cases ((pow_dvd_pow 2 (low + n).le_succ).trans hal) with ⟨-, hb, -⟩ | ⟨hd, hle, -⟩
        · exact hb
        · have := eq_of_aligned hd hal (by omega) (by rw [pow_succ]; omega)
          omega
      rw [← hp, findBuddyPfn_findBuddyPfn]
    unfold expandLoop
    simp only [hsize]
    refine expandLoop_coalesced page low n _ (h.split.put rfl ?_ (fun o' ho => ?_) rfl)
      (coalesced_put (p := page + 2 ^ (low + n)) (o := low + n) hco ?_ (fun o' ho => ?_) fun _ => ?_)
    · simp [State.setPageOrder, State.incNrFree, State.listAdd]
    · exact Function.update_of_ne ho _ _
    · simp [State.setPageOrder, State.incNrFree, State.listAdd]
    · exact Function.update_of_ne ho _ _
    · rw [hbud]
      exact hfree

theorem rmqueueLoop_coalesced (order : ℕ) (h : Inv lo hi E s held [])
    (hco : Coalesced MAX_ORDER (freeBlocks s)) : ∀ (n cur : ℕ), order ≤ cur →
    Coalesced MAX_ORDER (freeBlocks (rmqueueLoop order n s cur).1)
  | 0, cur, _ => hco
  | n + 1, cur, hle => by
    unfold rmqueueLoop
    cases hl : s.freeList cur with
    | nil => exact rmqueueLoop_coalesced order h hco n (cur + 1) (by omega)
    | cons page rest =>
      have hmem : page ∈ s.freeList cur := by rw [hl]; exact List.mem_cons_self
      obtain ⟨k, rfl⟩ := Nat.exists_eq_add_of_le hle
      dsimp only
      unfold expand
      rw [Nat.one_shiftLeft, Nat.add_sub_cancel_left]
      exact expandLoop_coalesced page order k _ (h.take hmem) (coalesced_take hco)

/-! ### Runs -/

theorem freeRange_coalesced : ∀ (n : ℕ) (s : State) (a : ℕ), lo ≤ a → a ≤ E →
    Inv lo a E s [] [] → Coalesced MAX_ORDER (freeBlocks s) →
    Coalesced MAX_ORDER (freeBlocks (freeRange E n s a))
  | 0, s, a, _, _, _, hco => hco
  | n + 1, s, a, hlo, hE, h, hco => by
    unfold freeRange
    by_cases hlt : a < E
    · rw [if_pos hlt]
      simp only
      generalize ho : shrinkOrder a E (min (MAX_ORDER - 1) (ffs a)) = o
      obtain ⟨h1, h2, -⟩ := shrinkOrder_spec hlt (min (MAX_ORDER - 1) (ffs a))
      rw [ho] at h1 h2
      have hal : 2 ^ o ∣ a := (pow_dvd_pow 2 (by omega)).trans (ffs_dvd a)
      have hgrow := h.grow hlo h2 hal (by unfold MAX_ORDER at *; omega)
      have h0 : o = 0 → ¬ (a + 2 ^ o ≤ findBuddyPfn a o ∧ findBuddyPfn a o < E) := by
        intro hz
        rw [hz] at ho ⊢
        exact buddy_zero_outside hlt ho
      rw [Nat.one_shiftLeft]
      exact freeRange_coalesced n _ _ (by omega) h2 (freeOnePage_inv hgrow h0)
        (freeOnePage_coalesced hgrow h0 hco)
    · rw [if_neg hlt]
      exact hco

variable {c : Config} {raw : ℕ → Page}

theorem memoryInit_coalesced (hraw : Raw c raw) :
    Coalesced MAX_ORDER (freeBlocks (memoryInit c raw)) := by
  have hs := startPfn_eq c
  have he := endPfn_eq c
  refine freeRange_coalesced _ _ _ le_rfl (by omega) (initPages_inv hraw) fun p o _ hp => ?_
  simp [freeBlocks, blocksOf, initPages] at hp

theorem step_coalesced {t t' : System} (h : Inv lo hi hi t.st t.held [])
    (hco : Coalesced MAX_ORDER (freeBlocks t.st)) (hst : Step t t') :
    Coalesced MAX_ORDER (freeBlocks t'.st) := by
  have halloc : ∀ order, Coalesced MAX_ORDER (freeBlocks (allocPages t.st order).1) := fun order =>
    rmqueueLoop_coalesced order h hco _ order le_rfl
  cases hst with
  | @alloc s s' held order page ho he =>
    have hs : s' = (allocPages s order).1 := by rw [he]
    exact hs ▸ halloc order
  | @allocNull s s' held order ho he =>
    have hs : s' = (allocPages s order).1 := by rw [he]
    exact hs ▸ halloc order
  | free hb => exact freeOnePage_coalesced (h.release hb) (fun _ => by omega) hco

theorem reachable_freeBlocks (hraw : Raw c raw) {t : System} (h : Reachable c raw t) :
    Inv c.startPfn c.endPfn c.endPfn t.st t.held [] ∧ Coalesced MAX_ORDER (freeBlocks t.st) :=
  Lib.Run.invariant (I := fun t => Inv c.startPfn c.endPfn c.endPfn t.st t.held [] ∧
      Coalesced MAX_ORDER (freeBlocks t.st)) ⟨memoryInit_inv hraw, memoryInit_coalesced hraw⟩
    (fun _ _ hx hst => ⟨step_inv hx.1 hst, step_coalesced hx.1 hx.2 hst⟩) h

/-- **Coalescing is maximal.** In every reachable state no two listed blocks of one order below the
largest are buddies; and where nothing is held, the free lists have the blocks they had right after
`memory_init`. -/
theorem reachable_coalesced (c : Config) {raw : ℕ → Page} (hraw : Raw c raw) {t : System}
    (h : Reachable c raw t) :
    (∀ o < MAX_ORDER - 1, ∀ p ∈ t.st.freeList o, p ^^^ (1 <<< o) ∉ t.st.freeList o) ∧
      (t.held = [] → ∀ o < MAX_ORDER, ∀ p,
        p ∈ t.st.freeList o ↔ p ∈ (memoryInit c raw).freeList o) := by
  obtain ⟨hinv, hco⟩ := reachable_freeBlocks hraw h
  constructor
  · intro o ho p hp hb
    have hlt : o < MAX_ORDER := by omega
    exact hco p o (by omega) (mem_freeBlocks_iff.mpr ⟨hlt, hp⟩) (mem_freeBlocks_iff.mpr ⟨hlt, hb⟩)
  · intro hheld o ho p
    have hinit := memoryInit_inv hraw
    have htiles : Tiles c.startPfn c.endPfn (freeBlocks t.st) := by
      simpa [hheld] using hinv.tiles
    have htiles₀ : Tiles c.startPfn c.endPfn (freeBlocks (memoryInit c raw)) := by
      simpa using hinit.tiles
    have hshape : ∀ b ∈ freeBlocks t.st, b.Aligned ∧ b.order < MAX_ORDER := fun b hb =>
      hinv.shape b (List.mem_append_left _ hb)
    have hshape₀ : ∀ b ∈ freeBlocks (memoryInit c raw), b.Aligned ∧ b.order < MAX_ORDER :=
      fun b hb => hinit.shape b (List.mem_append_left _ hb)
    have hco₀ := memoryInit_coalesced hraw
    constructor
    · intro hp
      exact (mem_freeBlocks_iff.mp (htiles.mem_of_coalesced htiles₀ hshape hshape₀ hco hco₀
        (mem_freeBlocks_iff.mpr ⟨ho, hp⟩))).2
    · intro hp
      exact (mem_freeBlocks_iff.mp (htiles₀.mem_of_coalesced htiles hshape₀ hshape hco₀ hco
        (mem_freeBlocks_iff.mpr ⟨ho, hp⟩))).2

/-- The seven pages after allocating one and giving it back. -/
theorem reachable_coalesced_sevenPages :
    3 ∈ (freePages (allocPages (memoryInit sevenPages fun _ => ⟨0, 0⟩) 0).1 3 0).freeList 0 ↔
      3 ∈ (memoryInit sevenPages fun _ => ⟨0, 0⟩).freeList 0 := by
  have hraw : Raw sevenPages fun _ => ⟨0, 0⟩ := ⟨fun _ _ => rfl, fun _ _ => by decide⟩
  have h1 : Step ⟨memoryInit sevenPages fun _ => ⟨0, 0⟩, []⟩
      ⟨(allocPages (memoryInit sevenPages fun _ => ⟨0, 0⟩) 0).1, [⟨3, 0⟩]⟩ :=
    Step.alloc (by decide) (Prod.ext rfl (by decide))
  have h2 : Step ⟨(allocPages (memoryInit sevenPages fun _ => ⟨0, 0⟩) 0).1, [⟨3, 0⟩]⟩
      ⟨freePages (allocPages (memoryInit sevenPages fun _ => ⟨0, 0⟩) 0).1 3 0, []⟩ :=
    Step.free (b := ⟨3, 0⟩) (by simp)
  exact (reachable_coalesced sevenPages hraw ((Relation.ReflTransGen.single h1).tail h2)).2 rfl 0
    (by decide) 3

end HardStack.Buddy.Coalesce
