import HardStack.Buddy.Model

/-! # The partition invariant of the buddy allocator

`Inv lo hi E s held fl`: the free blocks, the held blocks and the blocks `fl` in flight (taken off
a list and not yet handed out, or handed back and not yet listed) tile `[lo, hi)`. Every listed head
is marked `PageBuddy` with its order in `private`, and a page that is marked without being listed is
*stale*: its order is `0` and no held block starts there. `memory_init` leaves such pages behind,
since its first loop marks every page; `E` is the end of the marked range, beyond `hi` only while
`memory_init` runs. The operations of the allocator are compositions of the few changes below. -/

namespace HardStack.Buddy.Invariant

open HardStack.Lib.Dyadic HardStack.Buddy.Model

/-- The blocks on the free lists. -/
def freeBlocks (s : State) : List Block := blocksOf MAX_ORDER s.freeList

/-- **The invariant.** -/
structure Inv (lo hi E : ℕ) (s : State) (held fl : List Block) : Prop where
  le_end : hi ≤ E
  tiles : Tiles lo hi (freeBlocks s ++ (held ++ fl))
  shape : ∀ b ∈ freeBlocks s ++ (held ++ fl), b.Aligned ∧ b.order < MAX_ORDER
  flags : ∀ o, ∀ p ∈ s.freeList o,
    o < MAX_ORDER ∧ PageBuddy (s.page p) = true ∧ (s.page p).priv = o
  count : ∀ o, s.nrFree o = (s.freeList o).length
  typed : ∀ q, lo ≤ q → q < E →
    (s.page q).pageType = PAGE_TYPE_BASE ∨ (s.page q).pageType = PAGE_TYPE_BASE ||| PG_buddy
  stale : ∀ q, PageBuddy (s.page q) = true → lo ≤ q ∧ q < E ∧
    (q ∈ s.freeList (s.page q).priv ∨ ((s.page q).priv = 0 ∧ ∀ b ∈ held, b.head ≠ q))

variable {lo hi E : ℕ} {s : State} {held fl : List Block}

/-! ### Flags -/

theorem pageBuddy_set {page : Page} {order : ℕ} (h : page.pageType = PAGE_TYPE_BASE ∨
    page.pageType = PAGE_TYPE_BASE ||| PG_buddy) :
    (setPageBuddy { page with priv := order }).pageType = PAGE_TYPE_BASE := by
  rcases h with h | h <;> (simp only [setPageBuddy, h]; decide)

theorem pageType_clear {page : Page} (h : page.pageType = PAGE_TYPE_BASE ∨
    page.pageType = PAGE_TYPE_BASE ||| PG_buddy) :
    (clearPageBuddy page).pageType = PAGE_TYPE_BASE ||| PG_buddy := by
  rcases h with h | h
  · simp only [clearPageBuddy, h]
  · simp only [clearPageBuddy, h]; decide

theorem pageBuddy_of_base {page : Page} (h : page.pageType = PAGE_TYPE_BASE) :
    PageBuddy page = true := by
  simp only [PageBuddy, h]; decide

theorem not_pageBuddy {page : Page} (h : page.pageType = PAGE_TYPE_BASE ||| PG_buddy) :
    PageBuddy page = false := by
  simp only [PageBuddy, h]; decide

/-! ### Reading the invariant -/

theorem mem_freeBlocks {p o : ℕ} (h : Inv lo hi E s held fl) (hp : p ∈ s.freeList o) :
    ⟨p, o⟩ ∈ freeBlocks s :=
  mem_blocksOf.mpr ⟨(h.flags o p hp).1, hp⟩

theorem Inv.range {b : Block} (h : Inv lo hi E s held fl)
    (hb : b ∈ freeBlocks s ++ (held ++ fl)) {q : ℕ} (hq : b.Covers q) : lo ≤ q ∧ q < hi :=
  (h.tiles.partition.covered q).mpr ⟨b, hb, hq⟩

/-- The head of a block in flight lies in the range, and its page struct is well typed. -/
theorem Inv.head_range {b : Block} (h : Inv lo hi E s held fl) (hb : b ∈ fl) :
    lo ≤ b.head ∧ b.head < hi :=
  h.range (by simp [hb]) b.covers_head

theorem Inv.free_range {p o : ℕ} (h : Inv lo hi E s held fl) (hp : p ∈ s.freeList o) :
    lo ≤ p ∧ p < hi :=
  h.range (List.mem_append_left _ (mem_freeBlocks h hp)) (Block.covers_head ⟨p, o⟩)

/-- A page stands in the list of one order only. -/
theorem Inv.order_unique {p o o' : ℕ} (h : Inv lo hi E s held fl) (hp : p ∈ s.freeList o)
    (hp' : p ∈ s.freeList o') : o' = o :=
  (h.flags o' p hp').2.2.symm.trans (h.flags o p hp).2.2

/-! ### Taking a block off its list -/

/-- What `list_del`, `nr_free--` and `rmv_page_order` do together. -/
def takeBlock (s : State) (p o : ℕ) : State := ((s.listDel p).decNrFree o).rmvPageOrder p

theorem take_page_ne {p o q : ℕ} (h : q ≠ p) : (takeBlock s p o).page q = s.page q := by
  simp [takeBlock, State.listDel, State.decNrFree, State.rmvPageOrder, h]

theorem take_not_buddy {p o : ℕ} (h : Inv lo hi E s held fl) (h1 : lo ≤ p) (h2 : p < E) :
    PageBuddy ((takeBlock s p o).page p) = false := by
  refine not_pageBuddy ?_
  simp only [takeBlock, State.rmvPageOrder, State.decNrFree, State.listDel, Function.update_self]
  exact pageType_clear (h.typed p h1 h2)

theorem freeBlocks_take {p o : ℕ} (h : Inv lo hi E s held fl) (hp : p ∈ s.freeList o) :
    (freeBlocks s).Perm (⟨p, o⟩ :: freeBlocks (takeBlock s p o)) := by
  refine blocksOf_perm (h.flags o p hp).1 (List.perm_cons_erase hp) fun o' ho' => ?_
  exact (List.erase_of_not_mem fun hp' => ho' (h.order_unique hp hp')).symm

/-- **Taking.** A listed block becomes a block in flight whose head is unmarked. -/
theorem Inv.take {p o : ℕ} (h : Inv lo hi E s held fl) (hp : p ∈ s.freeList o) :
    Inv lo hi E (takeBlock s p o) held (⟨p, o⟩ :: fl) := by
  have hrange := h.free_range hp
  have hE := h.le_end
  have hperm : (freeBlocks s ++ (held ++ fl)).Perm
      (freeBlocks (takeBlock s p o) ++ (held ++ ⟨p, o⟩ :: fl)) := by
    refine ((freeBlocks_take h hp).append_right _).trans ?_
    rw [← List.append_assoc, ← List.append_assoc, List.cons_append, List.cons_append]
    exact List.perm_middle.symm
  have hnot := take_not_buddy (o := o) h hrange.1 (by omega)
  refine ⟨hE, h.tiles.perm hperm, fun b hb => h.shape b (hperm.mem_iff.mpr hb),
    fun o' p' hp' => ?_, fun o' => ?_, fun q h1 h2 => ?_, fun q hq => ?_⟩
  · have hmem : p' ∈ s.freeList o' := List.mem_of_mem_erase hp'
    have hne : p' ≠ p := by
      rintro rfl
      have hoo := h.order_unique hp hmem
      subst hoo
      -- the erased head would be in its list twice
      have hin : (⟨p', o'⟩ : Block) ∈ freeBlocks (takeBlock s p' o') :=
        mem_blocksOf.mpr ⟨(h.flags _ _ hp).1, hp'⟩
      have hc := h.tiles p'
      have h1 := ind_le_mult hin p'
      rw [ind_eq_one (Block.covers_head ⟨p', o'⟩)] at h1
      rw [mult_append, mult_perm (freeBlocks_take h hp), mult_cons,
        ind_eq_one (Block.covers_head ⟨p', o'⟩), if_pos hrange] at hc
      omega
    rw [take_page_ne hne]
    exact h.flags o' p' hmem
  · by_cases ho : o' = o
    · subst ho
      have hl := List.length_erase_of_mem hp
      simp only [takeBlock, State.rmvPageOrder, State.decNrFree, State.listDel,
        Function.update_self, h.count, hl]
    · have herase : (s.freeList o').erase p = s.freeList o' :=
        List.erase_of_not_mem fun hp' => ho (h.order_unique hp hp')
      simp only [takeBlock, State.rmvPageOrder, State.decNrFree, State.listDel, herase,
        Function.update_of_ne ho, h.count]
  · by_cases hqp : q = p
    · subst hqp
      right
      simp only [takeBlock, State.rmvPageOrder, State.decNrFree, State.listDel,
        Function.update_self]
      exact pageType_clear (h.typed q h1 h2)
    · rw [take_page_ne hqp]; exact h.typed q h1 h2
  · have hqp : q ≠ p := by
      rintro rfl
      rw [hnot] at hq; cases hq
    rw [take_page_ne hqp] at hq ⊢
    obtain ⟨h1, h2, h3⟩ := h.stale q hq
    refine ⟨h1, h2, h3.imp_left fun hmem => ?_⟩
    exact (List.mem_erase_of_ne hqp).mpr hmem

/-! ### Putting a block on its list -/

/-- **Putting.** A block in flight is marked with its order and listed, at either end. -/
theorem Inv.put {p o : ℕ} {s' : State} (h : Inv lo hi E s held (⟨p, o⟩ :: fl))
    (hpage : s'.page = (s.setPageOrder p o).page)
    (hlist : (s'.freeList o).Perm (p :: s.freeList o))
    (hne : ∀ o', o' ≠ o → s'.freeList o' = s.freeList o')
    (hnr : s'.nrFree = Function.update s.nrFree o (s.nrFree o + 1)) :
    Inv lo hi E s' held fl := by
  have ho : o < MAX_ORDER := (h.shape ⟨p, o⟩ (by simp)).2
  obtain ⟨hlo, hhi⟩ := h.head_range (b := ⟨p, o⟩) (by simp)
  have hE := h.le_end
  have hself : s'.page p = setPageBuddy { s.page p with priv := o } := by
    rw [hpage]; simp [State.setPageOrder]
  have hother : ∀ q, q ≠ p → s'.page q = s.page q := by
    intro q hq; rw [hpage]; simp [State.setPageOrder, hq]
  have htype : (s'.page p).pageType = PAGE_TYPE_BASE := by
    rw [hself]; exact pageBuddy_set (h.typed p hlo (by simp only at hhi; omega))
  have hperm : (freeBlocks s ++ (held ++ ⟨p, o⟩ :: fl)).Perm (freeBlocks s' ++ (held ++ fl)) := by
    refine List.Perm.trans ?_ ((blocksOf_perm ho hlist hne).symm.append_right _)
    rw [← List.append_assoc, ← List.append_assoc, List.cons_append, List.cons_append]
    exact List.perm_middle
  -- the head is not listed yet: it is in flight
  have hfresh : ∀ o', p ∉ s.freeList o' := fun o' hp =>
    h.tiles.not_both (mem_freeBlocks h hp) (List.mem_append_right held List.mem_cons_self)
      (Block.covers_head ⟨p, o'⟩) (Block.covers_head ⟨p, o⟩)
  refine ⟨hE, h.tiles.perm hperm, fun b hb => h.shape b (hperm.mem_iff.mpr hb),
    fun o' p' hp' => ?_, fun o' => ?_, fun q h1 h2 => ?_, fun q hq => ?_⟩
  · by_cases hpp : p' = p
    · subst hpp
      have hoo : o' = o := by
        by_contra hno
        rw [hne o' hno] at hp'
        exact hfresh o' hp'
      subst hoo
      refine ⟨ho, pageBuddy_of_base htype, ?_⟩
      rw [hself]; rfl
    · rw [hother p' hpp]
      by_cases hoo : o' = o
      · subst hoo
        have := hlist.mem_iff.mp hp'
        exact h.flags o' p' ((List.mem_cons.mp this).resolve_left hpp)
      · rw [hne o' hoo] at hp'
        exact h.flags o' p' hp'
  · by_cases hoo : o' = o
    · subst hoo
      rw [hlist.length_eq, hnr, Function.update_self, h.count, List.length_cons]
    · rw [hne o' hoo, hnr, Function.update_of_ne hoo, h.count]
  · by_cases hqp : q = p
    · subst hqp; exact Or.inl htype
    · rw [hother q hqp]; exact h.typed q h1 h2
  · by_cases hqp : q = p
    · subst hqp
      refine ⟨hlo, by simp only at hhi; omega, Or.inl ?_⟩
      have hpriv : (s'.page q).priv = o := by rw [hself]; rfl
      rw [hpriv]
      exact hlist.mem_iff.mpr List.mem_cons_self
    · rw [hother q hqp] at hq ⊢
      obtain ⟨h1, h2, h3⟩ := h.stale q hq
      refine ⟨h1, h2, h3.imp_left fun hmem => ?_⟩
      by_cases hoo : (s.page q).priv = o
      · rw [hoo] at hmem ⊢
        exact hlist.mem_iff.mpr (List.mem_cons_of_mem _ hmem)
      · rw [hne _ hoo]; exact hmem

/-! ### Changes of the blocks in flight -/

/-- Replacing the blocks in flight by others with the same numbers keeps the invariant. -/
theorem Inv.reflight {fl' : List Block} (h : Inv lo hi E s held fl)
    (hmult : ∀ q, mult fl' q = mult fl q) (hshape : ∀ b ∈ fl', b.Aligned ∧ b.order < MAX_ORDER) :
    Inv lo hi E s held fl' := by
  refine ⟨h.le_end, fun q => ?_, fun b hb => ?_, h.flags, h.count, h.typed, h.stale⟩
  · rw [mult_append, mult_append, hmult, ← mult_append, ← mult_append]
    exact h.tiles q
  · rcases List.mem_append.mp hb with hb | hb
    · exact h.shape b (List.mem_append_left _ hb)
    · rcases List.mem_append.mp hb with hb | hb
      · exact h.shape b (by simp [hb])
      · exact hshape b hb

theorem Inv.split {p o : ℕ} (h : Inv lo hi E s held (⟨p, o + 1⟩ :: fl)) :
    Inv lo hi E s held (⟨p + 2 ^ o, o⟩ :: ⟨p, o⟩ :: fl) := by
  obtain ⟨hal, ho⟩ := h.shape ⟨p, o + 1⟩ (by simp)
  have hal' : 2 ^ o ∣ p := (pow_dvd_pow 2 o.le_succ).trans hal
  refine h.reflight (fun q => ?_) fun b hb => ?_
  · simp only [mult_cons, ind_split]; omega
  · rcases List.mem_cons.mp hb with rfl | hb
    · exact ⟨Nat.dvd_add hal' dvd_rfl, by simp only at ho ⊢; omega⟩
    · rcases List.mem_cons.mp hb with rfl | hb
      · exact ⟨hal', by simp only at ho ⊢; omega⟩
      · exact h.shape b (by simp [hb])

theorem Inv.merge {p o : ℕ} (ho : o + 1 < MAX_ORDER)
    (h : Inv lo hi E s held (⟨findBuddyPfn p o, o⟩ :: ⟨p, o⟩ :: fl)) :
    Inv lo hi E s held (⟨findBuddyPfn p o &&& p, o + 1⟩ :: fl) := by
  have hal : 2 ^ o ∣ p := (h.shape ⟨p, o⟩ (by simp)).1
  refine h.reflight (fun q => ?_) fun b hb => ?_
  · simp only [mult_cons, findBuddyPfn, ind_merge hal]; omega
  · rcases List.mem_cons.mp hb with rfl | hb
    · exact ⟨parent_aligned hal, ho⟩
    · exact h.shape b (by simp [hb])

/-- Handing a block in flight to the caller: its head must be unmarked. -/
theorem Inv.hold {b : Block} (h : Inv lo hi E s held (b :: fl))
    (hb : PageBuddy (s.page b.head) = false) : Inv lo hi E s (b :: held) fl := by
  have hperm : (freeBlocks s ++ (held ++ b :: fl)).Perm (freeBlocks s ++ (b :: held ++ fl)) :=
    List.perm_middle.append_left _
  refine ⟨h.le_end, h.tiles.perm hperm, fun c hc => h.shape c (hperm.mem_iff.mpr hc), h.flags,
    h.count, h.typed, fun q hq => ?_⟩
  obtain ⟨h1, h2, h3⟩ := h.stale q hq
  refine ⟨h1, h2, h3.imp_right fun hst => ⟨hst.1, fun c hc => ?_⟩⟩
  rcases List.mem_cons.mp hc with rfl | hc
  · rintro rfl
    rw [hb] at hq; cases hq
  · exact hst.2 c hc

/-- Taking a held block back. -/
theorem Inv.release {b : Block} (h : Inv lo hi E s held fl) (hb : b ∈ held) :
    Inv lo hi E s (held.erase b) (b :: fl) := by
  have hperm : (freeBlocks s ++ (held ++ fl)).Perm
      (freeBlocks s ++ (held.erase b ++ b :: fl)) := by
    refine List.Perm.append_left _ ?_
    exact ((List.perm_cons_erase hb).append_right _).trans List.perm_middle.symm
  refine ⟨h.le_end, h.tiles.perm hperm, fun c hc => h.shape c (hperm.mem_iff.mpr hc), h.flags,
    h.count, h.typed, fun q hq => ?_⟩
  obtain ⟨h1, h2, h3⟩ := h.stale q hq
  exact ⟨h1, h2, h3.imp_right fun hst => ⟨hst.1, fun c hc => hst.2 c (List.mem_of_mem_erase hc)⟩⟩

/-- The order of the held blocks does not matter. -/
theorem Inv.perm_held {held' : List Block} (h : Inv lo hi E s held fl) (hp : held.Perm held') :
    Inv lo hi E s held' fl := by
  have hperm : (freeBlocks s ++ (held ++ fl)).Perm (freeBlocks s ++ (held' ++ fl)) :=
    (hp.append_right fl).append_left _
  refine ⟨h.le_end, h.tiles.perm hperm, fun b hb => h.shape b (hperm.mem_iff.mpr hb), h.flags,
    h.count, h.typed, fun q hq => ?_⟩
  obtain ⟨h1, h2, h3⟩ := h.stale q hq
  exact ⟨h1, h2, h3.imp_right fun hst => ⟨hst.1, fun b hb => hst.2 b (hp.mem_iff.mpr hb)⟩⟩

/-- Growing the range by a block above it (`memory_init`). -/
theorem Inv.grow {o : ℕ} (h : Inv lo hi E s held fl) (hlo : lo ≤ hi) (hle : hi + 2 ^ o ≤ E)
    (hal : 2 ^ o ∣ hi) (ho : o < MAX_ORDER) :
    Inv lo (hi + 2 ^ o) E s held (⟨hi, o⟩ :: fl) := by
  refine ⟨hle, fun q => ?_, fun b hb => ?_, h.flags, h.count, h.typed, h.stale⟩
  · have hq := h.tiles q
    simp only [mult_append, mult_cons] at hq ⊢
    by_cases hc : hi ≤ q ∧ q < hi + 2 ^ o
    · rw [ind_eq_one (b := ⟨hi, o⟩) hc, if_pos (by omega)]
      rw [if_neg (by omega)] at hq
      omega
    · have hind : (Block.mk hi o).ind q = 0 := if_neg hc
      rw [hind]
      split_ifs at hq ⊢ <;> omega
  · simp only [List.mem_append, List.mem_cons] at hb
    rcases hb with hb | hb | rfl | hb
    · exact h.shape b (by simp [hb])
    · exact h.shape b (by simp [hb])
    · exact ⟨hal, ho⟩
    · exact h.shape b (by simp [hb])

end HardStack.Buddy.Invariant
