import HardStack.Buddy.HighMemModel
import HardStack.Buddy.Partition

/-! # Zone confinement of the HighMem buddy allocator

`flat` forgets the zones: it joins the lists of the two zones, and each operation is then a composition
of the changes of `Invariant`, so that the blocks tile the whole range. Every listed block is aligned
and inside the range, and none crosses `low_max_pfn` if no aligned block of the range does
(`NoStraddle`). Otherwise `memory_init`, which cuts the range by alignment alone, lists a block that
does. -/

namespace HardStack.Buddy.HighMem

open HardStack.Lib.Dyadic HardStack.Buddy.Invariant HardStack.Buddy.HighMemModel
open HardStack.Buddy.Model (Page PageBuddy setPageBuddy PAGE_SIZE MAX_ORDER pageblockOrder findBuddyPfn
  shrinkOrder ffs)
open HardStack.Buddy.Partition (buddy_listed ffs_dvd shrinkOrder_spec buddy_zero_outside le_shrinkOrder
  le_ffs)

variable {c : Config} {lo hi E : ℕ} {s : State} {held fl : List Block}

/-- The state without its zones. -/
def flat (s : State) : Model.State where
  page := s.page
  freeList := fun o => s.freeList .normal o ++ s.freeList .highmem o
  nrFree := fun o => s.nrFree .normal o + s.nrFree .highmem o

theorem mem_flat {p o : ℕ} : p ∈ (flat s).freeList o ↔ ∃ z, p ∈ s.freeList z o := by
  show p ∈ s.freeList .normal o ++ s.freeList .highmem o ↔ _
  rw [List.mem_append]
  constructor
  · rintro (h | h)
    · exact ⟨_, h⟩
    · exact ⟨_, h⟩
  · rintro ⟨z, h⟩
    cases z with
    | normal => exact Or.inl h
    | highmem => exact Or.inr h

/-- **The invariant**: the blocks tile the range, and a listed head is in the zone of its list. -/
structure ZInv (c : Config) (lo hi E : ℕ) (s : State) (held fl : List Block) : Prop where
  inv : Inv lo hi E (flat s) held fl
  count : ∀ z o, s.nrFree z o = (s.freeList z o).length
  zone : ∀ z o, ∀ p ∈ s.freeList z o, c.pageZone p = z

theorem ZInv.of_inv {held' fl' : List Block} {lo' hi' : ℕ} (h : ZInv c lo hi E s held fl)
    (hinv : Inv lo' hi' E (flat s) held' fl') : ZInv c lo' hi' E s held' fl' :=
  ⟨hinv, h.count, h.zone⟩

/-! ### Taking a block off its list -/

/-- What `list_del`, `nr_free--` and `rmv_page_order` do together. -/
def takeBlock (s : State) (z : Zone) (p o : ℕ) : State :=
  ((s.listDel p).decNrFree z o).rmvPageOrder p

theorem flat_takeBlock {z : Zone} {p o : ℕ} (h : ZInv c lo hi E s held fl)
    (hp : p ∈ s.freeList z o) : flat (takeBlock s z p o) = Invariant.takeBlock (flat s) p o := by
  -- the page is in the lists of one zone only
  have hother : ∀ z' o', z' ≠ z → p ∉ s.freeList z' o' := fun z' o' hz hp' =>
    hz ((h.zone z' o' p hp').symm.trans (h.zone z o p hp))
  have hpos : 0 < s.nrFree z o := by rw [h.count]; exact List.length_pos_of_mem hp
  have hlist : ∀ o', (s.freeList .normal o').erase p ++ (s.freeList .highmem o').erase p =
      (s.freeList .normal o' ++ s.freeList .highmem o').erase p := by
    intro o'
    rw [List.erase_append]
    cases z with
    | normal =>
      have hno := hother .highmem o' (by decide)
      split_ifs with hmem
      · rw [List.erase_of_not_mem hno]
      · rw [List.erase_of_not_mem hmem]
    | highmem =>
      have hno := hother .normal o' (by decide)
      rw [if_neg hno, List.erase_of_not_mem hno]
  have hnr : ∀ o', (s.decNrFree z o).nrFree .normal o' + (s.decNrFree z o).nrFree .highmem o' =
      Function.update (fun o => s.nrFree .normal o + s.nrFree .highmem o) o
        (s.nrFree .normal o + s.nrFree .highmem o - 1) o' := by
    intro o'
    unfold State.decNrFree State.setNrFree
    by_cases ho : o' = o
    · subst ho
      cases z with
      | normal =>
        simp only [Function.update_self, ne_eq, reduceCtorEq, not_false_eq_true,
          Function.update_of_ne]
        omega
      | highmem =>
        simp only [Function.update_self, ne_eq, reduceCtorEq, not_false_eq_true,
          Function.update_of_ne]
        omega
    · rw [Function.update_of_ne ho]
      cases z <;> simp [ho]
  unfold flat takeBlock Invariant.takeBlock
  simp only [State.rmvPageOrder, State.decNrFree, State.setNrFree, State.listDel,
    Model.State.rmvPageOrder, Model.State.decNrFree, Model.State.listDel, Model.State.mk.injEq,
    true_and]
  exact ⟨funext hlist, funext hnr⟩

/-- **Taking.** A listed block becomes a block in flight. -/
theorem ZInv.take {z : Zone} {p o : ℕ} (h : ZInv c lo hi E s held fl) (hp : p ∈ s.freeList z o) :
    ZInv c lo hi E (takeBlock s z p o) held (⟨p, o⟩ :: fl) := by
  have hlisted : p ∈ (flat s).freeList o := mem_flat.mpr ⟨z, hp⟩
  refine ⟨?_, fun z' o' => ?_, fun z' o' p' hp' => ?_⟩
  · rw [flat_takeBlock h hp]
    exact h.inv.take hlisted
  · show (s.decNrFree z o).nrFree z' o' = ((s.freeList z' o').erase p).length
    unfold State.decNrFree State.setNrFree
    dsimp only
    by_cases hz : z' = z
    · subst hz
      rw [Function.update_self]
      by_cases ho : o' = o
      · subst ho
        rw [Function.update_self, List.length_erase_of_mem hp, h.count]
      · have hno : p ∉ s.freeList z' o' := fun hp' =>
          ho (h.inv.order_unique hlisted (mem_flat.mpr ⟨z', hp'⟩))
        rw [Function.update_of_ne ho, List.erase_of_not_mem hno, h.count]
    · have hno : p ∉ s.freeList z' o' := fun hp' =>
        hz ((h.zone z' o' p hp').symm.trans (h.zone z o p hp))
      rw [Function.update_of_ne hz, List.erase_of_not_mem hno, h.count]
  · exact h.zone z' o' p' (List.mem_of_mem_erase hp')

/-! ### Putting a block on its list -/

/-- **Putting.** A block in flight is marked and listed, at either end of the list of its zone. -/
theorem ZInv.put {z : Zone} {p o : ℕ} {s' : State} {list : List ℕ}
    (h : ZInv c lo hi E s held (⟨p, o⟩ :: fl)) (hzone : c.pageZone p = z)
    (hpage : s'.page = (s.setPageOrder p o).page) (hlist : list.Perm (p :: s.freeList z o))
    (hfree : s'.freeList = (s.setList z o list).freeList)
    (hnr : s'.nrFree = (s.incNrFree z o).nrFree) : ZInv c lo hi E s' held fl := by
  have hself : ∀ z' o', s'.freeList z' o' = if z' = z ∧ o' = o then list else s.freeList z' o' := by
    intro z' o'
    rw [hfree]
    unfold State.setList
    by_cases hz : z' = z
    · subst hz
      by_cases ho : o' = o
      · subst ho; simp
      · simp [ho]
    · simp [hz]
  have hcount : ∀ z' o', s'.nrFree z' o' =
      if z' = z ∧ o' = o then s.nrFree z o + 1 else s.nrFree z' o' := by
    intro z' o'
    rw [hnr]
    unfold State.incNrFree State.setNrFree
    by_cases hz : z' = z
    · subst hz
      by_cases ho : o' = o
      · subst ho; simp
      · simp [ho]
    · simp [hz]
  refine ⟨Invariant.Inv.put h.inv hpage ?_ (fun o' ho => ?_) ?_, fun z' o' => ?_,
    fun z' o' p' hp' => ?_⟩
  · show (s'.freeList .normal o ++ s'.freeList .highmem o).Perm
      (p :: (s.freeList .normal o ++ s.freeList .highmem o))
    rw [hself, hself]
    cases z with
    | normal =>
      rw [if_pos ⟨rfl, rfl⟩, if_neg (by simp)]
      exact hlist.append_right _
    | highmem =>
      rw [if_neg (by simp), if_pos ⟨rfl, rfl⟩]
      exact (hlist.append_left _).trans List.perm_middle
  · show s'.freeList .normal o' ++ s'.freeList .highmem o' = _
    rw [hself, hself, if_neg fun hz => ho hz.2, if_neg fun hz => ho hz.2]
    rfl
  · funext o'
    show s'.nrFree .normal o' + s'.nrFree .highmem o' = _
    rw [hcount, hcount]
    by_cases ho : o' = o
    · subst ho
      rw [Function.update_self]
      cases z with
      | normal =>
        rw [if_pos ⟨rfl, rfl⟩, if_neg (by simp)]
        show _ = s.nrFree .normal o' + s.nrFree .highmem o' + 1
        omega
      | highmem =>
        rw [if_neg (by simp), if_pos ⟨rfl, rfl⟩]
        show _ = s.nrFree .normal o' + s.nrFree .highmem o' + 1
        omega
    · rw [Function.update_of_ne ho, if_neg fun hz => ho hz.2, if_neg fun hz => ho hz.2]
      rfl
  · rw [hself, hcount]
    split_ifs with hz
    · rw [hlist.length_eq, List.length_cons, h.count]
    · exact h.count z' o'
  · rw [hself] at hp'
    split_ifs at hp' with hz
    · rw [hz.1]
      rcases List.mem_cons.mp (hlist.mem_iff.mp hp') with rfl | hp'
      · exact hzone
      · exact h.zone z o p' hp'
    · exact h.zone z' o' p' hp'

/-! ### `__free_one_page` -/

/-- A buddy that passes `page_is_buddy` is listed in the zone of the page. -/
theorem buddy_listed_zone {p o : ℕ} (h : ZInv c lo hi E s held [⟨p, o⟩])
    (hb : pageIsBuddy c s p (findBuddyPfn p o) o = true)
    (h0 : o = 0 → ¬ (hi ≤ findBuddyPfn p o ∧ findBuddyPfn p o < E)) :
    findBuddyPfn p o ∈ s.freeList (c.pageZone p) o ∧
      c.pageZone (findBuddyPfn p o &&& p) = c.pageZone p := by
  unfold pageIsBuddy at hb
  rw [Bool.and_eq_true, beq_iff_eq] at hb
  obtain ⟨hb, hz⟩ := hb
  obtain ⟨z, hmem⟩ := mem_flat.mp (buddy_listed h.inv hb h0)
  have hzone := h.zone z o _ hmem
  rw [← hz] at hzone
  refine ⟨hzone ▸ hmem, ?_⟩
  -- the head of the merged block is one of the two heads
  have hal : 2 ^ o ∣ p := (h.inv.shape ⟨p, o⟩ (by simp)).1
  unfold findBuddyPfn at hz ⊢
  rcases buddy_cases hal with ⟨-, -, he⟩ | ⟨-, -, hb', he⟩
  · rw [he]
  · rw [he, ← hb']
    exact hz.symm

theorem continueMerging_inv : ∀ (n : ℕ) (s : State) (p o bp : ℕ), o + n < MAX_ORDER →
    ZInv c lo hi E s held [⟨p, o⟩] →
    (o = 0 → ¬ (hi ≤ findBuddyPfn p o ∧ findBuddyPfn p o < E)) →
    ZInv c lo hi E (continueMerging c (c.pageZone p) n s p o bp).1 held
      [⟨(continueMerging c (c.pageZone p) n s p o bp).2.1,
        (continueMerging c (c.pageZone p) n s p o bp).2.2.1⟩] ∧
      c.pageZone (continueMerging c (c.pageZone p) n s p o bp).2.1 = c.pageZone p
  | 0, s, p, o, bp, _, h, _ => ⟨h, rfl⟩
  | n + 1, s, p, o, bp, hn, h, h0 => by
    rw [continueMerging]
    dsimp only
    by_cases hb : pageIsBuddy c s p (findBuddyPfn p o) o = true
    · rw [if_pos hb]
      obtain ⟨hmem, hz⟩ := buddy_listed_zone h hb h0
      have htake := h.take hmem
      have hmerge := htake.of_inv (htake.inv.merge (by omega))
      have := continueMerging_inv n _ _ _ (findBuddyPfn p o) (by omega) hmerge (by omega)
      rw [hz] at this
      exact this
    · rw [if_neg hb]
      exact ⟨h, rfl⟩

theorem doneMerging_inv {z : Zone} {p o : ℕ} (bp : ℕ) (h : ZInv c lo hi E s held (⟨p, o⟩ :: fl))
    (hz : c.pageZone p = z) : ZInv c lo hi E (doneMerging c z s p o bp) held fl := by
  have hhead : ZInv c lo hi E (((s.setPageOrder p o).listAdd z p o).incNrFree z o) held fl :=
    h.put hz rfl (List.Perm.refl _) rfl rfl
  have htail : ZInv c lo hi E (((s.setPageOrder p o).listAddTail z p o).incNrFree z o) held fl :=
    h.put hz rfl List.perm_append_comm rfl rfl
  unfold doneMerging
  dsimp only
  split_ifs
  · exact hhead
  · exact htail
  · exact hhead
  · exact hhead

/-- **Freeing** lists the block in flight, in the zone of its head. -/
theorem freePages_inv {p o : ℕ} (h : ZInv c lo hi E s held [⟨p, o⟩])
    (h0 : o = 0 → ¬ (hi ≤ findBuddyPfn p o ∧ findBuddyPfn p o < E)) :
    ZInv c lo hi E (freePages c s p o) held [] := by
  have ho : o < MAX_ORDER := (h.inv.shape ⟨p, o⟩ (by simp)).2
  have hn : o + (min MAX_ORDER (pageblockOrder + 1) - 1 - o) < MAX_ORDER := by
    unfold MAX_ORDER pageblockOrder at *; omega
  obtain ⟨h1, h2⟩ := continueMerging_inv _ s p o 0 hn h h0
  exact doneMerging_inv _ h1 h2

/-! ### `expand` and `__rmqueue_smallest` -/

/-- No aligned block of the range crosses the border of the zones. -/
def NoStraddle (c : Config) : Prop :=
  ∀ o < MAX_ORDER, ∀ p, 2 ^ o ∣ p → c.lowPfn ≤ p → p + 2 ^ o ≤ c.endPfn →
    ¬ (p < c.highPfn ∧ c.highPfn < p + 2 ^ o)

/-- A block of the tiling lies inside the range. -/
theorem block_range {b : Block} (h : ZInv c lo hi E s held fl)
    (hb : b ∈ freeBlocks (flat s) ++ (held ++ fl)) : lo ≤ b.head ∧ b.head + 2 ^ b.order ≤ hi := by
  have hpos : 0 < 2 ^ b.order := by positivity
  have h1 := h.inv.range hb b.covers_head
  have h2 := h.inv.range hb (q := b.head + 2 ^ b.order - 1) ⟨by omega, by omega⟩
  omega

/-- Where no block straddles, all pages of a block are in the zone of its head. -/
theorem pageZone_upper {p o : ℕ} (hns : NoStraddle c)
    (h : ZInv c c.lowPfn c.endPfn E s held fl) (hb : ⟨p, o + 1⟩ ∈ fl) :
    c.pageZone (p + 2 ^ o) = c.pageZone p := by
  have hmem : (⟨p, o + 1⟩ : Block) ∈ freeBlocks (flat s) ++ (held ++ fl) := by simp [hb]
  obtain ⟨hal, ho⟩ := h.inv.shape _ hmem
  obtain ⟨hlo, hhi⟩ := block_range h hmem
  have hno := hns (o + 1) ho p hal hlo hhi
  have hpos : 0 < 2 ^ o := by positivity
  rw [pow_succ] at hno
  unfold Config.pageZone
  by_cases hz : p ≥ c.highPfn
  · rw [if_pos hz, if_pos (by omega)]
  · rw [if_neg hz, if_neg (by omega)]

theorem expandLoop_inv (hns : NoStraddle c) (page low : ℕ) : ∀ (n : ℕ) (s : State),
    ZInv c c.lowPfn c.endPfn E s held (⟨page, low + n⟩ :: fl) → PageBuddy (s.page page) = false →
    ZInv c c.lowPfn c.endPfn E (expandLoop (c.pageZone page) n s page low (2 ^ (low + n))) held
        (⟨page, low⟩ :: fl) ∧
      PageBuddy ((expandLoop (c.pageZone page) n s page low (2 ^ (low + n))).page page) = false
  | 0, s, h, hb => ⟨h, hb⟩
  | n + 1, s, h, hb => by
    have hsize : 2 ^ (low + (n + 1)) >>> 1 = 2 ^ (low + n) := by
      rw [Nat.shiftRight_eq_div_pow, ← add_assoc, pow_succ, pow_one, Nat.mul_div_cancel _ two_pos]
    have hpos : 0 < 2 ^ (low + n) := by positivity
    have hzone : c.pageZone (page + 2 ^ (low + n)) = c.pageZone page :=
      pageZone_upper hns h List.mem_cons_self
    have hsplit := h.of_inv h.inv.split
    unfold expandLoop
    dsimp only
    rw [hsize]
    refine expandLoop_inv hns page low n _ (hsplit.put hzone rfl (List.Perm.refl _) rfl rfl) ?_
    have hne : page ≠ page + 2 ^ (low + n) := by omega
    show PageBuddy (Function.update s.page (page + 2 ^ (low + n)) _ page) = false
    rw [Function.update_of_ne hne]
    exact hb

theorem rmqueueLoop_inv (hns : NoStraddle c) (z : Zone) (order : ℕ) {s' : State}
    (h : ZInv c c.lowPfn c.endPfn c.endPfn s held []) : ∀ (n cur : ℕ), order ≤ cur →
    (∀ page, rmqueueLoop z order n s cur = (s', some page) →
      ZInv c c.lowPfn c.endPfn c.endPfn s' (⟨page, order⟩ :: held) [] ∧ c.pageZone page = z) ∧
    (rmqueueLoop z order n s cur = (s', none) → s' = s)
  | 0, cur, _ => ⟨fun page he => (by cases he), fun he => (by cases he; rfl)⟩
  | n + 1, cur, hle => by
    unfold rmqueueLoop
    cases hl : s.freeList z cur with
    | nil => exact rmqueueLoop_inv hns z order h n (cur + 1) (by omega)
    | cons page rest =>
      have hmem : page ∈ s.freeList z cur := by rw [hl]; exact List.mem_cons_self
      have hzone := h.zone z cur page hmem
      have hflat : page ∈ (flat s).freeList cur := mem_flat.mpr ⟨z, hmem⟩
      obtain ⟨hlo, hhi⟩ := h.inv.free_range hflat
      have hnb : PageBuddy ((takeBlock s z page cur).page page) = false := by
        have := take_not_buddy (o := cur) h.inv hlo hhi
        rw [← flat_takeBlock h hmem] at this
        exact this
      obtain ⟨k, rfl⟩ := Nat.exists_eq_add_of_le hle
      obtain ⟨hexp, hnb'⟩ := expandLoop_inv hns page order k _ (h.take hmem) hnb
      refine ⟨fun p he => ?_, fun he => by cases he⟩
      cases he
      unfold expand
      rw [Nat.one_shiftLeft, Nat.add_sub_cancel_left]
      rw [hzone] at hexp hnb'
      exact ⟨hexp.of_inv (hexp.inv.hold hnb'), hzone⟩

/-! ### `memory_init` -/

theorem lowPfn_eq (c : Config) : c.lowPfn = c.PFN_OFFSET := by
  obtain ⟨k, hk⟩ := c.offset_aligned
  simp only [Config.lowPfn, Config.PFN_OFFSET, Model.PFN_UP, Model.PHYS_PFN, PAGE_SIZE,
    Model.PAGE_SHIFT, Nat.shiftRight_eq_div_pow, Nat.one_shiftLeft] at hk ⊢
  omega

theorem endPfn_eq (c : Config) : c.endPfn = c.PFN_OFFSET + c.nrPages := by
  obtain ⟨k, hk⟩ := c.offset_aligned
  simp only [Config.endPfn, Config.PFN_OFFSET, Config.nrPages, Model.PFN_DOWN, Model.PHYS_PFN,
    PAGE_SIZE, Model.PAGE_SHIFT, Nat.shiftRight_eq_div_pow, Nat.one_shiftLeft] at hk ⊢
  omega

/-- The configuration of the allocator without zones over the same range. -/
def joined (c : Config) : Model.Config where
  PHYS_OFFSET := c.PHYS_OFFSET
  MEMORY_SIZE := c.MEMORY_SIZE + c.HIGHMEM_SIZE
  offset_pos := c.offset_pos
  offset_aligned := c.offset_aligned
  size_aligned := Nat.dvd_add c.size_aligned c.highmem_aligned
  no_overflow := by have := c.no_overflow; omega

theorem initPages_inv {raw : ℕ → Page} (hraw : Raw c raw) :
    ZInv c c.lowPfn c.lowPfn c.endPfn (initPages c raw) [] [] := by
  have hend : (joined c).endPfn = c.endPfn := by
    unfold joined Model.Config.endPfn Config.endPfn
    rw [add_assoc]
  have hinv := @Partition.initPages_inv (joined c) raw ⟨hraw.zero, hraw.outside⟩
  rw [hend] at hinv
  exact ⟨hinv, fun _ _ => rfl, fun _ _ _ hp => absurd hp List.not_mem_nil⟩

theorem freeRange_inv {n a : ℕ} (hlt : a < c.endPfn) (hlo : c.lowPfn ≤ a)
    (h : ZInv c c.lowPfn a c.endPfn s [] []) {o : ℕ}
    (ho : shrinkOrder a c.endPfn (min (MAX_ORDER - 1) (ffs a)) = o) :
    freeRange c (n + 1) s a = freeRange c n (freePages c s a o) (a + 2 ^ o) ∧
      a + 2 ^ o ≤ c.endPfn ∧ 2 ^ o ∣ a ∧ o < MAX_ORDER ∧
      ZInv c c.lowPfn (a + 2 ^ o) c.endPfn s [] [⟨a, o⟩] ∧
      (o = 0 → ¬ (a + 2 ^ o ≤ findBuddyPfn a o ∧ findBuddyPfn a o < c.endPfn)) := by
  obtain ⟨h1, h2, -⟩ := shrinkOrder_spec hlt (min (MAX_ORDER - 1) (ffs a))
  rw [ho] at h1 h2
  have hal : 2 ^ o ∣ a := (pow_dvd_pow 2 (by omega)).trans (ffs_dvd a)
  have hmax : o < MAX_ORDER := by unfold MAX_ORDER at *; omega
  refine ⟨?_, h2, hal, hmax, h.of_inv (h.inv.grow hlo h2 hal hmax), fun hz => ?_⟩
  · rw [freeRange, if_pos hlt, ho]
    dsimp only
    rw [Nat.one_shiftLeft]
  · rw [hz] at ho ⊢
    exact buddy_zero_outside hlt ho

/-! ### Blocks only grow while `memory_init` runs -/

/-- Some listed block, or some block in flight, contains `d`. -/
def Inside (d : Block) (s : State) (fl : List Block) : Prop :=
  ∃ b ∈ freeBlocks (flat s) ++ fl, d.Within b

theorem inside_take {d : Block} {z : Zone} {p o : ℕ} (h : ZInv c lo hi E s held fl)
    (hp : p ∈ s.freeList z o) (hd : Inside d s fl) :
    Inside d (takeBlock s z p o) (⟨p, o⟩ :: fl) := by
  obtain ⟨b, hb, hdb⟩ := hd
  refine ⟨b, ?_, hdb⟩
  rw [flat_takeBlock h hp]
  rcases List.mem_append.mp hb with hb | hb
  · have := (freeBlocks_take h.inv (mem_flat.mpr ⟨z, hp⟩)).mem_iff.mp hb
    rcases List.mem_cons.mp this with rfl | this
    · simp
    · exact List.mem_append_left _ this
  · exact List.mem_append_right _ (List.mem_cons_of_mem _ hb)

theorem inside_merge {d : Block} {p o : ℕ} (hal : 2 ^ o ∣ p)
    (hd : Inside d s [⟨findBuddyPfn p o, o⟩, ⟨p, o⟩]) :
    Inside d s [⟨findBuddyPfn p o &&& p, o + 1⟩] := by
  have hpos : ∀ {b : Block} {q : ℕ}, 0 < b.ind q ↔ b.Covers q := by
    intro b q
    unfold Block.ind
    split_ifs with hq
    · simp [hq]
    · simp [hq]
  obtain ⟨b, hb, hdb⟩ := hd
  rcases List.mem_append.mp hb with hb | hb
  · exact ⟨b, List.mem_append_left _ hb, hdb⟩
  · refine ⟨_, List.mem_append_right _ (List.mem_singleton.mpr rfl), fun q hq => ?_⟩
    have hmerge := ind_merge hal q
    have hcov := hpos.mpr (hdb q hq)
    rw [← hpos]
    unfold findBuddyPfn at hb ⊢
    rw [hmerge]
    rcases List.mem_cons.mp hb with rfl | hb
    · omega
    · rw [List.mem_singleton.mp hb] at hcov
      omega

theorem continueMerging_inside {d : Block} : ∀ (n : ℕ) (s : State) (p o bp : ℕ),
    o + n < MAX_ORDER → ZInv c lo hi E s held [⟨p, o⟩] →
    (o = 0 → ¬ (hi ≤ findBuddyPfn p o ∧ findBuddyPfn p o < E)) → Inside d s [⟨p, o⟩] →
    Inside d (continueMerging c (c.pageZone p) n s p o bp).1
      [⟨(continueMerging c (c.pageZone p) n s p o bp).2.1,
        (continueMerging c (c.pageZone p) n s p o bp).2.2.1⟩]
  | 0, s, p, o, bp, _, _, _, hd => hd
  | n + 1, s, p, o, bp, hn, h, h0, hd => by
    rw [continueMerging]
    dsimp only
    by_cases hb : pageIsBuddy c s p (findBuddyPfn p o) o = true
    · rw [if_pos hb]
      obtain ⟨hmem, hz⟩ := buddy_listed_zone h hb h0
      have hal : 2 ^ o ∣ p := (h.inv.shape ⟨p, o⟩ (by simp)).1
      have htake := h.take hmem
      have hmerge := htake.of_inv (htake.inv.merge (by omega))
      have := continueMerging_inside n _ _ _ (findBuddyPfn p o) (by omega) hmerge (by omega)
        (inside_merge hal (inside_take h hmem hd))
      rw [hz] at this
      exact this
    · rw [if_neg hb]
      exact hd

theorem doneMerging_inside {d : Block} {z : Zone} {p o : ℕ} (bp : ℕ) (ho : o < MAX_ORDER)
    (hd : Inside d s [⟨p, o⟩]) : Inside d (doneMerging c z s p o bp) [] := by
  obtain ⟨b, hb, hdb⟩ := hd
  refine ⟨b, ?_, hdb⟩
  have hlist : ∀ list : List ℕ, p ∈ list → (∀ q ∈ s.freeList z o, q ∈ list) →
      b ∈ freeBlocks (flat (s.setList z o list)) ++ [] := by
    intro list hp hsub
    rw [List.append_nil]
    rcases List.mem_append.mp hb with hb | hb
    · obtain ⟨hlt, hmem⟩ := mem_blocksOf.mp hb
      obtain ⟨z', hz'⟩ := mem_flat.mp hmem
      refine mem_blocksOf.mpr ⟨hlt, mem_flat.mpr ⟨z', ?_⟩⟩
      unfold State.setList
      dsimp only
      by_cases hz : z' = z
      · subst hz
        rw [Function.update_self]
        by_cases hoo : b.order = o
        · rw [hoo, Function.update_self]
          exact hsub _ (hoo ▸ hz')
        · rw [Function.update_of_ne hoo]
          exact hz'
      · rw [Function.update_of_ne hz]
        exact hz'
    · rw [List.mem_singleton.mp hb]
      refine mem_blocksOf.mpr ⟨ho, mem_flat.mpr ⟨z, ?_⟩⟩
      unfold State.setList
      dsimp only
      rw [Function.update_self, Function.update_self]
      exact hp
  have hhead := hlist (p :: s.freeList z o) List.mem_cons_self fun q hq => List.mem_cons_of_mem _ hq
  have htail := hlist (s.freeList z o ++ [p]) (by simp) fun q hq => List.mem_append_left _ hq
  unfold doneMerging
  dsimp only
  split_ifs
  · exact hhead
  · exact htail
  · exact hhead
  · exact hhead

theorem freePages_inside {d : Block} {p o : ℕ} (h : ZInv c lo hi E s held [⟨p, o⟩])
    (h0 : o = 0 → ¬ (hi ≤ findBuddyPfn p o ∧ findBuddyPfn p o < E)) (hd : Inside d s [⟨p, o⟩]) :
    Inside d (freePages c s p o) [] := by
  have ho : o < MAX_ORDER := (h.inv.shape ⟨p, o⟩ (by simp)).2
  have hn : o + (min MAX_ORDER (pageblockOrder + 1) - 1 - o) < MAX_ORDER := by
    unfold MAX_ORDER pageblockOrder at *; omega
  have hm := (continueMerging_inv _ s p o 0 hn h h0).1.inv.shape _
    (List.mem_append_right _ (List.mem_append_right _ List.mem_cons_self))
  exact doneMerging_inside _ hm.2 (continueMerging_inside _ s p o 0 hn h h0 hd)

/-- The cut at `a` contains every aligned block of the range that starts in it. -/
theorem within_cut {a e o p : ℕ} (ha : 0 < a) (ho : o < MAX_ORDER) (hal : 2 ^ o ∣ p)
    (he : p + 2 ^ o ≤ e) {k : ℕ} (hk : shrinkOrder a e (min (MAX_ORDER - 1) (ffs a)) = k)
    (hka : 2 ^ k ∣ a) (h1 : a ≤ p) (h2 : p < a + 2 ^ k) : (Block.mk p o).Within ⟨a, k⟩ := by
  refine within_of_covers hal hka ?_ ⟨h1, h2⟩
  show o ≤ k
  by_contra hlt
  -- a shorter cut starts at `p` itself, where the larger block fits
  obtain rfl : a = p := eq_of_aligned hka ((pow_dvd_pow 2 (by omega)).trans hal) h1 h2
  have hffs := le_ffs ha ho hal
  have := le_shrinkOrder he (k := min (MAX_ORDER - 1) (ffs a)) (by omega)
  omega

/-- **`memory_init`** keeps the invariant, and every aligned block of the range ends inside one listed
block. -/
theorem freeRange_inside : ∀ (n : ℕ) (s : State) (a : ℕ), 0 < a → c.lowPfn ≤ a → a ≤ c.endPfn →
    c.endPfn - a ≤ n → ZInv c c.lowPfn a c.endPfn s [] [] →
    (∀ o < MAX_ORDER, ∀ p, 2 ^ o ∣ p → c.lowPfn ≤ p → p < a → p + 2 ^ o ≤ c.endPfn →
      Inside ⟨p, o⟩ s []) →
    ZInv c c.lowPfn c.endPfn c.endPfn (freeRange c n s a) [] [] ∧
      ∀ o < MAX_ORDER, ∀ p, 2 ^ o ∣ p → c.lowPfn ≤ p → p + 2 ^ o ≤ c.endPfn →
        Inside ⟨p, o⟩ (freeRange c n s a) []
  | 0, s, a, _, _, hE, hn, h, hin => by
    obtain rfl : a = c.endPfn := by omega
    refine ⟨h, fun o ho p hal hlo he => hin o ho p hal hlo ?_ he⟩
    have : 0 < 2 ^ o := by positivity
    omega
  | n + 1, s, a, ha, hlo, hE, hn, h, hin => by
    by_cases hlt : a < c.endPfn
    · generalize ho : shrinkOrder a c.endPfn (min (MAX_ORDER - 1) (ffs a)) = k
      obtain ⟨heq, hend, hal, hmax, hgrow, h0⟩ := freeRange_inv (n := n) hlt hlo h ho
      have hpos : 0 < 2 ^ k := by positivity
      rw [heq]
      refine freeRange_inside n _ _ (by omega) (by omega) hend (by omega) (freePages_inv hgrow h0)
        fun o hoo p halp hlop hpa hpe => ?_
      refine freePages_inside hgrow h0 ?_
      by_cases hp : p < a
      · obtain ⟨b, hb, hdb⟩ := hin o hoo p halp hlop hp hpe
        rw [List.append_nil] at hb
        exact ⟨b, List.mem_append_left _ hb, hdb⟩
      · exact ⟨⟨a, k⟩, by simp, within_cut ha hoo halp hpe ho hal (by omega) hpa⟩
    · have hfree : freeRange c (n + 1) s a = s := by rw [freeRange, if_neg hlt]
      obtain rfl : a = c.endPfn := by omega
      rw [hfree]
      refine ⟨h, fun o ho p hal hlo' he => hin o ho p hal hlo' ?_ he⟩
      have : 0 < 2 ^ o := by positivity
      omega

theorem memoryInit_inside {raw : ℕ → Page} (hraw : Raw c raw) :
    ZInv c c.lowPfn c.endPfn c.endPfn (memoryInit c raw) [] [] ∧
      ∀ o < MAX_ORDER, ∀ p, 2 ^ o ∣ p → c.lowPfn ≤ p → p + 2 ^ o ≤ c.endPfn →
        Inside ⟨p, o⟩ (memoryInit c raw) [] := by
  have hs := lowPfn_eq c
  have he := endPfn_eq c
  have hpos : 0 < c.lowPfn := by
    have h1 := c.offset_pos
    have h2 := Nat.le_of_dvd h1 c.offset_aligned
    unfold Config.lowPfn Model.PFN_UP
    rw [Nat.shiftRight_eq_div_pow]
    exact Nat.div_pos (by unfold PAGE_SIZE Model.PAGE_SHIFT at *; omega) (by positivity)
  refine freeRange_inside _ _ _ hpos le_rfl (by omega) le_rfl (initPages_inv hraw)
    fun o _ p _ hlo hlt _ => ?_
  omega

/-! ### Runs -/

def zoneOf (highmem : Bool) : Zone := if highmem then .highmem else .normal

/-- The block lies in the frames of the zone. -/
def Config.InZone (c : Config) (z : Zone) (b : Block) : Prop :=
  match z with
  | .normal => c.lowPfn ≤ b.head ∧ b.head + 2 ^ b.order ≤ c.lowMaxPfn
  | .highmem => c.lowMaxPfn ≤ b.head ∧ b.head + 2 ^ b.order ≤ c.endPfn

/-- **Confinement**: the blocks on the lists of a zone, and those allocated from it, lie in it. -/
structure Confined (c : Config) (t : System) : Prop where
  listed : ∀ z, ∀ o < MAX_ORDER, ∀ p ∈ t.st.freeList z o, Config.InZone c z ⟨p, o⟩
  allocated : ∀ b ∈ t.held, Config.InZone c (zoneOf b.highmem) b.block

/-- The invariant of a run: the blocks tile the range, and a held block starts in the zone it was
allocated from. -/
structure RunInv (c : Config) (t : System) : Prop where
  zinv : ZInv c c.lowPfn c.endPfn c.endPfn t.st (t.held.map Held.block) []
  held : ∀ b ∈ t.held, c.pageZone b.block.head = zoneOf b.highmem

theorem map_erase_perm {held : List Held} {b : Held} (hb : b ∈ held) :
    ((held.map Held.block).erase b.block).Perm ((held.erase b).map Held.block) := by
  have h1 := (List.perm_cons_erase hb).map Held.block
  have h2 := List.perm_cons_erase (List.mem_map_of_mem (f := Held.block) hb)
  exact (List.perm_cons b.block).mp (h2.symm.trans h1)

theorem step_inv (hns : NoStraddle c) {t t' : System} (h : RunInv c t) (hst : Step c t t') :
    RunInv c t' := by
  obtain ⟨hz, hheld⟩ := h
  cases hst with
  | @alloc s s' held highmem order page ho he =>
    obtain ⟨h1, h2⟩ := (rmqueueLoop_inv hns _ order hz _ order le_rfl).1 page he
    refine ⟨h1, fun b hb => ?_⟩
    rcases List.mem_cons.mp hb with rfl | hb
    · exact h2
    · exact hheld b hb
  | @allocNull s s' held highmem order ho he =>
    rw [(rmqueueLoop_inv hns _ order hz _ order le_rfl).2 he]
    exact ⟨hz, hheld⟩
  | @free s held b hb =>
    have hrel := hz.of_inv (hz.inv.release (List.mem_map_of_mem (f := Held.block) hb))
    have hfree := freePages_inv hrel fun _ => by omega
    refine ⟨?_, fun b' hb' => hheld b' (List.mem_of_mem_erase hb')⟩
    exact hfree.of_inv (hfree.inv.perm_held (map_erase_perm hb))

/-- A block inside the range that does not straddle lies in the zone of its head. -/
theorem inZone {z : Zone} {b : Block} (hns : NoStraddle c) (hal : b.Aligned)
    (ho : b.order < MAX_ORDER) (hlo : c.lowPfn ≤ b.head) (hhi : b.head + 2 ^ b.order ≤ c.endPfn)
    (hz : c.pageZone b.head = z) : Config.InZone c z b := by
  have hno := hns b.order ho b.head hal hlo hhi
  have hpos : 0 < 2 ^ b.order := by positivity
  unfold Config.pageZone at hz
  subst hz
  split_ifs with hge
  · exact ⟨hge, hhi⟩
  · exact ⟨hlo, show b.head + 2 ^ b.order ≤ c.highPfn by omega⟩

theorem RunInv.confined (hns : NoStraddle c) {t : System} (h : RunInv c t) : Confined c t := by
  obtain ⟨hz, hheld⟩ := h
  constructor
  · intro z o ho p hp
    have hmem : (⟨p, o⟩ : Block) ∈ freeBlocks (flat t.st) ++ (t.held.map Held.block ++ []) :=
      List.mem_append_left _ (mem_freeBlocks hz.inv (mem_flat.mpr ⟨z, hp⟩))
    obtain ⟨hlo, hhi⟩ := block_range hz hmem
    exact inZone hns (hz.inv.shape _ hmem).1 ho hlo hhi (hz.zone z o p hp)
  · intro b hb
    have hmem : b.block ∈ freeBlocks (flat t.st) ++ (t.held.map Held.block ++ []) := by
      rw [List.append_nil]
      exact List.mem_append_right _ (List.mem_map_of_mem hb)
    obtain ⟨hlo, hhi⟩ := block_range hz hmem
    obtain ⟨hal, ho⟩ := hz.inv.shape _ hmem
    exact inZone hns hal ho hlo hhi (hheld b hb)

/-- **Zone confinement** holds in every reachable state exactly if no aligned block of the range
crosses `low_max_pfn`. -/
theorem reachable_confined_iff (c : Config) {raw : ℕ → Page} (hraw : Raw c raw) :
    (∀ t, Reachable c raw t → Confined c t) ↔ NoStraddle c := by
  obtain ⟨hinit, hin⟩ := memoryInit_inside hraw
  constructor
  · rintro hconf o ho p hal hlo hhi ⟨h1, h2⟩
    obtain ⟨b, hb, hdb⟩ := hin o ho p hal hlo hhi
    rw [List.append_nil] at hb
    obtain ⟨hbo, hmem⟩ := mem_blocksOf.mp hb
    obtain ⟨z, hz⟩ := mem_flat.mp hmem
    -- the listed block contains the frames on both sides of the border
    have hleft := hdb (c.highPfn - 1) ⟨by simp only; omega, by simp only; omega⟩
    have hright := hdb c.highPfn ⟨by simp only; omega, by simp only; omega⟩
    have hzone := (hconf _ Relation.ReflTransGen.refl).listed z b.order hbo b.head hz
    unfold Block.Covers at hleft hright
    unfold Config.highPfn at h1 hleft hright
    cases z with
    | normal =>
      have : b.head + 2 ^ b.order ≤ c.lowMaxPfn := hzone.2
      omega
    | highmem =>
      have : c.lowMaxPfn ≤ b.head := hzone.1
      omega
  · intro hns t ht
    have hstart : RunInv c ⟨memoryInit c raw, []⟩ := ⟨hinit, fun b hb => absurd hb List.not_mem_nil⟩
    exact (Lib.Run.invariant (I := RunInv c) hstart (fun _ _ => step_inv hns) ht).confined hns

/-- One page of normal memory at `0x8000` and one of high memory above it. -/
def twoPages : Config where
  PHYS_OFFSET := 0x8000
  MEMORY_SIZE := 0x1000
  HIGHMEM_SIZE := 0x1000
  offset_pos := by decide
  offset_aligned := by decide
  size_aligned := by decide
  highmem_aligned := by decide
  no_overflow := by decide

/-- The two pages are one block, which `memory_init` lists in the normal zone. -/
theorem not_confined_twoPages :
    ¬ ∀ t, Reachable twoPages (fun _ => ⟨0, 0⟩) t → Confined twoPages t := by
  intro h
  have hmem : 8 ∈ (memoryInit twoPages fun _ => ⟨0, 0⟩).freeList .normal 1 := by decide +kernel
  have := (h _ Relation.ReflTransGen.refl).listed .normal 1 (by decide) 8 hmem
  exact absurd this.2 (by decide)

/-- One page of normal memory at `0xb000` and five of high memory above it. -/
def oddPages : Config where
  PHYS_OFFSET := 0xb000
  MEMORY_SIZE := 0x1000
  HIGHMEM_SIZE := 0x5000
  offset_pos := by decide
  offset_aligned := by decide
  size_aligned := by decide
  highmem_aligned := by decide
  no_overflow := by decide

theorem noStraddle_oddPages : NoStraddle oddPages := by
  intro o ho p hal hlo hhi hp
  have hlow : oddPages.lowPfn = 11 := by decide
  have hhigh : oddPages.highPfn = 12 := by decide
  rw [hhigh] at hp
  obtain rfl : p = 11 := by omega
  -- the only block that starts there has one page
  have hz : o = 0 := by
    by_contra hne
    have : 2 ∣ 11 := (dvd_pow_self 2 hne).trans hal
    omega
  subst hz
  omega

/-- The zones of these pages right after `memory_init`. -/
theorem reachable_confined_oddPages :
    NoStraddle oddPages ∧ Confined oddPages ⟨memoryInit oddPages fun _ => ⟨0, 0⟩, []⟩ :=
  ⟨noStraddle_oddPages,
    (reachable_confined_iff oddPages ⟨fun _ _ => rfl, fun _ _ => by decide⟩).mpr
      noStraddle_oddPages _ Relation.ReflTransGen.refl⟩

end HardStack.Buddy.HighMem
