import HardStack.Buddy.PcpModel
import HardStack.Buddy.Partition

/-! # Per-cpu pages conserve pages

To the buddy allocator the pages on the pcp list are blocks of order `0` that a caller holds: they
come from `__rmqueue_smallest` or from a caller, and go back through `__free_one_page`. So the
partition invariant of the buddy part is used with the pcp list among the held blocks. -/

namespace HardStack.Buddy.Pcp

open HardStack.Lib.Dyadic HardStack.Buddy.Invariant HardStack.Buddy.Partition
open HardStack.Buddy.Model hiding System Step
open HardStack.Buddy.PcpModel

variable {lo hi E : ℕ} {s : State} {held fl : List Block} {pcp : PerCpuPages}

/-! ### Held blocks -/

/-- Freeing a held block. -/
theorem free_held {b : Block} (h : Inv lo hi hi s (b :: held) []) :
    Inv lo hi hi (freeOnePage s b.head b.order) held [] := by
  have hrel := h.release List.mem_cons_self
  rw [List.erase_cons_head] at hrel
  exact freeOnePage_inv hrel fun _ => by omega

/-- The pages of the pcp list as blocks. -/
def pcpBlocks (list : List ℕ) : List Block := list.map fun p => ⟨p, 0⟩

@[simp] theorem pcpBlocks_cons (p : ℕ) (l : List ℕ) : pcpBlocks (p :: l) = ⟨p, 0⟩ :: pcpBlocks l := rfl

@[simp] theorem pcpBlocks_append (l m : List ℕ) : pcpBlocks (l ++ m) = pcpBlocks l ++ pcpBlocks m :=
  List.map_append

theorem pcpBlocks_perm {l m : List ℕ} (h : l.Perm m) : (pcpBlocks l).Perm (pcpBlocks m) := h.map _

/-- **The invariant.** -/
structure PcpInv (lo hi : ℕ) (s : State) (pcp : PerCpuPages) (held : List Block) : Prop where
  inv : Inv lo hi hi s (pcpBlocks pcp.list ++ held) []
  count : pcp.count = pcp.list.length
  lt : pcp.count < pcp.high
  batch_pos : 1 ≤ pcp.batch
  batch_le : pcp.batch ≤ pcp.high
  high_lt : pcp.high < 2 ^ 31

/-! ### Freeing -/

theorem bulkLoop_append : ∀ (count : ℤ) (l : List ℕ),
    (bulkLoop count l).1 ++ (bulkLoop count l).2 = l
  | _, [] => rfl
  | count, page :: rest => by
    rw [bulkLoop]
    split_ifs with h
    · simp only [List.cons_append, bulkLoop_append (count - 1) rest]
    · rfl

theorem bulkLoop_pos (count : ℤ) {l : List ℕ} (hl : l ≠ []) : 0 < (bulkLoop count l).1.length := by
  cases l with
  | nil => exact absurd rfl hl
  | cons page rest =>
    rw [bulkLoop]
    split_ifs <;> simp

/-- The drained pages go back to the buddy lists one by one. -/
theorem foldl_free_inv : ∀ (head : List ℕ) (s : State), Inv lo hi hi s (pcpBlocks head ++ held) [] →
    Inv lo hi hi (head.foldl (fun s page => freeOnePage s page 0) s) held []
  | [], _, h => h
  | page :: head, _, h => foldl_free_inv head _ (free_held (b := ⟨page, 0⟩) h)

theorem freeUnrefPageCommit_inv {page : ℕ} (h : PcpInv lo hi s pcp (⟨page, 0⟩ :: held)) :
    PcpInv lo hi (freeUnrefPageCommit s pcp page).1 (freeUnrefPageCommit s pcp page).2 held := by
  obtain ⟨hinv, hcount, hlt, hb1, hb2, hh⟩ := h
  have hadd : Inv lo hi hi s (pcpBlocks (page :: pcp.list) ++ held) [] :=
    hinv.perm_held List.perm_middle
  unfold freeUnrefPageCommit
  dsimp only
  split_ifs with hfull
  · unfold freePcppagesBulk
    dsimp only
    have happ := bulkLoop_append pcp.batch (page :: pcp.list).reverse
    have hpos := bulkLoop_pos pcp.batch (l := (page :: pcp.list).reverse) (by simp)
    generalize bulkLoop pcp.batch (page :: pcp.list).reverse = r at happ hpos
    have hlen : r.1.length + r.2.length = pcp.list.length + 1 := by
      rw [← List.length_append, happ, List.length_reverse, List.length_cons]
    have hperm : (page :: pcp.list).Perm (r.1 ++ r.2.reverse) := by
      refine (List.reverse_perm _).symm.trans ?_
      rw [← happ]
      exact (List.reverse_perm _).symm.append_left _
    refine ⟨?_, ?_, ?_, hb1, hb2, hh⟩
    · have hrel := Inv.perm_held hadd ((pcpBlocks_perm hperm).append_right held)
      rw [pcpBlocks_append, List.append_assoc] at hrel
      exact foldl_free_inv r.1 s hrel
    · simp only [List.length_reverse]
      omega
    · show pcp.count + 1 - (r.1.length : ℤ) < pcp.high
      omega
  · refine ⟨hadd, ?_, by simp only; omega, hb1, hb2, hh⟩
    simp only [List.length_cons]
    omega

/-! ### Allocating -/

/-- `__rmqueue_smallest` for a page: it is held afterwards, or nothing changed. -/
theorem rmqueueSmallest_inv (order : ℕ) (h : Inv lo hi E s held []) :
    (∀ page, (rmqueueSmallest s order).2 = some page →
      Inv lo hi E (rmqueueSmallest s order).1 (⟨page, order⟩ :: held) []) ∧
    ((rmqueueSmallest s order).2 = none → (rmqueueSmallest s order).1 = s) := by
  obtain ⟨h1, h2⟩ := @rmqueueLoop_inv lo hi E s held order (rmqueueSmallest s order).1 h
    (MAX_ORDER - order) order le_rfl
  exact ⟨fun page hp => h1 page (Prod.ext rfl hp), fun hn => h2 (Prod.ext rfl hn)⟩

theorem rmqueueBulk_inv : ∀ (count : ℕ) (s : State) (list : List ℕ),
    Inv lo hi E s (pcpBlocks list ++ held) [] →
    Inv lo hi E (rmqueueBulk count s list).1 (pcpBlocks (rmqueueBulk count s list).2.1 ++ held) [] ∧
      (rmqueueBulk count s list).2.1.length = list.length + (rmqueueBulk count s list).2.2 ∧
      (rmqueueBulk count s list).2.2 ≤ count
  | 0, s, list, h => ⟨h, rfl, le_rfl⟩
  | count + 1, s, list, h => by
    obtain ⟨h1, h2⟩ := rmqueueSmallest_inv 0 h
    rw [rmqueueBulk]
    generalize rmqueueSmallest s 0 = r at h1 h2
    obtain ⟨s', page⟩ := r
    cases page with
    | none =>
      obtain rfl : s' = s := h2 rfl
      exact ⟨h, rfl, Nat.zero_le _⟩
    | some page =>
      have hperm : (⟨page, 0⟩ :: (pcpBlocks list ++ held)).Perm
          (pcpBlocks (list ++ [page]) ++ held) := by
        rw [pcpBlocks_append, List.append_assoc]
        exact List.perm_middle.symm
      obtain ⟨h3, h4, h5⟩ := rmqueueBulk_inv count s' (list ++ [page])
        (Inv.perm_held (h1 page rfl) hperm)
      refine ⟨h3, ?_, by simp only; omega⟩
      simp only
      rw [h4, List.length_append, List.length_singleton]
      omega

theorem rmqueuePcplist_inv (h : PcpInv lo hi s pcp held) :
    (∀ page, (rmqueuePcplist s pcp).2.2 = some page →
      PcpInv lo hi (rmqueuePcplist s pcp).1 (rmqueuePcplist s pcp).2.1 (⟨page, 0⟩ :: held)) ∧
    ((rmqueuePcplist s pcp).2.2 = none →
      PcpInv lo hi (rmqueuePcplist s pcp).1 (rmqueuePcplist s pcp).2.1 held) := by
  obtain ⟨hinv, hcount, hlt, hb1, hb2, hh⟩ := h
  unfold rmqueuePcplist
  -- the refilled list: as long as its counter says, and one page short of `high` at least
  by_cases hl : pcp.list = []
  · have hbatch : (toUlong pcp.batch : ℤ) = pcp.batch := by unfold toUlong; omega
    obtain ⟨h1, h2, h3⟩ := rmqueueBulk_inv (toUlong pcp.batch) s pcp.list hinv
    rw [if_pos hl]
    dsimp only
    generalize rmqueueBulk (toUlong pcp.batch) s pcp.list = r at h1 h2 h3
    obtain ⟨s', list, n⟩ := r
    dsimp only at h1 h2 h3 ⊢
    rw [hl, List.length_nil] at h2 hcount
    cases list with
    | nil =>
      refine ⟨fun page hp => (by cases hp), fun _ => ⟨h1, ?_, ?_, hb1, hb2, hh⟩⟩
      · simp only [List.length_nil] at h2 ⊢; omega
      · simp only [List.length_nil] at h2 ⊢; omega
    | cons page list =>
      refine ⟨fun p hp => ?_, fun hn => by cases hn⟩
      cases hp
      rw [List.length_cons] at h2
      refine ⟨Inv.perm_held h1 List.perm_middle.symm, ?_, ?_, hb1, hb2, hh⟩
      · simp only; omega
      · simp only; omega
  · rw [if_neg hl]
    dsimp only
    cases hlist : pcp.list with
    | nil => exact absurd hlist hl
    | cons page list =>
      refine ⟨fun p hp => ?_, fun hn => by cases hn⟩
      cases hp
      rw [hlist] at hinv hcount
      rw [List.length_cons] at hcount
      refine ⟨hinv.perm_held List.perm_middle.symm, ?_, ?_, hb1, hb2, hh⟩
      · simp only; omega
      · simp only; omega

/-! ### Initialisation -/

theorem shrinkOrder_even {a e : ℕ} (h : a < e) (ha : 2 ∣ a) (he : 2 ∣ e) :
    shrinkOrder a e (min (MAX_ORDER - 1) (ffs a)) ≠ 0 := by
  intro h0
  have hf : 0 < ffs a := by
    rcases Nat.eq_zero_or_pos (ffs a) with hf | hf
    · have := odd_of_ffs hf
      omega
    · exact hf
  have hk : 0 < min (MAX_ORDER - 1) (ffs a) := by unfold MAX_ORDER; omega
  have := (shrinkOrder_spec h _).2.2 h0 hk
  omega

/-- With even ends `memory_init` frees no single page, and does what it does without a pcp. -/
theorem freeRange_eq {E : ℕ} (hE : 2 ∣ E) : ∀ (n : ℕ) (s : State) (a : ℕ), 2 ∣ a →
    PcpModel.freeRange E n ⟨s, none⟩ a = some ⟨Model.freeRange E n s a, none⟩
  | 0, s, a, _ => rfl
  | n + 1, s, a, ha => by
    rw [PcpModel.freeRange, Model.freeRange]
    by_cases hlt : a < E
    · have ho := shrinkOrder_even hlt ha hE
      rw [if_pos hlt, if_pos hlt]
      dsimp only
      generalize shrinkOrder a E (min (MAX_ORDER - 1) (ffs a)) = o at ho
      have hdvd : 2 ∣ a + 1 <<< o := by
        rw [Nat.one_shiftLeft]
        exact Nat.dvd_add ha (dvd_pow_self 2 ho)
      unfold PcpModel.freePages freeThePage
      rw [if_neg ho, Option.bind_some]
      exact freeRange_eq hE n _ _ hdvd
    · rw [if_neg hlt, if_neg hlt]

variable {c : Config} {raw : ℕ → Page} {BATCH_SIZE : ℕ}

theorem memoryInit_eq (hs : 2 ∣ c.startPfn) (he : 2 ∣ c.endPfn) (BATCH_SIZE : ℕ) :
    PcpModel.memoryInit c BATCH_SIZE raw =
      some ⟨Model.memoryInit c raw, some (pagesetInit BATCH_SIZE)⟩ := by
  unfold PcpModel.memoryInit
  rw [freeRange_eq he _ _ _ hs]
  rfl

theorem memoryInit_inv (hraw : Raw c raw) (hs : 2 ∣ c.startPfn) (he : 2 ∣ c.endPfn)
    (hb : 1 ≤ BATCH_SIZE) (hmax : 6 * BATCH_SIZE < 2 ^ 31) :
    ∃ s pcp, PcpModel.memoryInit c BATCH_SIZE raw = some ⟨s, some pcp⟩ ∧
      PcpInv c.startPfn c.endPfn s pcp [] := by
  have hint : ∀ x : ℕ, x < 2 ^ 31 → toInt x = x := by
    intro x hx
    unfold toInt
    rw [Int.bmod_def]
    omega
  have hhigh : (pagesetInit BATCH_SIZE).high = 6 * BATCH_SIZE := by
    unfold pagesetInit
    rw [hint _ hmax]
    push_cast
    rfl
  have hbatch : (pagesetInit BATCH_SIZE).batch = BATCH_SIZE := by
    unfold pagesetInit
    simp only [max_eq_right hb]
    exact hint _ (by omega)
  have hcount : (pagesetInit BATCH_SIZE).count = 0 := rfl
  refine ⟨Model.memoryInit c raw, pagesetInit BATCH_SIZE, memoryInit_eq hs he BATCH_SIZE,
    Partition.memoryInit_inv hraw, rfl, ?_, ?_, ?_, ?_⟩
  · omega
  · omega
  · omega
  · omega

/-! ### Single pages during the initialisation -/

/-- An odd end: the last page is freed alone. -/
theorem freeRange_odd {E : ℕ} (hE : ¬ 2 ∣ E) : ∀ (n : ℕ) (s : State) (a : ℕ), a < E → E - a ≤ n →
    PcpModel.freeRange E n ⟨s, none⟩ a = none
  | 0, s, a, h1, hn => by omega
  | n + 1, s, a, h1, hn => by
    obtain ⟨hle, hfit, -⟩ := shrinkOrder_spec h1 (min (MAX_ORDER - 1) (ffs a))
    have hal := (pow_dvd_pow 2 (hle.trans (min_le_right _ _))).trans (ffs_dvd a)
    rw [PcpModel.freeRange, if_pos h1]
    dsimp only
    generalize shrinkOrder a E (min (MAX_ORDER - 1) (ffs a)) = o at hfit hal
    unfold PcpModel.freePages freeThePage
    by_cases h0 : o = 0
    · rw [if_pos h0]
      rfl
    · have hd : 2 ∣ 2 ^ o := dvd_pow_self 2 h0
      have hpos : 0 < 2 ^ o := by positivity
      have hne : a + 2 ^ o ≠ E := by
        rintro rfl
        exact hE (Nat.dvd_add (hd.trans hal) hd)
      rw [if_neg h0, Option.bind_some, Nat.one_shiftLeft]
      exact freeRange_odd hE n _ _ (by omega) (by omega)

/-- An odd start: the first page is freed alone. -/
theorem freeRange_odd_start {E a n : ℕ} (ha : ¬ 2 ∣ a) (h1 : a < E) (hn : E - a ≤ n) (s : State) :
    PcpModel.freeRange E n ⟨s, none⟩ a = none := by
  obtain ⟨n, rfl⟩ : ∃ n', n = n' + 1 := ⟨n - 1, by omega⟩
  have hf : ffs a = 0 := by
    by_contra hf
    exact ha ((dvd_pow_self 2 hf).trans (ffs_dvd a))
  rw [PcpModel.freeRange, if_pos h1, hf, Nat.min_zero]
  rfl

/-- `memory_init` returns, and every page of the range is in one free block or on the pcp list. -/
def SafeInit (c : Config) (BATCH_SIZE : ℕ) (raw : ℕ → Page) : Prop :=
  ∃ z pcp, PcpModel.memoryInit c BATCH_SIZE raw = some z ∧ z.pcp = some pcp ∧
    Partition c.startPfn c.endPfn (freeBlocks z.st ++ pcpBlocks pcp.list)

/-- **`memory_init` is safe** exactly if the range is empty or both of its ends are even. -/
theorem safeInit_iff (c : Config) {raw : ℕ → Page} (hraw : Raw c raw) (BATCH_SIZE : ℕ) :
    SafeInit c BATCH_SIZE raw ↔ c.endPfn ≤ c.startPfn ∨ 2 ∣ c.startPfn ∧ 2 ∣ c.endPfn := by
  have htiles := (Partition.memoryInit_inv hraw).tiles
  simp only [List.append_nil] at htiles
  constructor
  · rintro ⟨z, pcp, hz, -, -⟩
    by_contra hno
    rw [not_or, not_and_or] at hno
    obtain ⟨hlt, hodd⟩ := hno
    have hnone : PcpModel.freeRange c.endPfn (c.endPfn - c.startPfn) ⟨initPages c raw, none⟩ c.startPfn =
        none := by
      rcases hodd with hs | he
      · exact freeRange_odd_start hs (not_le.mp hlt) le_rfl _
      · exact freeRange_odd he _ _ _ (not_le.mp hlt) le_rfl
    unfold PcpModel.memoryInit at hz
    rw [hnone] at hz
    cases hz
  · rintro (hle | ⟨hs, he⟩)
    · have hzero : c.endPfn - c.startPfn = 0 := by omega
      refine ⟨⟨Model.memoryInit c raw, some (pagesetInit BATCH_SIZE)⟩, _, ?_, rfl, ?_⟩
      · unfold PcpModel.memoryInit Model.memoryInit
        rw [hzero]
        rfl
      · exact (htiles.perm (by simp [pagesetInit, pcpBlocks])).partition
    · refine ⟨_, _, memoryInit_eq hs he BATCH_SIZE, rfl, ?_⟩
      exact (htiles.perm (by simp [pagesetInit, pcpBlocks])).partition

/-- Seven pages at `0x3000`. -/
theorem safeInit_iff_sevenPages : Raw sevenPages (fun _ => ⟨0, 0⟩) ∧
    (SafeInit sevenPages 2 (fun _ => ⟨0, 0⟩) ↔ sevenPages.endPfn ≤ sevenPages.startPfn ∨
      2 ∣ sevenPages.startPfn ∧ 2 ∣ sevenPages.endPfn) := by
  have hraw : Raw sevenPages fun _ => ⟨0, 0⟩ := ⟨fun _ _ => rfl, fun _ _ => by decide⟩
  exact ⟨hraw, safeInit_iff sevenPages hraw 2⟩

/-- The page at `0x3000` is freed alone, through a pcp that is not there yet. -/
theorem not_safeInit_sevenPages : ¬ SafeInit sevenPages 2 (fun _ => ⟨0, 0⟩) := by
  rintro ⟨z, pcp, hz, -, -⟩
  unfold PcpModel.memoryInit at hz
  rw [freeRange_odd_start (by decide) (by decide) le_rfl] at hz
  cases hz

/-! ### Runs -/

/-- The invariant of a run. -/
def SysInv (lo hi : ℕ) (t : System) : Prop :=
  ∃ s pcp, t.zone = ⟨s, some pcp⟩ ∧ PcpInv lo hi s pcp t.held

theorem step_sysInv {t t' : System} (h : SysInv lo hi t) (hst : Step t t') : SysInv lo hi t' := by
  obtain ⟨s, pcp, hz, hp⟩ := h
  cases hst with
  | @alloc z z' held order page ho he =>
    obtain rfl : z = ⟨s, some pcp⟩ := hz
    unfold PcpModel.allocPages at he
    split_ifs at he with h0
    · simp only [Option.map_some, Option.some.injEq, Prod.mk.injEq] at he
      obtain ⟨rfl, hpage⟩ := he
      rw [h0]
      exact ⟨_, _, rfl, (rmqueuePcplist_inv hp).1 page hpage⟩
    · simp only [Option.some.injEq, Prod.mk.injEq] at he
      obtain ⟨rfl, hpage⟩ := he
      have hinv := (rmqueueSmallest_inv _ hp.inv).1 page hpage
      exact ⟨_, pcp, rfl, hinv.perm_held List.perm_middle.symm, hp.count, hp.lt, hp.batch_pos,
        hp.batch_le, hp.high_lt⟩
  | @allocNull z z' held order ho he =>
    obtain rfl : z = ⟨s, some pcp⟩ := hz
    unfold PcpModel.allocPages at he
    split_ifs at he with h0
    · simp only [Option.map_some, Option.some.injEq, Prod.mk.injEq] at he
      obtain ⟨rfl, hpage⟩ := he
      exact ⟨_, _, rfl, (rmqueuePcplist_inv hp).2 hpage⟩
    · simp only [Option.some.injEq, Prod.mk.injEq] at he
      obtain ⟨rfl, hpage⟩ := he
      rw [(rmqueueSmallest_inv _ hp.inv).2 hpage]
      exact ⟨s, pcp, rfl, hp⟩
  | @free z z' held b hb he =>
    obtain rfl : z = ⟨s, some pcp⟩ := hz
    have hperm : (pcpBlocks pcp.list ++ held).Perm (b :: (pcpBlocks pcp.list ++ held.erase b)) :=
      ((List.perm_cons_erase hb).append_left _).trans List.perm_middle
    unfold PcpModel.freePages freeThePage at he
    split_ifs at he with h0
    · simp only [Option.map_some, Option.some.injEq] at he
      subst he
      obtain ⟨head, order⟩ := b
      obtain rfl : order = 0 := h0
      have hinv := Inv.perm_held hp.inv (hperm.trans List.perm_middle.symm)
      exact ⟨_, _, rfl, freeUnrefPageCommit_inv ⟨hinv, hp.count, hp.lt, hp.batch_pos, hp.batch_le,
        hp.high_lt⟩⟩
    · simp only [Option.some.injEq] at he
      subst he
      exact ⟨_, pcp, rfl, free_held (Inv.perm_held hp.inv hperm), hp.count, hp.lt, hp.batch_pos,
        hp.batch_le, hp.high_lt⟩

/-- What a caller can rely on: the free blocks, the pages of the pcp list and the held blocks partition
the range; the counter of the pcp list is its length and below the watermark; none of its pages is
marked; and every call returns. -/
structure Conserved (lo hi : ℕ) (t : System) : Prop where
  pcp : ∃ pcp, t.zone.pcp = some pcp ∧
    Partition lo hi (freeBlocks t.zone.st ++ (pcpBlocks pcp.list ++ t.held)) ∧
    pcp.count = pcp.list.length ∧ 0 ≤ pcp.count ∧ pcp.count < pcp.high ∧
    ∀ p ∈ pcp.list, PageBuddy (t.zone.st.page p) = false
  alloc : ∀ order, (PcpModel.allocPages t.zone order).isSome
  free : ∀ b ∈ t.held, (PcpModel.freePages t.zone b.head b.order).isSome

theorem SysInv.conserved {t : System} (h : SysInv lo hi t) : Conserved lo hi t := by
  obtain ⟨⟨s, pcp'⟩, held⟩ := t
  obtain ⟨s', pcp, hz, hp⟩ := h
  cases hz
  have htiles := hp.inv.tiles
  refine ⟨⟨pcp, rfl, ?_, hp.count, ?_, hp.lt, fun p hmem => ?_⟩, fun order => ?_, fun b hb => ?_⟩
  · rw [List.append_nil] at htiles
    exact htiles.partition
  · rw [hp.count]
    omega
  · have hblock : (⟨p, 0⟩ : Block) ∈ pcpBlocks pcp.list ++ held :=
      List.mem_append_left _ (List.mem_map.mpr ⟨p, hmem, rfl⟩)
    by_contra hbuddy
    rw [Bool.not_eq_false] at hbuddy
    obtain ⟨-, -, hlist | ⟨-, hst⟩⟩ := hp.inv.stale p hbuddy
    · -- a listed page is not in a held block
      exact htiles.not_both (mem_freeBlocks hp.inv hlist) (List.mem_append_left _ hblock)
        (Block.covers_head ⟨p, _⟩) (Block.covers_head ⟨p, 0⟩)
    · exact hst _ hblock rfl
  · unfold PcpModel.allocPages
    split_ifs <;> rfl
  · unfold PcpModel.freePages freeThePage
    split_ifs <;> rfl

/-- **Per-cpu pages conserve pages.** With even ends of the range and a batch whose watermark is an
`int`, `memory_init` returns, and every state of a run from there is conserved. -/
theorem reachable_conserved (c : Config) {raw : ℕ → Page} (hraw : Raw c raw) (hs : 2 ∣ c.startPfn)
    (he : 2 ∣ c.endPfn) {BATCH_SIZE : ℕ} (hb : 1 ≤ BATCH_SIZE) (hmax : 6 * BATCH_SIZE < 2 ^ 31) :
    ∃ z, PcpModel.memoryInit c BATCH_SIZE raw = some z ∧
      ∀ t, Relation.ReflTransGen Step ⟨z, []⟩ t → Conserved c.startPfn c.endPfn t := by
  obtain ⟨s, pcp, heq, hinv⟩ := memoryInit_inv hraw hs he hb hmax
  refine ⟨_, heq, fun t h => ?_⟩
  exact (Lib.Run.invariant (I := SysInv c.startPfn c.endPfn) ⟨s, pcp, rfl, hinv⟩
    (fun _ _ => step_sysInv) h).conserved

/-- Six pages from `0x2000`. -/
def sixPages : Config where
  PHYS_OFFSET := 0x2000
  MEMORY_SIZE := 0x6000
  offset_pos := by decide
  offset_aligned := by decide
  size_aligned := by decide
  no_overflow := by decide

/-- The six pages with batches of two. -/
theorem reachable_conserved_sixPages :
    ∃ z, PcpModel.memoryInit sixPages 2 (fun _ => ⟨0, 0⟩) = some z ∧
      ∀ t, Relation.ReflTransGen Step ⟨z, []⟩ t → Conserved sixPages.startPfn sixPages.endPfn t :=
  reachable_conserved sixPages ⟨fun _ _ => rfl, fun _ _ => by decide⟩ (by decide) (by decide)
    (by decide) (by decide)

/-- With a batch of `2 ^ 30` the watermark `6 * BATCH_SIZE` is negative as an `int`. -/
theorem not_conserved_large_batch :
    ∃ z, PcpModel.memoryInit sixPages (2 ^ 30) (fun _ => ⟨0, 0⟩) = some z ∧
      ¬ Conserved sixPages.startPfn sixPages.endPfn ⟨z, []⟩ := by
  refine ⟨_, memoryInit_eq (by decide) (by decide) _, fun h => ?_⟩
  obtain ⟨pcp, hpcp, -, -, -, hlt, -⟩ := h.pcp
  have hp : pagesetInit (2 ^ 30) = pcp := Option.some.inj hpcp
  rw [← hp] at hlt
  exact absurd hlt (by decide +kernel)

end HardStack.Buddy.Pcp
