import HardStack.PagePool.Model

/-! # What the pool keeps

`alloc_phys` marks `index + 1` bits from `index` on, `free_phys` marks bits as well, and a full bitmap
is not told from one with a free bit. All goes well for one allocation. -/

namespace HardStack.PagePool.Run

open HardStack.PagePool.Model

variable {MAX_PAGES : ℕ} {σ : System} {addr : ℕ}

/-- The page frame of a bit. -/
def frame (i : ℕ) : ℕ := PFNPOOL_BASE / PAGE_SIZE + i

/-- A page is held while an address maps it. -/
def Held (σ : System) (pfn : ℕ) : Prop := ∃ addr, σ.pte addr = some pfn

/-- **The bitmap tells what is held**: below `MAX_BITS` a bit is set iff its page is held, and no bit
from there on has been set. -/
def Marks (MAX_PAGES : ℕ) (σ : System) : Prop :=
  (∀ i < MAX_BITS MAX_PAGES, σ.bitmap i = true ↔ Held σ (frame i)) ∧
    ∀ i, MAX_BITS MAX_PAGES ≤ i → σ.bitmap i = false

/-- **What a call promises**: a page that is free, or `-ENOMEM` iff there is none. -/
def Promised (MAX_PAGES : ℕ) (σ : System) : Call → Prop
  | .fault addr =>
    ((mapPte MAX_PAGES σ addr).2 = -ENOMEM ↔ ∀ i < MAX_PAGES, Held σ (frame i)) ∧
    ((mapPte MAX_PAGES σ addr).2 ≠ -ENOMEM → ∃ i < MAX_PAGES, ¬ Held σ (frame i) ∧
      (mapPte MAX_PAGES σ addr).1.pte addr = some (frame i))
  | .unmap _ => True

/-- Every call of a run keeps its promise, and the bitmap tells what is held all along. -/
def Good (MAX_PAGES : ℕ) : List Call → System → Prop
  | [], σ => Marks MAX_PAGES σ
  | call :: calls, σ => Marks MAX_PAGES σ ∧ Promised MAX_PAGES σ call ∧
      Good MAX_PAGES calls (call.exec MAX_PAGES σ)

theorem Good.marks : ∀ {calls : List Call} {σ : System}, Good MAX_PAGES calls σ → Marks MAX_PAGES σ
  | [], _, h => h
  | _ :: _, _, h => h.1

/-! ### The first two calls -/

theorem mapPte_eq (σ : System) (addr : ℕ) : mapPte MAX_PAGES σ addr =
    (let index := findFirstZeroBit σ.bitmap (MAX_BITS MAX_PAGES)
    (⟨bitmapSet σ.bitmap index (index + 1), Function.update σ.pte addr
      (some ((PFNPOOL_BASE + index * PAGE_SIZE) % 2 ^ 64 / 2 ^ PAGE_SHIFT))⟩, 0)) := by
  unfold mapPte allocPhys
  dsimp only
  rw [if_pos (Int.natCast_nonneg _)]
  exact if_neg (Nat.not_lt_zero _)

theorem frame_eq {i : ℕ} (h : i ≤ 1) :
    (PFNPOOL_BASE + i * PAGE_SIZE) % 2 ^ 64 / 2 ^ PAGE_SHIFT = frame i := by
  unfold frame PAGE_SIZE PFNPOOL_BASE PAGE_SHIFT
  omega

theorem frame_inj {i j : ℕ} : frame i = frame j ↔ i = j := Nat.add_left_cancel_iff

theorem index_frame_zero : (frame 0 * 2 ^ PAGE_SHIFT - PFNPOOL_BASE) / 2 ^ PAGE_SHIFT = 0 := by
  unfold frame PAGE_SIZE PFNPOOL_BASE PAGE_SHIFT
  norm_num

theorem exec_fault : (Call.fault addr).exec MAX_PAGES σ = (mapPte MAX_PAGES σ addr).1 := by
  rw [Call.exec]

theorem not_held_init {pfn : ℕ} : ¬ Held init pfn := by
  rintro ⟨addr, h⟩
  cases h

theorem marks_init : Marks MAX_PAGES init :=
  ⟨fun _ _ => iff_of_false Bool.false_ne_true not_held_init, fun _ _ => rfl⟩

/-- The state after the first fault. -/
def once (addr : ℕ) : System :=
  ⟨bitmapSet (fun _ => false) 0 1, Function.update (fun _ => none) addr (some (frame 0))⟩

theorem once_pte_self : (once addr).pte addr = some (frame 0) := by
  show Function.update (fun _ => none) addr (some (frame 0)) addr = _
  rw [Function.update_self]

theorem once_pte_of_ne {a : ℕ} (h : a ≠ addr) : (once addr).pte a = none := by
  show Function.update (fun _ => none) addr (some (frame 0)) a = _
  rw [Function.update_of_ne h]

theorem mapPte_init : mapPte MAX_PAGES init addr = (once addr, 0) := by
  have hindex : findFirstZeroBit init.bitmap (MAX_BITS MAX_PAGES) = 0 := by
    refine Lib.Bitmap.next_eq le_rfl (Nat.zero_le _) (fun i _ h => absurd h (Nat.not_lt_zero i)) ?_
    exact fun _ => rfl
  rw [mapPte_eq]
  dsimp only
  rw [hindex, frame_eq (Nat.zero_le 1)]
  rfl

theorem held_once {pfn : ℕ} : Held (once addr) pfn ↔ pfn = frame 0 := by
  constructor
  · rintro ⟨a, ha⟩
    by_cases hne : a = addr
    · rw [hne, once_pte_self] at ha
      exact (Option.some.inj ha).symm
    · rw [once_pte_of_ne hne] at ha
      cases ha
  · rintro rfl
    exact ⟨addr, once_pte_self⟩

theorem bitmap_once {i : ℕ} : (once addr).bitmap i = true ↔ i = 0 := by
  unfold once bitmapSet
  dsimp only
  rw [Bool.or_false, decide_eq_true_eq]
  omega

theorem marks_once (hpos : 0 < MAX_PAGES) : Marks MAX_PAGES (once addr) := by
  refine ⟨fun i _ => ?_, fun i hi => ?_⟩
  · rw [bitmap_once, held_once]
    unfold frame
    omega
  · rw [← Bool.not_eq_true, bitmap_once]
    unfold MAX_BITS at hi
    omega

theorem promised_init (hpos : 0 < MAX_PAGES) : Promised MAX_PAGES init (.fault addr) := by
  unfold Promised
  dsimp only
  rw [mapPte_init]
  have hok : (0 : ℤ) ≠ -ENOMEM := by
    unfold ENOMEM
    decide
  exact ⟨iff_of_false hok fun h => not_held_init (h 0 hpos),
    fun _ => ⟨0, hpos, not_held_init, once_pte_self⟩⟩

/-- **A second call** leaves a bit set whose page nobody holds. -/
theorem not_marks_twice (hpos : 0 < MAX_PAGES) {call : Call} (hallowed : call.Allowed (once addr)) :
    ¬ Marks MAX_PAGES (call.exec MAX_PAGES (once addr)) := by
  rintro ⟨hheld, habove⟩
  cases call with
  | fault a =>
    have hindex : findFirstZeroBit (once addr).bitmap (MAX_BITS MAX_PAGES) = 1 := by
      refine Lib.Bitmap.next_eq (Nat.zero_le _) hpos (fun i _ h => ?_) fun _ => ?_
      · rw [show i = 0 by omega, bitmap_once.mpr rfl]
        rfl
      · rw [show (once addr).bitmap 1 = false from Bool.eq_false_iff.mpr (mt bitmap_once.mp one_ne_zero)]
        rfl
    have hmap := @mapPte_eq MAX_PAGES (once addr) a
    dsimp only at hmap
    rw [hindex, frame_eq le_rfl] at hmap
    have hexec := (@exec_fault MAX_PAGES (once addr) a).trans (congrArg Prod.fst hmap)
    rw [hexec] at hheld habove
    have hbit : bitmapSet (once addr).bitmap 1 2 2 = true := rfl
    by_cases h2 : 2 < MAX_BITS MAX_PAGES
    · obtain ⟨b, hb⟩ := (hheld 2 h2).mp hbit
      dsimp only at hb
      by_cases hba : b = a
      · rw [hba, Function.update_self] at hb
        exact absurd (frame_inj.mp (Option.some.inj hb)) (by decide)
      · rw [Function.update_of_ne hba] at hb
        exact absurd (frame_inj.mp (held_once.mp ⟨b, hb⟩)) (by decide)
    · exact absurd (hbit.symm.trans (habove 2 (not_lt.mp h2))) (by decide)
  | unmap a =>
    have ha : a = addr := by
      by_contra hne
      exact hallowed (once_pte_of_ne hne)
    have hexec : (Call.unmap a).exec MAX_PAGES (once addr) =
        ⟨freePhys (once addr).bitmap (frame 0 * 2 ^ PAGE_SHIFT),
          Function.update (once addr).pte addr none⟩ := by
      rw [ha]
      unfold Call.exec unmapPte
      dsimp only
      rw [once_pte_self]
    rw [hexec] at hheld
    have hbit : freePhys (once addr).bitmap (frame 0 * 2 ^ PAGE_SHIFT) 0 = true := by
      unfold freePhys
      rw [index_frame_zero]
      rfl
    obtain ⟨b, hb⟩ := (hheld 0 hpos).mp hbit
    dsimp only at hb
    by_cases hba : b = addr
    · rw [hba, Function.update_self] at hb
      cases hb
    · rw [Function.update_of_ne hba] at hb
      rw [once_pte_of_ne hba] at hb
      cases hb

/-- **Exactly the runs of at most one call** keep what the pool promises. -/
theorem good_iff (hpos : 0 < MAX_PAGES) {calls : List Call} (hvalid : Valid MAX_PAGES calls init) :
    Good MAX_PAGES calls init ↔ calls.length ≤ 1 := by
  rcases calls with _ | ⟨call, calls⟩
  · exact iff_of_true marks_init (Nat.zero_le 1)
  · obtain ⟨hallowed, hvalid⟩ := hvalid
    obtain ⟨addr, rfl⟩ : ∃ addr, call = .fault addr := by
      cases call with
      | fault addr => exact ⟨addr, rfl⟩
      | unmap addr => exact absurd rfl hallowed
    have hexec : (Call.fault addr).exec MAX_PAGES init = once addr :=
      exec_fault.trans (congrArg Prod.fst mapPte_init)
    rw [hexec] at hvalid
    show Marks MAX_PAGES init ∧ Promised MAX_PAGES init (.fault addr) ∧
      Good MAX_PAGES calls ((Call.fault addr).exec MAX_PAGES init) ↔ _
    rw [hexec]
    rcases calls with _ | ⟨second, calls⟩
    · exact iff_of_true ⟨marks_init, promised_init hpos, marks_once hpos⟩ le_rfl
    · refine iff_of_false (fun h => not_marks_twice hpos hvalid.1 h.2.2.2.2.marks) ?_
      simp

theorem good_iff_oneFault : Valid 64 [.fault 4096] init ∧
    (Good 64 [.fault 4096] init ↔ [Call.fault 4096].length ≤ 1) :=
  ⟨⟨rfl, trivial⟩, good_iff (by decide) ⟨rfl, trivial⟩⟩

/-- Two pages are faulted in. -/
theorem not_good_two (hpos : 0 < MAX_PAGES) {a : ℕ} (hne : a ≠ addr) :
    Valid MAX_PAGES [.fault addr, .fault a] init ∧ ¬ Good MAX_PAGES [.fault addr, .fault a] init := by
  have hexec : (Call.fault addr).exec MAX_PAGES init = once addr :=
    exec_fault.trans (congrArg Prod.fst mapPte_init)
  have hallowed : (Call.fault a).Allowed (once addr) := once_pte_of_ne hne
  constructor
  · refine ⟨rfl, ?_, trivial⟩
    rw [hexec]
    exact hallowed
  · rintro ⟨-, -, h⟩
    rw [hexec] at h
    exact not_marks_twice hpos hallowed h.2.2.marks

theorem not_good_twoFaults : Valid 64 [.fault 4096, .fault 8192] init ∧
    ¬ Good 64 [.fault 4096, .fault 8192] init :=
  not_good_two (by decide) (by decide)

end HardStack.PagePool.Run
