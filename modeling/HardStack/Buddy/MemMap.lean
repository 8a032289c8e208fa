import HardStack.Buddy.Partition

/-! # The page table and the blocks that are handed out

`memory_init` puts `mem_map` at the start of the very buffer whose pages it frees. A block and the
table are ranges of addresses of that buffer: `page_address` leads from the pfn to the offset in the
buffer, and `mem_map` has one entry for each page. The frames under the table are ordinary pages to
the allocator, so that a run keeps off the table exactly as long as the first free block that each
call finds lies behind it (`Careful`). -/

namespace HardStack.Buddy.MemMap

open HardStack.Lib.Dyadic HardStack.Buddy.Model HardStack.Buddy.Invariant HardStack.Buddy.Partition

/-! ### Addresses -/

/-- `sizeof(struct page)` under `-m32`: `page_type`, `private` and the two pointers of `lru`. -/
def sizeofPage : ℕ := 16

def PFN_PHYS (x : ℕ) : ℕ := x <<< PAGE_SHIFT

variable (c : Config) (memory : ℕ)

/-- `phys_to_virt`, with `memory` the address of the buffer. -/
def physToVirt (x : ℕ) : ℕ := (x - c.PHYS_OFFSET) + memory

/-- `page_address`, through `lowmem_page_address` and `page_to_virt`. -/
def pageAddress (page : ℕ) : ℕ := physToVirt c memory (PFN_PHYS page)

/-- The bytes of a block. -/
def blockBytes (b : Block) : Set ℕ :=
  {a | pageAddress c memory b.head ≤ a ∧ a < pageAddress c memory b.head + PAGE_SIZE <<< b.order}

/-- The bytes of `mem_map[0 .. nr_pages - 1]`. -/
def memMapBytes : Set ℕ := {a | memory ≤ a ∧ a < memory + c.nrPages * sizeofPage}

/-- No block that a caller holds meets the page table. -/
def TableSafe (t : System) : Prop :=
  ∀ b ∈ t.held, Disjoint (blockBytes c memory b) (memMapBytes c memory)

/-- The first frame behind the table. -/
def tableEnd : ℕ := PFN_UP (c.PHYS_OFFSET + c.nrPages * sizeofPage)

variable {c memory} {lo hi : ℕ} {raw : ℕ → Page}

theorem pageAddress_eq (memory : ℕ) {page : ℕ} (h : c.PFN_OFFSET ≤ page) :
    pageAddress c memory page = memory + (page - c.PFN_OFFSET) * PAGE_SIZE := by
  obtain ⟨k, hk⟩ := c.offset_aligned
  simp only [pageAddress, physToVirt, PFN_PHYS, Config.PFN_OFFSET, PHYS_PFN, PAGE_SIZE, PAGE_SHIFT,
    Nat.shiftRight_eq_div_pow, Nat.shiftLeft_eq] at hk h ⊢
  omega

theorem tableEnd_eq (c : Config) :
    tableEnd c = c.PFN_OFFSET + (c.nrPages * sizeofPage + (PAGE_SIZE - 1)) / PAGE_SIZE := by
  obtain ⟨k, hk⟩ := c.offset_aligned
  simp only [tableEnd, Config.PFN_OFFSET, PFN_UP, PHYS_PFN, PAGE_SIZE, PAGE_SHIFT,
    Nat.shiftRight_eq_div_pow, Nat.one_shiftLeft] at hk ⊢
  omega

/-- A block of the range keeps off the table exactly if it starts behind it. -/
theorem disjoint_iff (memory : ℕ) {b : Block} (h : c.PFN_OFFSET ≤ b.head) :
    Disjoint (blockBytes c memory b) (memMapBytes c memory) ↔ tableEnd c ≤ b.head := by
  have hadd := pageAddress_eq memory h
  have hend := tableEnd_eq c
  have hpos : 0 < PAGE_SIZE <<< b.order := by
    rw [Nat.shiftLeft_eq]
    exact Nat.mul_pos (by decide) (by positivity)
  rw [show PAGE_SIZE = 4096 from rfl] at hadd hend
  rw [Set.disjoint_left]
  constructor
  · intro hdis
    by_contra hlt
    -- the first byte of the block belongs to the table
    refine hdis (a := pageAddress c memory b.head) ⟨le_rfl, by omega⟩ ⟨by omega, ?_⟩
    omega
  · rintro hle a ⟨h1, -⟩ ⟨-, h2⟩
    omega

/-! ### The block a call finds -/

/-- The first entry of the first list from `order` on that is not empty. -/
def firstFree (s : State) (order : ℕ) : Option ℕ :=
  (List.range' order (MAX_ORDER - order)).findSome? fun o => (s.freeList o).head?

theorem rmqueueLoop_snd (order : ℕ) (s : State) : ∀ n cur, (rmqueueLoop order n s cur).2 =
    (List.range' cur n).findSome? fun o => (s.freeList o).head?
  | 0, _ => rfl
  | n + 1, cur => by
    rw [rmqueueLoop, List.range'_succ, List.findSome?_cons]
    cases h : s.freeList cur with
    | nil => simpa only [List.head?_nil] using rmqueueLoop_snd order s n (cur + 1)
    | cons page rest => rfl

/-- **The block handed out** is the first free one. -/
theorem allocPages_snd (s : State) (order : ℕ) : (allocPages s order).2 = firstFree s order :=
  rmqueueLoop_snd order s _ _

/-! ### Calls -/

/-- A call of the interface: `__alloc_pages`, or `__free_pages` of a block with its order. -/
inductive Call
  | alloc (order : ℕ)
  | free (b : Block)

namespace Call

/-- The order is one of the allocator, and a block that is freed is held. -/
def Valid (t : System) : Call → Prop
  | alloc order => order < MAX_ORDER
  | free b => b ∈ t.held

def exec (t : System) : Call → System
  | alloc order =>
    ⟨(allocPages t.st order).1, ((allocPages t.st order).2.map fun page => ⟨page, order⟩).toList ++
      t.held⟩
  | free b => ⟨freePages t.st b.head b.order, t.held.erase b⟩

/-- The first free block that an allocation finds lies behind the page table. -/
def Careful (c : Config) (t : System) : Call → Prop
  | alloc order => ∀ page, firstFree t.st order = some page → tableEnd c ≤ page
  | free _ => True

end Call

/-- Every call of the run satisfies `P` in the state it is made in. -/
def Calls (P : System → Call → Prop) : System → List Call → Prop
  | _, [] => True
  | t, call :: calls => P t call ∧ Calls P (call.exec t) calls

/-- The states of the run, the one it starts in included. -/
def states (t : System) : List Call → List System
  | [] => [t]
  | call :: calls => t :: states (call.exec t) calls

/-- `memory_init`, before the first call. -/
def start (c : Config) (raw : ℕ → Page) : System := ⟨memoryInit c raw, []⟩

theorem start_inv (hraw : Raw c raw) :
    Inv c.startPfn c.endPfn c.endPfn (start c raw).st (start c raw).held [] := memoryInit_inv hraw

theorem Call.step {t : System} {call : Call} (h : call.Valid t) : Step t (call.exec t) := by
  cases call with
  | alloc order =>
    rcases hp : allocPages t.st order with ⟨s', _ | page⟩
    · obtain ⟨st, held⟩ := t
      simpa [exec, hp] using Step.allocNull h hp
    · obtain ⟨st, held⟩ := t
      simpa [exec, hp] using Step.alloc h hp
  | free b => exact Step.free h

theorem Call.inv {t : System} {call : Call} (h : call.Valid t)
    (hinv : Inv lo hi hi t.st t.held []) :
    Inv lo hi hi (call.exec t).st (call.exec t).held [] := step_inv hinv (step h)

/-- What one call does to the held blocks: an allocation adds the first free block. -/
theorem Call.tableSafe_iff {t : System} {call : Call} (h : call.Valid t)
    (hinv : Inv c.startPfn hi hi t.st t.held []) (hs : TableSafe c memory t) :
    TableSafe c memory (call.exec t) ↔ call.Careful c t := by
  cases call with
  | free b =>
    exact ⟨fun _ => trivial, fun _ b' hb' => hs b' (List.mem_of_mem_erase hb')⟩
  | alloc order =>
    have hinv' := inv h hinv
    unfold TableSafe Careful
    simp only [exec, allocPages_snd] at hinv' ⊢
    cases hp : firstFree t.st order with
    | none => simpa using (show ∀ b ∈ t.held, _ from hs)
    | some page =>
      rw [hp] at hinv'
      have hle : c.PFN_OFFSET ≤ page := by
        rw [← startPfn_eq]
        exact (hinv'.range (b := ⟨page, order⟩) (by simp) (Block.covers_head _)).1
      have hd := disjoint_iff memory (b := ⟨page, order⟩) hle
      simp only [Option.map_some, Option.toList_some, List.cons_append, List.nil_append,
        List.forall_mem_cons, Option.some.injEq, forall_eq', hd]
      exact and_iff_left hs

/-- **A run keeps off the page table** exactly if its calls are careful. -/
theorem states_safe_iff (memory : ℕ) : ∀ (calls : List Call) {t : System}, Inv c.startPfn hi hi t.st t.held [] →
    TableSafe c memory t → Calls Call.Valid t calls →
    ((∀ t' ∈ states t calls, TableSafe c memory t') ↔ Calls (Call.Careful c) t calls)
  | [], t, _, hs, _ => by simpa [states, Calls] using hs
  | call :: calls, t, hinv, hs, hv => by
    have hinv' := Call.inv hv.1 hinv
    have hstep := Call.tableSafe_iff hv.1 hinv hs
    simp only [states, Calls, List.forall_mem_cons, hs, true_and]
    constructor
    · intro hall
      have hs' : TableSafe c memory (call.exec t) :=
        hall _ (by cases calls <;> exact List.mem_cons_self)
      exact ⟨hstep.mp hs', (states_safe_iff memory calls hinv' hs' hv.2).mp hall⟩
    · rintro ⟨hcall, hcalls⟩
      exact (states_safe_iff memory calls hinv' (hstep.mpr hcall) hv.2).mpr hcalls

/-! ### Every page is handed out in some run -/

theorem firstFree_none {s : State} (h : firstFree s 0 = none) : freeBlocks s = [] := by
  rw [List.eq_nil_iff_forall_not_mem]
  intro b hb
  obtain ⟨ho, hp⟩ := mem_blocksOf.mp hb
  have hnone := List.findSome?_eq_none_iff.mp h b.order (by simpa using ho)
  rw [List.head?_eq_none_iff.mp hnone] at hp
  exact absurd hp List.not_mem_nil

/-- The heads of the held blocks are different frames of the range. -/
theorem held_length_le {t : System} (h : Inv lo hi hi t.st t.held []) :
    t.held.length ≤ hi - lo := by
  have hparts := h.tiles.partition.disjoint
  rw [List.append_nil] at hparts
  have hheld := (List.pairwise_append.mp hparts).2.1
  have hnodup : (t.held.map Block.head).Nodup := by
    refine List.pairwise_map.mpr (hheld.imp ?_)
    rintro a b hab heq
    exact hab a.head ⟨a.covers_head, by rw [heq]; exact b.covers_head⟩
  have hsub : t.held.map Block.head ⊆ List.range' lo (hi - lo) := by
    intro q hq
    obtain ⟨b, hb, rfl⟩ := List.mem_map.mp hq
    have := h.range (b := b) (by simp [hb]) b.covers_head
    rw [List.mem_range'_1]
    omega
  simpa using (hnodup.subperm hsub).length_le

/-- Pages are taken one at a time until none is left: some run of allocations holds them all. -/
theorem exists_all_held : ∀ (n : ℕ) {t : System}, Inv lo hi hi t.st t.held [] →
    (∀ b ∈ t.held, b.order = 0) → hi - lo < n + t.held.length →
    ∃ calls t', t' ∈ states t calls ∧ Calls Call.Valid t calls ∧
      Inv lo hi hi t'.st t'.held [] ∧ (∀ b ∈ t'.held, b.order = 0) ∧ freeBlocks t'.st = []
  | 0, t, h, _, hn => absurd (held_length_le h) (by omega)
  | n + 1, t, h, hz, hn => by
    have hv : (Call.alloc 0).Valid t := show 0 < MAX_ORDER by decide
    cases hp : firstFree t.st 0 with
    | none => exact ⟨[], t, List.mem_singleton_self t, trivial, h, hz, firstFree_none hp⟩
    | some page =>
      have hinv := Call.inv hv h
      have hheld : ((Call.alloc 0).exec t).held = ⟨page, 0⟩ :: t.held := by
        simp [Call.exec, allocPages_snd, hp]
      obtain ⟨calls, t', hmem, hvalid, h', hz', hfree⟩ := exists_all_held n hinv
        (by rw [hheld]; exact List.forall_mem_cons.mpr ⟨rfl, hz⟩)
        (by rw [hheld, List.length_cons]; omega)
      exact ⟨.alloc 0 :: calls, t', List.mem_cons_of_mem _ hmem, ⟨hv, hvalid⟩, h', hz', hfree⟩

/-- The frame of the first page, where the table starts, is handed out in some run. -/
theorem exists_unsafe (memory : ℕ) (hraw : Raw c raw) (hpos : 0 < c.nrPages) :
    ∃ calls, Calls Call.Valid (start c raw) calls ∧
      ¬ ∀ t ∈ states (start c raw) calls, TableSafe c memory t := by
  have hs := startPfn_eq c
  have he := endPfn_eq c
  obtain ⟨calls, t, hmem, hvalid, h, hz, hfree⟩ := exists_all_held (c.endPfn - c.startPfn + 1)
    (start_inv hraw) (by simp [start]) (by omega)
  refine ⟨calls, hvalid, fun hall => ?_⟩
  obtain ⟨b, hb, hcov⟩ := h.tiles.exists_covers (le_refl c.startPfn) (by omega)
  rw [hfree, List.nil_append, List.append_nil] at hb
  unfold Block.Covers at hcov
  rw [hz b hb, pow_zero] at hcov
  have hdis := (disjoint_iff memory (by omega)).mp (hall t hmem b hb)
  have hend := tableEnd_eq c
  rw [show sizeofPage = 16 from rfl, show PAGE_SIZE = 4096 from rfl] at hend
  omega

/-- **The page table and the blocks**: a run keeps every block it holds off the table exactly if
each of its allocations finds a first free block behind the table; every run does so only if there
is no page at all. -/
theorem tableSafe_iff_careful (c : Config) (memory : ℕ) {raw : ℕ → Page} (hraw : Raw c raw) :
    (∀ calls, Calls Call.Valid (start c raw) calls →
      ((∀ t ∈ states (start c raw) calls, TableSafe c memory t) ↔
        Calls (Call.Careful c) (start c raw) calls)) ∧
    ((∀ calls, Calls Call.Valid (start c raw) calls →
      Calls (Call.Careful c) (start c raw) calls) ↔ c.nrPages = 0) := by
  have hrun : ∀ calls, Calls Call.Valid (start c raw) calls →
      ((∀ t ∈ states (start c raw) calls, TableSafe c memory t) ↔
        Calls (Call.Careful c) (start c raw) calls) := fun calls hv =>
    states_safe_iff memory calls (start_inv hraw) (fun b hb => absurd hb List.not_mem_nil) hv
  refine ⟨hrun, fun hall => ?_, fun hz calls hv => (hrun calls hv).mp fun t _ b _ => ?_⟩
  · by_contra hne
    obtain ⟨calls, hv, hnot⟩ := exists_unsafe memory hraw (Nat.pos_of_ne_zero hne)
    exact hnot ((hrun calls hv).mpr (hall calls hv))
  · have hempty : memMapBytes c memory = ∅ := by
      refine Set.eq_empty_of_forall_notMem ?_
      rintro a ⟨h1, h2⟩
      rw [hz] at h2
      omega
    rw [hempty]
    exact Set.disjoint_empty _

/-- `CONFIG_PHYS_BASE` and `CONFIG_MEMORY_SIZE` of the `Makefile`. -/
def makefileConfig : Config where
  PHYS_OFFSET := 0x60000000
  MEMORY_SIZE := 0x1000000
  offset_pos := by decide
  offset_aligned := by decide
  size_aligned := by decide
  no_overflow := by decide

theorem raw_makefileConfig : Raw makefileConfig fun _ => ⟨0, 0⟩ :=
  ⟨fun _ _ => rfl, fun _ _ => by decide⟩

/-- The state after the calls, from a zero-filled buffer. -/
def after (calls : List Call) : System :=
  calls.foldl Call.exec (start makefileConfig fun _ => ⟨0, 0⟩)

/-- The instance of `main.c` with 16 and 128 pages keeps off the table. -/
theorem tableSafe_makefileConfig :
    Calls Call.Valid (start makefileConfig fun _ => ⟨0, 0⟩)
        [.alloc 4, .alloc 7, .free ⟨0x60c00, 4⟩, .free ⟨0x60c80, 7⟩] ∧
      ∀ t ∈ states (start makefileConfig fun _ => ⟨0, 0⟩)
        [.alloc 4, .alloc 7, .free ⟨0x60c00, 4⟩, .free ⟨0x60c80, 7⟩],
        TableSafe makefileConfig 0 t := by
  have h4 : firstFree (after []).st 4 = some 0x60c00 := by decide +kernel
  have h7 : firstFree (after [.alloc 4]).st 7 = some 0x60c80 := by decide +kernel
  have hm4 : ⟨0x60c00, 4⟩ ∈ (after [.alloc 4, .alloc 7]).held := by decide +kernel
  have hm7 : ⟨0x60c80, 7⟩ ∈ (after [.alloc 4, .alloc 7, .free ⟨0x60c00, 4⟩]).held := by
    decide +kernel
  have hend : tableEnd makefileConfig = 0x60010 := by decide
  have hv4 : 4 < MAX_ORDER := by decide
  have hv7 : 7 < MAX_ORDER := by decide
  have hv : Calls Call.Valid (start makefileConfig fun _ => ⟨0, 0⟩)
      [.alloc 4, .alloc 7, .free ⟨0x60c00, 4⟩, .free ⟨0x60c80, 7⟩] :=
    ⟨hv4, hv7, hm4, hm7, trivial⟩
  refine ⟨hv, ((tableSafe_iff_careful makefileConfig 0 raw_makefileConfig).1 _ hv).mpr
    ⟨fun page hp => ?_, fun page hp => ?_, trivial, trivial, trivial⟩⟩
  · obtain rfl := Option.some.inj (h4.symm.trans hp)
    omega
  · obtain rfl := Option.some.inj (h7.symm.trans hp)
    omega

/-- Four blocks of the largest order: the last one is the block that the table lies in. -/
theorem not_tableSafe_makefileConfig :
    ¬ ∀ memory calls, Calls Call.Valid (start makefileConfig fun _ => ⟨0, 0⟩) calls →
      ∀ t ∈ states (start makefileConfig fun _ => ⟨0, 0⟩) calls,
        TableSafe makefileConfig memory t := by
  intro h
  have hmax : 10 < MAX_ORDER := by decide
  have hend : tableEnd makefileConfig = 0x60010 := by decide
  have hfree : firstFree (after [.alloc 10, .alloc 10, .alloc 10]).st 10 = some 0x60000 := by
    decide +kernel
  have hv : Calls Call.Valid (start makefileConfig fun _ => ⟨0, 0⟩)
      [.alloc 10, .alloc 10, .alloc 10, .alloc 10] := ⟨hmax, hmax, hmax, hmax, trivial⟩
  have hcareful := (states_safe_iff 0 _ (start_inv raw_makefileConfig)
    (fun b hb => absurd hb List.not_mem_nil) hv).mp (h 0 _ hv)
  obtain ⟨-, -, -, hlast, -⟩ := hcareful
  have hle := hlast 0x60000 hfree
  omega

end HardStack.Buddy.MemMap
