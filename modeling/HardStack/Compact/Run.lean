import HardStack.Compact.Model
import HardStack.Lib.Run

/-! # Compressed pages, when they fit

The place for a page is looked up before its compressed size is known: a whole page of free blocks.
`Fits` says that the blocks the page then takes are free as well. `Inv`: the pages on the list are
mapped where they say, the live sockets are of different places, none of them mapped, their blocks are
apart and are the bits that are set, and at each socket stands what the compressor wrote for the page
that is saved. -/

namespace HardStack.Compact.Run

open HardStack.Compact.Model

variable {lzo : Lzo} {s s' : State} {saved : Place → Option (List UInt8)} {place : Place}
  {page : ℕ}

/-! ### Buffers -/

theorem bytes_length (buf : ℕ → UInt8) (pos n : ℕ) : (bytes buf pos n).length = n := by
  unfold bytes
  rw [List.length_map, List.length_range]

theorem bytes_append (buf : ℕ → UInt8) (pos n k : ℕ) :
    bytes buf pos (n + k) = bytes buf pos n ++ bytes buf (pos + n) k := by
  unfold bytes
  rw [List.range_add, List.map_append, List.map_map]
  refine congrArg _ (List.map_congr_left fun i _ => ?_)
  rw [Function.comp_apply, Nat.add_assoc]

/-- What has been written is what stands there. -/
theorem bytes_write (buf : ℕ → UInt8) (pos : ℕ) (src : List UInt8) :
    bytes (write buf pos src) pos src.length = src := by
  refine List.ext_getElem (bytes_length _ _ _) fun i h1 h2 => ?_
  simp only [bytes, write, List.getElem_map, List.getElem_range]
  rw [if_pos (Nat.le_add_right _ _), Nat.add_sub_cancel_left, List.getElem?_eq_getElem h2,
    Option.getD_some]

/-- A write elsewhere. -/
theorem bytes_write_apart (buf : ℕ → UInt8) {pos pos' n : ℕ} {src : List UInt8}
    (h : pos' + n ≤ pos ∨ pos + src.length ≤ pos') :
    bytes (write buf pos src) pos' n = bytes buf pos' n := by
  refine List.map_congr_left fun i hi => ?_
  have hi := List.mem_range.mp hi
  unfold write
  by_cases hp : pos ≤ pos' + i
  · rw [if_pos hp, List.getElem?_eq_none (by omega), Option.getD_none]
  · rw [if_neg hp]

/-! ### Blocks -/

theorem le_blocksOf (dlen : ℕ) : dlen ≤ blocksOf dlen * BISCUITOS_COMPACT_BUCK := by
  unfold blocksOf BISCUITOS_COMPACT_BUCK
  omega

theorem blocksOf_lt {dlen : ℕ} (h : 0 < dlen) :
    (blocksOf dlen - 1) * BISCUITOS_COMPACT_BUCK < dlen ∧ 0 < blocksOf dlen := by
  unfold blocksOf BISCUITOS_COMPACT_BUCK
  omega

theorem compressed_pos (lzo : Lzo) (s : State) (page : ℕ) : 0 < (compressed lzo s page).length :=
  lzo.pos _ (bytes_length _ _ _)

/-- The place that is found has a page of free blocks. -/
theorem findSocket_clear (h : ¬ BISCUITOS_COMPACT_NR < findSocket s) :
    Lib.Bitmap.Clear s.bitmap BISCUITOS_COMPACT_NR BISCUITOS_PER_BLOCKS (findSocket s) :=
  (Lib.Bitmap.zeroArea_clear (by decide) _ _ (not_lt.mp h)).1

/-- The search fails only if there is no such place: the `BUG_ON` is not hit before. -/
theorem findSocket_le_iff : findSocket s ≤ BISCUITOS_COMPACT_NR ↔
    ∃ i, 2 ∣ i ∧ Lib.Bitmap.Clear s.bitmap BISCUITOS_COMPACT_NR BISCUITOS_PER_BLOCKS i := by
  have heven : ∀ i, ALIGN_MASK (i + 0) 1 - 0 = i ↔ 2 ∣ i := by
    intro i
    unfold ALIGN_MASK
    omega
  have hmono : Monotone fun x => ALIGN_MASK (x + 0) 1 - 0 := by
    intro x y h
    simp only [ALIGN_MASK]
    omega
  have hiff := @Lib.Bitmap.zeroArea_le_iff s.bitmap (fun x => ALIGN_MASK (x + 0) 1 - 0)
    BISCUITOS_COMPACT_NR BISCUITOS_PER_BLOCKS (fun x => by unfold ALIGN_MASK; omega) hmono
    (fun x => by unfold ALIGN_MASK; omega) (by decide)
  exact hiff.trans (exists_congr fun i => and_congr_left' (heven i))

/-- The blocks that the page takes once it is compressed are free and inside the space. -/
def Fits (lzo : Lzo) (s : State) (bpage : BPage) : Prop :=
  Lib.Bitmap.Clear s.bitmap BISCUITOS_COMPACT_NR (blocksOf (compressed lzo s bpage.page).length)
    (findSocket s)

/-- This holds of every page of the list when its turn comes. -/
def FitsAll (lzo : Lzo) : List BPage → State → Prop
  | [], _ => True
  | bpage :: next, s => Fits lzo s bpage ∧ ∀ s', compress lzo s bpage = some s' →
      FitsAll lzo next { s' with pageList := s'.pageList.erase bpage }

/-! ### The invariant -/

/-- The block after the ones of a socket. -/
def blockEnd (a : Socket) : ℕ := a.socket + a.blocks

structure Inv (lzo : Lzo) (s : State) (saved : Place → Option (List UInt8)) : Prop where
  pages : ∀ b ∈ s.pageList, b.pte = some b.place ∧ s.pte b.place = some b.page
  nodup : (s.pageList.map BPage.place).Nodup
  places : (s.compactList.map Socket.place).Nodup
  blocks : s.compactList.Pairwise fun a b => blockEnd a ≤ b.socket ∨ blockEnd b ≤ a.socket
  bits : ∀ i, s.bitmap i = true ↔ ∃ a ∈ s.compactList, a.socket ≤ i ∧ i < blockEnd a
  below : ∀ a ∈ s.compactList, blockEnd a ≤ BISCUITOS_COMPACT_NR
  apart : ∀ a ∈ s.compactList, s.pte a.place = none
  out : ∀ a ∈ s.compactList, ∃ c, saved a.place = some c ∧ c.length = PAGE_SIZE ∧
    a.blocks = blocksOf (lzo.cot_compress c).length ∧
    bytes s.space (a.socket * BISCUITOS_COMPACT_BUCK) (lzo.cot_compress c).length =
      lzo.cot_compress c
  held : ∀ place c, saved place = some c → ∃ a ∈ s.compactList, a.place = place

/-! ### Compressing -/

/-- One round of the ioctl: the page goes to the socket `index` as `out` and leaves the list. -/
def compressRound (s : State) (b : BPage) (next : List BPage) (index : ℕ) (out : List UInt8) :
    State :=
  { s with
    space := write s.space (index * BISCUITOS_COMPACT_BUCK) out
    bitmap := bitmapSet s.bitmap index (blocksOf out.length)
    pte := Function.update s.pte b.place none
    compactList := ⟨b.vma, b.address, index, blocksOf out.length⟩ :: s.compactList
    pageList := next }

theorem compress_round {b : BPage} {next : List BPage} (hl : s.pageList = b :: next)
    (hb : b.pte = some b.place) (hc : compress lzo s b = some s') :
    ¬ BISCUITOS_COMPACT_NR < findSocket s ∧ { s' with pageList := s'.pageList.erase b } =
      compressRound s b next (findSocket s) (compressed lzo s b.page) := by
  unfold compress at hc
  by_cases hbug : BISCUITOS_COMPACT_NR < findSocket s
  · simp only [if_pos hbug, reduceCtorEq] at hc
  · simp only [if_neg hbug, Option.some.injEq] at hc
    refine ⟨hbug, ?_⟩
    rw [← hc, hb]
    show State.mk _ _ _ _ _ (s.pageList.erase b) = _
    rw [hl, List.erase_cons_head]
    rfl

/-- **Compressing a page** to blocks that are free. -/
theorem compressRound_inv {b : BPage} {next : List BPage} {index : ℕ} (h : Inv lzo s saved)
    (hl : s.pageList = b :: next)
    (hfree : Lib.Bitmap.Clear s.bitmap BISCUITOS_COMPACT_NR
      (blocksOf (compressed lzo s b.page).length) index) :
    Inv lzo (compressRound s b next index (compressed lzo s b.page))
      (Function.update saved b.place (content s b.place)) := by
  obtain ⟨hb, hpte⟩ := h.pages b (by rw [hl]; exact List.mem_cons_self)
  have hnodup := h.nodup
  rw [hl, List.map_cons, List.nodup_cons] at hnodup
  obtain ⟨hin, hzero⟩ := hfree
  have hpos := (blocksOf_lt (compressed_pos lzo s b.page)).2
  have hlen := le_blocksOf (compressed lzo s b.page).length
  have hcontent : content s b.place = some (bytes (s.mem b.page) 0 PAGE_SIZE) := by
    unfold content
    rw [hpte]
    rfl
  have hcomp : compressed lzo s b.page = lzo.cot_compress (bytes (s.mem b.page) 0 PAGE_SIZE) := rfl
  generalize compressed lzo s b.page = out at hin hzero hpos hlen hcomp ⊢
  have hplace : ∀ a ∈ s.compactList, a.place ≠ b.place := by
    intro a ha heq
    have := h.apart a ha
    rw [heq, hpte] at this
    cases this
  -- the blocks of the live sockets are not among the free ones
  have hnew : ∀ a ∈ s.compactList, index + blocksOf out.length ≤ a.socket ∨ blockEnd a ≤ index := by
    intro a ha
    by_contra hno
    have hpos' : 0 < a.blocks := by
      obtain ⟨c, -, hc, hblocks, -⟩ := h.out a ha
      rw [hblocks]
      exact (blocksOf_lt (lzo.pos c hc)).2
    have hbit := (h.bits (max index a.socket)).mpr ⟨a, ha, le_max_right _ _, by
      unfold blockEnd at *
      omega⟩
    rw [hzero _ (le_max_left _ _) (by unfold blockEnd at *; omega)] at hbit
    cases hbit
  refine ⟨fun x hx => ?_, hnodup.2, ?_, ?_, fun i => ?_, ?_, ?_, ?_, fun place c hc => ?_⟩
  · obtain ⟨hx1, hx2⟩ := h.pages x (by rw [hl]; exact List.mem_cons_of_mem _ hx)
    have hne : x.place ≠ b.place := fun heq => hnodup.1 (heq ▸ List.mem_map_of_mem hx)
    exact ⟨hx1, (Function.update_of_ne hne _ _).trans hx2⟩
  · refine List.nodup_cons.mpr ⟨fun hm => ?_, h.places⟩
    obtain ⟨a, ha, heq⟩ := List.mem_map.mp hm
    exact hplace a ha heq
  · exact List.pairwise_cons.mpr ⟨fun a ha => hnew a ha, h.blocks⟩
  · show (if index ≤ i ∧ i < index + blocksOf out.length then true else s.bitmap i) = true ↔
      ∃ a ∈ _ :: s.compactList, a.socket ≤ i ∧ i < blockEnd a
    rw [List.exists_mem_cons_iff, ← h.bits i]
    by_cases hi : index ≤ i ∧ i < index + blocksOf out.length
    · rw [if_pos hi]
      exact iff_of_true rfl (Or.inl hi)
    · rw [if_neg hi]
      exact (or_iff_right hi).symm
  · exact List.forall_mem_cons.mpr ⟨hin, h.below⟩
  · refine List.forall_mem_cons.mpr ⟨Function.update_self _ _ _, fun a ha => ?_⟩
    exact (Function.update_of_ne (hplace a ha) _ _).trans (h.apart a ha)
  · refine List.forall_mem_cons.mpr ⟨⟨bytes (s.mem b.page) 0 PAGE_SIZE, ?_, bytes_length _ _ _, ?_,
      ?_⟩, fun a ha => ?_⟩
    · exact (Function.update_self _ _ _).trans hcontent
    · rw [hcomp]
    · rw [← hcomp]
      exact bytes_write _ _ _
    · obtain ⟨c, hc, hlc, hblocks, hbytes⟩ := h.out a ha
      refine ⟨c, (Function.update_of_ne (hplace a ha) _ _).trans hc, hlc, hblocks, ?_⟩
      refine (bytes_write_apart _ ?_).trans hbytes
      have hle := le_blocksOf (lzo.cot_compress c).length
      rw [← hblocks] at hle
      have := hnew a ha
      unfold blockEnd BISCUITOS_COMPACT_BUCK at *
      omega
  · by_cases hpl : place = b.place
    · exact ⟨_, List.mem_cons_self, hpl.symm⟩
    · rw [Function.update_of_ne hpl] at hc
      obtain ⟨a, ha, hap⟩ := h.held place c hc
      exact ⟨a, List.mem_cons_of_mem _ ha, hap⟩

theorem compressRound_pte (b : BPage) (next : List BPage) (index : ℕ) (out : List UInt8) :
    (compressRound s b next index out).pte = Function.update s.pte b.place none := rfl

theorem saveListed_nil (hl : s.pageList = []) : saveListed s saved = saved := by
  funext place
  have hno : ¬ Listed s place := by
    unfold Listed
    rw [hl]
    rintro ⟨b, hb, -⟩
    exact absurd hb List.not_mem_nil
  exact if_neg hno

/-- A page is saved in its round. -/
theorem saveListed_cons {b : BPage} {next : List BPage} (h : Inv lzo s saved)
    (hl : s.pageList = b :: next) (index : ℕ) (out : List UInt8) :
    saveListed (compressRound s b next index out)
      (Function.update saved b.place (content s b.place)) = saveListed s saved := by
  have hnodup := h.nodup
  rw [hl, List.map_cons, List.nodup_cons] at hnodup
  have hlisted : ∀ place, Listed s place ↔
      b.place = place ∨ Listed (compressRound s b next index out) place := by
    intro place
    unfold Listed
    rw [hl]
    exact List.exists_mem_cons_iff ..
  funext place
  unfold saveListed
  by_cases hpl : place = b.place
  · have hno : ¬ Listed (compressRound s b next index out) b.place := fun hx =>
      hnodup.1 (List.mem_map.mpr hx)
    rw [hpl, if_neg hno, if_pos ((hlisted _).mpr (Or.inl rfl)), Function.update_self]
  · have hcontent : content (compressRound s b next index out) place = content s place := by
      unfold content
      rw [compressRound_pte, Function.update_of_ne hpl]
      rfl
    rw [hcontent, Function.update_of_ne hpl]
    have hiff := (hlisted place).trans (or_iff_right fun heq => hpl heq.symm)
    by_cases hx : Listed s place
    · rw [if_pos hx, if_pos (hiff.mp hx)]
    · rw [if_neg hx, if_neg fun hy => hx (hiff.mpr hy)]

/-- The loop goes on from the state after a round. -/
theorem compressLoop_cons {b : BPage} {next : List BPage} (hl : s.pageList = b :: next)
    (hb : b.pte = some b.place) (hs : compressLoop lzo (b :: next) s = some s') :
    ∃ s₁, compress lzo s b = some s₁ ∧ ¬ BISCUITOS_COMPACT_NR < findSocket s ∧
      { s₁ with pageList := s₁.pageList.erase b } =
        compressRound s b next (findSocket s) (compressed lzo s b.page) ∧
      compressLoop lzo next (compressRound s b next (findSocket s) (compressed lzo s b.page)) =
        some s' := by
  obtain ⟨s₁, hc, hs⟩ := Option.bind_eq_some_iff.mp hs
  obtain ⟨hbug, heq⟩ := compress_round hl hb hc
  exact ⟨s₁, hc, hbug, heq, heq ▸ hs⟩

/-- **The ioctl**, when every page fits. -/
theorem compressLoop_inv : ∀ (pages : List BPage) {s s' : State}
    {saved : Place → Option (List UInt8)}, Inv lzo s saved → s.pageList = pages →
    compressLoop lzo pages s = some s' → FitsAll lzo pages s → Inv lzo s' (saveListed s saved)
  | [], s, s', saved, h, hl, hs, _ => by
    obtain rfl := Option.some.inj hs
    rw [saveListed_nil hl]
    exact h
  | b :: next, s, s', saved, h, hl, hs, hf => by
    obtain ⟨hfit, hrest⟩ := hf
    obtain ⟨s₁, hc, -, heq, hs⟩ :=
      compressLoop_cons hl (h.pages b (by rw [hl]; exact List.mem_cons_self)).1 hs
    have hnext := hrest s₁ hc
    rw [heq] at hnext
    rw [← saveListed_cons h hl (findSocket s) (compressed lzo s b.page)]
    exact compressLoop_inv next (compressRound_inv h hl hfit) rfl hs hnext

/-! ### Page faults -/

/-- The search of `BiscuitOS_decompress`. -/
theorem find_socket (s : State) (b : BPage) :
    (∃ a ∈ s.compactList, a.place = b.place ∧ s.compactList.find?
      (fun tmp => tmp.address == b.address && tmp.vma == b.vma) = some a) ∨
    ((∀ a ∈ s.compactList, a.place ≠ b.place) ∧ s.compactList.find?
      (fun tmp => tmp.address == b.address && tmp.vma == b.vma) = none) := by
  have hiff : ∀ a : Socket, (a.address == b.address && a.vma == b.vma) = true ↔
      a.place = b.place := by
    intro a
    simp only [Socket.place, BPage.place, Place.mk.injEq, Bool.and_eq_true, beq_iff_eq]
    exact and_comm
  cases hf : s.compactList.find? fun tmp => tmp.address == b.address && tmp.vma == b.vma with
  | some a =>
    have hsome := List.find?_some hf
    exact Or.inl ⟨a, List.mem_of_find?_eq_some hf, (hiff a).mp hsome, rfl⟩
  | none =>
    exact Or.inr ⟨fun a ha heq => List.find?_eq_none.mp hf a ha ((hiff a).mpr heq), rfl⟩

/-- The page that a fault maps. -/
def inserted (s : State) (place : Place) (page : ℕ) : State :=
  { s with
    pte := Function.update s.pte place (some page)
    pageList := ⟨place.vma, place.address, page, some place⟩ :: s.pageList }

theorem vmFault_mapped (h : s.pte place ≠ none) : vmFault lzo s place page = s := by
  unfold vmFault vmInsertPage
  rw [if_pos (Option.isSome_iff_ne_none.mpr h)]

theorem vmFault_new (h : s.pte place = none) : vmFault lzo s place page =
    decompress lzo (inserted s place page) ⟨place.vma, place.address, page, some place⟩ := by
  unfold vmFault vmInsertPage
  rw [if_neg (by rw [h]; decide)]
  simp only [Function.update_self, Option.isSome_some, if_true]
  rfl

/-- What the decompressor is handed for a socket. -/
def handed (s : State) (a : Socket) : List UInt8 :=
  bytes s.space (a.socket * BISCUITOS_COMPACT_BUCK) (a.blocks * BISCUITOS_COMPACT_BUCK)

/-- A fault at a place that is compressed, and one at a place that is not. -/
theorem vmFault_cases (lzo : Lzo) (hp : s.pte place = none) (page : ℕ) :
    (∃ a ∈ s.compactList, a.place = place ∧ vmFault lzo s place page =
      { inserted s place page with
        mem := Function.update s.mem page (write (s.mem page) 0 (lzo.cot_decompress (handed s a)))
        bitmap := bitmapClear s.bitmap a.socket a.blocks
        compactList := s.compactList.erase a }) ∨
    ((∀ a ∈ s.compactList, a.place ≠ place) ∧ vmFault lzo s place page = inserted s place page) := by
  rw [vmFault_new hp]
  unfold decompress
  rcases find_socket (inserted s place page)
    ⟨place.vma, place.address, page, some place⟩ with ⟨a, ha, hap, hf⟩ | ⟨hno, hf⟩
  · rw [hf]
    exact Or.inl ⟨a, ha, hap, rfl⟩
  · rw [hf]
    exact Or.inr ⟨hno, rfl⟩

/-- The pages of the list after a fault that maps one. -/
theorem inserted_pages (h : Inv lzo s saved) (hp : s.pte place = none) (page : ℕ) :
    (∀ b ∈ (inserted s place page).pageList,
      b.pte = some b.place ∧ (inserted s place page).pte b.place = some b.page) ∧
    ((inserted s place page).pageList.map BPage.place).Nodup := by
  have hne : ∀ b ∈ s.pageList, b.place ≠ place := by
    intro b hb heq
    have := (h.pages b hb).2
    rw [heq, hp] at this
    cases this
  refine ⟨List.forall_mem_cons.mpr ⟨⟨rfl, Function.update_self _ _ _⟩, fun b hb => ?_⟩,
    List.nodup_cons.mpr ⟨fun hm => ?_, h.nodup⟩⟩
  · obtain ⟨h1, h2⟩ := h.pages b hb
    exact ⟨h1, (Function.update_of_ne (hne b hb) _ _).trans h2⟩
  · obtain ⟨b, hb, heq⟩ := List.mem_map.mp hm
    exact hne b hb heq

/-- Two live sockets have their blocks apart. -/
theorem Inv.blocks_apart (h : Inv lzo s saved) {a b : Socket} (ha : a ∈ s.compactList)
    (hb : b ∈ s.compactList) (hne : a ≠ b) : blockEnd a ≤ b.socket ∨ blockEnd b ≤ a.socket := by
  have : Std.Symm fun a b : Socket => blockEnd a ≤ b.socket ∨ blockEnd b ≤ a.socket :=
    ⟨fun _ _ => Or.symm⟩
  exact h.blocks.forall ha hb hne

/-- **A page fault.** -/
theorem vmFault_inv (h : Inv lzo s saved) (page : ℕ) :
    Inv lzo (vmFault lzo s place page) (Function.update saved place none) := by
  by_cases hp : s.pte place = none
  swap
  · -- nothing is compressed at a place that is mapped
    have hnone : saved place = none := by
      by_contra hne
      obtain ⟨c, hc⟩ := Option.ne_none_iff_exists'.mp hne
      obtain ⟨a, ha, rfl⟩ := h.held place c hc
      exact hp (h.apart a ha)
    rw [vmFault_mapped hp, ← hnone, Function.update_eq_self]
    exact h
  obtain ⟨hpages, hnodup⟩ := inserted_pages h hp page
  rcases vmFault_cases lzo hp page with ⟨a, ha, rfl, heq⟩ | ⟨hno, heq⟩
  · have hmem : ∀ x, x ∈ s.compactList.erase a ↔ x ≠ a ∧ x ∈ s.compactList := fun x =>
      h.places.of_map.mem_erase_iff
    have hplace : ∀ x ∈ s.compactList.erase a, x.place ≠ a.place := fun x hx hxa =>
      ((hmem x).mp hx).1 (List.inj_on_of_nodup_map h.places ((hmem x).mp hx).2 ha hxa)
    rw [heq]
    refine ⟨hpages, hnodup, (List.erase_sublist.map _).nodup h.places,
      h.blocks.sublist List.erase_sublist, fun i => ?_,
      fun x hx => h.below x ((hmem x).mp hx).2, fun x hx => ?_, fun x hx => ?_, fun place c hc => ?_⟩
    · show (if a.socket ≤ i ∧ i < blockEnd a then false else s.bitmap i) = true ↔
        ∃ x ∈ s.compactList.erase a, x.socket ≤ i ∧ i < blockEnd x
      by_cases hi : a.socket ≤ i ∧ i < blockEnd a
      · rw [if_pos hi]
        refine iff_of_false (by decide) ?_
        rintro ⟨x, hx, hxi⟩
        obtain ⟨hne, hx⟩ := (hmem x).mp hx
        have := h.blocks_apart hx ha hne
        omega
      · rw [if_neg hi, h.bits i]
        constructor
        · rintro ⟨x, hx, hxi⟩
          exact ⟨x, (hmem x).mpr ⟨fun hxa => hi (hxa ▸ hxi), hx⟩, hxi⟩
        · rintro ⟨x, hx, hxi⟩
          exact ⟨x, ((hmem x).mp hx).2, hxi⟩
    · exact (Function.update_of_ne (hplace x hx) _ _).trans (h.apart x ((hmem x).mp hx).2)
    · rw [Function.update_of_ne (hplace x hx)]
      exact h.out x ((hmem x).mp hx).2
    · have hne : place ≠ a.place := by
        rintro rfl
        rw [Function.update_self] at hc
        cases hc
      rw [Function.update_of_ne hne] at hc
      obtain ⟨x, hx, rfl⟩ := h.held place c hc
      exact ⟨x, (hmem x).mpr ⟨fun hxa => hne (by rw [hxa]), hx⟩, rfl⟩
  · have hnone : saved place = none := by
      by_contra hne
      obtain ⟨c, hc⟩ := Option.ne_none_iff_exists'.mp hne
      obtain ⟨a, ha, hap⟩ := h.held place c hc
      exact hno a ha hap
    rw [heq, ← hnone, Function.update_eq_self]
    exact ⟨hpages, hnodup, h.places, h.blocks, h.bits, h.below,
      fun a ha => (Function.update_of_ne (hno a ha) _ _).trans (h.apart a ha), h.out, h.held⟩

/-- The decompressor is handed what was written for the page and the rest of the last block. -/
theorem handed_decompress (h : Inv lzo s saved) {a : Socket} (ha : a ∈ s.compactList)
    {c : List UInt8} (hc : saved a.place = some c) : lzo.cot_decompress (handed s a) = c := by
  obtain ⟨c', hc', hlen, hblocks, hbytes⟩ := h.out a ha
  obtain rfl := Option.some.inj (hc.symm.trans hc')
  have hle := le_blocksOf (lzo.cot_compress c).length
  have hlt := blocksOf_lt (lzo.pos c hlen)
  rw [← hblocks] at hle hlt
  unfold handed
  rw [← Nat.add_sub_of_le hle, bytes_append, hbytes]
  refine lzo.restores c _ hlen ?_
  rw [bytes_length]
  unfold BISCUITOS_COMPACT_BUCK at *
  omega

/-- After a fault at a place that is compressed, the page holds what was saved. -/
theorem vmFault_restores (h : Inv lzo s saved) {c : List UInt8} (hc : saved place = some c)
    (page : ℕ) : content (vmFault lzo s place page) place = some c := by
  obtain ⟨a, ha, rfl⟩ := h.held place c hc
  obtain ⟨c', hc', hlen, -, -⟩ := h.out a ha
  obtain rfl := Option.some.inj (hc.symm.trans hc')
  rcases vmFault_cases lzo (h.apart a ha) page with ⟨x, hx, hxa, heq⟩ | ⟨hno, -⟩
  · obtain rfl := List.inj_on_of_nodup_map h.places ha hx hxa.symm
    have hpte : (vmFault lzo s a.place page).pte a.place = some page := by
      rw [heq]
      exact Function.update_self _ _ _
    have hmem : (vmFault lzo s a.place page).mem page = write (s.mem page) 0 c := by
      rw [heq, ← handed_decompress h ha hc]
      exact Function.update_self _ _ _
    unfold content
    rw [hpte, Option.map_some, hmem, ← hlen, bytes_write]
  · exact absurd rfl (hno a ha)

/-! ### Runs -/

/-- The bytes that were written for a socket. -/
def written (lzo : Lzo) (saved : Place → Option (List UInt8)) (a : Socket) : Set ℕ :=
  { x | ∃ c, saved a.place = some c ∧ a.socket * BISCUITOS_COMPACT_BUCK ≤ x ∧
    x < a.socket * BISCUITOS_COMPACT_BUCK + (lzo.cot_compress c).length }

/-- What the store of compressed pages owes: the bytes of live sockets are apart and inside the
space, the bits set are their blocks, and a fault at a place that is compressed brings the page back
as it was when it was compressed. -/
structure Kept (lzo : Lzo) (t : System) : Prop where
  apart : t.st.compactList.Pairwise fun a b =>
    Disjoint (written lzo t.saved a) (written lzo t.saved b)
  inside : ∀ a ∈ t.st.compactList, ∀ x ∈ written lzo t.saved a, x < BISCUITOS_COMPACT_SIZE
  bits : ∀ i < BISCUITOS_COMPACT_NR, t.st.bitmap i = true ↔
    ∃ a ∈ t.st.compactList, a.socket ≤ i ∧ i < a.socket + a.blocks
  out : ∀ place, (∃ c, t.saved place = some c) ↔ ∃ a ∈ t.st.compactList, a.place = place
  restored : ∀ place c page, t.saved place = some c → FreshPage t.st page →
    content (vmFault lzo t.st place page) place = some c

/-- The bytes of a socket are in its blocks. -/
theorem Inv.written_le (h : Inv lzo s saved) {a : Socket} (ha : a ∈ s.compactList) {x : ℕ}
    (hx : x ∈ written lzo saved a) :
    a.socket * BISCUITOS_COMPACT_BUCK ≤ x ∧ x < blockEnd a * BISCUITOS_COMPACT_BUCK := by
  obtain ⟨c, hc, h1, h2⟩ := hx
  obtain ⟨c', hc', -, hblocks, -⟩ := h.out a ha
  obtain rfl := Option.some.inj (hc.symm.trans hc')
  have hle := le_blocksOf (lzo.cot_compress c).length
  rw [← hblocks] at hle
  unfold blockEnd
  rw [Nat.add_mul]
  exact ⟨h1, by omega⟩

theorem Inv.kept {t : System} (h : Inv lzo t.st t.saved) : Kept lzo t := by
  refine ⟨?_, fun a ha x hx => ?_, fun i _ => h.bits i, fun place => ⟨?_, ?_⟩,
    fun place c page hc _ => vmFault_restores h hc page⟩
  · refine h.blocks.imp_of_mem fun {a b} ha hb hab => Set.disjoint_left.mpr fun x hxa hxb => ?_
    have h1 := h.written_le ha hxa
    have h2 := h.written_le hb hxb
    unfold BISCUITOS_COMPACT_BUCK at *
    omega
  · have h1 := h.written_le ha hx
    have h2 := h.below a ha
    unfold BISCUITOS_COMPACT_NR BISCUITOS_COMPACT_SIZE BISCUITOS_COMPACT_BUCK at *
    omega
  · rintro ⟨c, hc⟩
    exact h.held place c hc
  · rintro ⟨a, ha, rfl⟩
    obtain ⟨c, hc, -⟩ := h.out a ha
    exact ⟨c, hc⟩

/-! ### Pages that do not fit -/

theorem compressLoop_suffix : ∀ (pages : List BPage) {s s' : State},
    compressLoop lzo pages s = some s' → s.compactList <:+ s'.compactList
  | [], s, s', hs => by
    obtain rfl := Option.some.inj hs
    exact List.suffix_rfl
  | b :: next, s, s', hs => by
    obtain ⟨s₁, hc, hs⟩ := Option.bind_eq_some_iff.mp hs
    refine List.IsSuffix.trans ?_ (compressLoop_suffix next hs)
    unfold compress at hc
    by_cases hbug : BISCUITOS_COMPACT_NR < findSocket s
    · simp only [if_pos hbug, reduceCtorEq] at hc
    · simp only [if_neg hbug, Option.some.injEq] at hc
      rw [← hc]
      exact List.suffix_cons _ _

/-- A block in the way belongs to a live socket whose first block is in the way. -/
theorem Inv.first_in_way (h : Inv lzo s saved) (hbug : ¬ BISCUITOS_COMPACT_NR < findSocket s)
    {i : ℕ} (hlo : findSocket s ≤ i) (hi : s.bitmap i = true) :
    ∃ a ∈ s.compactList, findSocket s ≤ a.socket ∧ a.socket ≤ i := by
  obtain ⟨a, ha, h1, h2⟩ := (h.bits i).mp hi
  refine ⟨a, ha, ?_, h1⟩
  by_contra hlt
  have hbit := (h.bits (findSocket s)).mpr ⟨a, ha, by omega, by omega⟩
  rw [(findSocket_clear hbug).2 _ le_rfl (Nat.lt_add_of_pos_right (by decide))] at hbit
  cases hbit

/-- A page that does not fit is written over a live socket or past the end of the space. -/
theorem unfit_not_kept {b : BPage} {next : List BPage} (h : Inv lzo s saved)
    (hl : s.pageList = b :: next) (hbug : ¬ BISCUITOS_COMPACT_NR < findSocket s)
    (hf : ¬ Fits lzo s b)
    (hs : (compressRound s b next (findSocket s) (compressed lzo s b.page)).compactList <:+
      s'.compactList) : ¬ Kept lzo ⟨s', saveListed s saved⟩ := by
  intro hk
  have hpte := (h.pages b (by rw [hl]; exact List.mem_cons_self)).2
  have hlt := blocksOf_lt (compressed_pos lzo s b.page)
  -- what has been written for the page
  have hmine : ∀ x, findSocket s * BISCUITOS_COMPACT_BUCK ≤ x →
      x < findSocket s * BISCUITOS_COMPACT_BUCK + (compressed lzo s b.page).length →
      x ∈ written lzo (saveListed s saved)
        ⟨b.vma, b.address, findSocket s, blocksOf (compressed lzo s b.page).length⟩ := by
    intro x h1 h2
    refine ⟨bytes (s.mem b.page) 0 PAGE_SIZE, ?_, h1, h2⟩
    have hlisted : Listed s b.place := ⟨b, by rw [hl]; exact List.mem_cons_self, rfl⟩
    show saveListed s saved b.place = _
    unfold saveListed content
    rw [if_pos hlisted, hpte]
    rfl
  have hsuffix := hs.subset
  have hmem := hsuffix List.mem_cons_self
  unfold Fits Lib.Bitmap.Clear at hf
  by_cases hin : findSocket s + blocksOf (compressed lzo s b.page).length ≤ BISCUITOS_COMPACT_NR
  · have hex : ∃ i, findSocket s ≤ i ∧ i < findSocket s + blocksOf (compressed lzo s b.page).length ∧
        s.bitmap i = true := by
      by_contra hno
      refine hf ⟨hin, fun i h1 h2 => Bool.eq_false_iff.mpr fun hi => hno ⟨i, h1, h2, hi⟩⟩
    obtain ⟨i, h1, h2, hi⟩ := hex
    obtain ⟨a, ha, ha1, ha2⟩ := h.first_in_way hbug h1 hi
    obtain ⟨c, hc, hlen, -⟩ := h.out a ha
    have hnot : ¬ Listed s a.place := by
      rintro ⟨x, hx, hxa⟩
      have := (h.pages x hx).2
      rw [hxa, h.apart a ha] at this
      cases this
    -- the first byte of the socket in the way
    have htheirs : a.socket * BISCUITOS_COMPACT_BUCK ∈ written lzo (saveListed s saved) a := by
      refine ⟨c, (if_neg hnot).trans hc, le_rfl, ?_⟩
      have := lzo.pos c hlen
      omega
    have hdisj := (List.pairwise_cons.mp (hk.apart.sublist hs.sublist)).1 a ha
    refine Set.disjoint_left.mp hdisj (hmine _ ?_ ?_) htheirs
    · exact Nat.mul_le_mul_right _ ha1
    · unfold BISCUITOS_COMPACT_BUCK at *
      omega
  · have := hk.inside _ hmem ((findSocket s + (blocksOf (compressed lzo s b.page).length - 1)) *
      BISCUITOS_COMPACT_BUCK) (hmine _ (Nat.mul_le_mul_right _ (Nat.le_add_right _ _)) (by
        rw [Nat.add_mul]
        omega))
    unfold BISCUITOS_COMPACT_NR BISCUITOS_COMPACT_SIZE BISCUITOS_COMPACT_BUCK at *
    omega

/-- **An ioctl whose pages do not all fit** leaves the store broken. -/
theorem compressLoop_unfit : ∀ (pages : List BPage) {s s' : State}
    {saved : Place → Option (List UInt8)}, Inv lzo s saved → s.pageList = pages →
    compressLoop lzo pages s = some s' → ¬ FitsAll lzo pages s →
    ¬ Kept lzo ⟨s', saveListed s saved⟩
  | [], _, _, _, _, _, _, hf => absurd trivial hf
  | b :: next, s, s', saved, h, hl, hs, hf => by
    obtain ⟨s₁, hc, hbug, heq, hs⟩ :=
      compressLoop_cons hl (h.pages b (by rw [hl]; exact List.mem_cons_self)).1 hs
    by_cases hfit : Fits lzo s b
    · rw [← saveListed_cons h hl (findSocket s) (compressed lzo s b.page)]
      refine compressLoop_unfit next (compressRound_inv h hl hfit) rfl hs fun hall => hf ⟨hfit, ?_⟩
      intro s₂ hc₂
      obtain rfl := Option.some.inj (hc.symm.trans hc₂)
      rw [heq]
      exact hall
    · exact unfit_not_kept h hl hbug hfit (compressLoop_suffix next hs)

/-- A step in which every page that is compressed fits when its turn comes. -/
def FittingStep (lzo : Lzo) (areas : Set Place) (t t' : System) : Prop :=
  ∃ op, Step lzo areas op t t' ∧ (op = .compress → FitsAll lzo t.st.pageList t.st)

/-! ### Two pages, one of which grows -/

/-- A page that starts with a one is padded to the worst case of the compressor. -/
def pad (src : List UInt8) : List UInt8 :=
  if src.head? = some 1 then src ++ List.replicate 323 0 else src

def stuffed : Lzo where
  cot_compress := pad
  cot_decompress := List.take PAGE_SIZE
  pos := fun src h => by
    unfold PAGE_SIZE pad at *
    split_ifs
    · rw [List.length_append]
      omega
    · omega
  worst := fun src h => by
    unfold PAGE_SIZE pad at *
    split_ifs
    · rw [List.length_append, List.length_replicate]
      omega
    · omega
  restores := fun src tail h _ => by
    unfold pad
    split_ifs
    · rw [List.append_assoc, ← h, List.take_left]
    · rw [← h, List.take_left]

theorem head_bytes (buf : ℕ → UInt8) : (bytes buf 0 PAGE_SIZE).head? = some (buf 0) := by
  unfold bytes
  rw [List.head?_map, List.head?_range, if_neg (by decide)]
  rfl

theorem stuffed_length (buf : ℕ → UInt8) : (stuffed.cot_compress (bytes buf 0 PAGE_SIZE)).length =
    if buf 0 = 1 then 4419 else 4096 := by
  have hpad : stuffed.cot_compress = pad := rfl
  rw [hpad]
  unfold pad
  rw [head_bytes]
  by_cases h : buf 0 = 1
  · rw [if_pos (congrArg some h), if_pos h, List.length_append, bytes_length, List.length_replicate]
    rfl
  · rw [if_neg (fun heq => h (Option.some.inj heq)), if_neg h, bytes_length]
    rfl

def low : Place := ⟨1, 0x8000⟩
def high : Place := ⟨1, 0x9000⟩

/-- Both pages are mapped. -/
def mapped : State :=
  inserted (inserted (init (fun _ _ => 0) fun _ => 0) low 7) high 8

/-- An empty page, compressed. -/
@[irreducible] def zeros : List UInt8 := stuffed.cot_compress (bytes (fun _ => 0) 0 PAGE_SIZE)

/-- The high page is compressed. -/
def halfway : State where
  pte := Function.update mapped.pte high none
  mem := fun _ _ => 0
  space := write (fun _ => 0) (0 * BISCUITOS_COMPACT_BUCK) zeros
  bitmap := bitmapSet (fun _ => false) 0 64
  compactList := [⟨1, 0x9000, 0, 64⟩]
  pageList := [⟨1, 0x8000, 7, some low⟩]

/-- Both pages are compressed. -/
def packed : State where
  pte := Function.update halfway.pte low none
  mem := fun _ _ => 0
  space := write halfway.space (64 * BISCUITOS_COMPACT_BUCK) zeros
  bitmap := bitmapSet halfway.bitmap 64 64
  compactList := [⟨1, 0x8000, 64, 64⟩, ⟨1, 0x9000, 0, 64⟩]
  pageList := []

/-- The high page has come back and holds a one. -/
def grown : State := store (vmFault stuffed packed high 9) 9 0 1

theorem compressed_zeros (h : s.mem page = fun _ => 0) : compressed stuffed s page = zeros := by
  unfold compressed zeros
  rw [h]

theorem zeros_blocks : blocksOf zeros.length = 64 := by
  have hlen : zeros.length = 4096 := by
    unfold zeros
    rw [stuffed_length, if_neg (by decide)]
  rw [hlen]
  rfl

theorem compress_eq {b : BPage} {index : ℕ} {out : List UInt8} {blocks : ℕ}
    (hi : findSocket s = index) (hn : index ≤ BISCUITOS_COMPACT_NR)
    (ho : compressed lzo s b.page = out) (hb : blocksOf out.length = blocks)
    (hp : b.pte = some b.place) : compress lzo s b = some { s with
      space := write s.space (index * BISCUITOS_COMPACT_BUCK) out
      bitmap := bitmapSet s.bitmap index blocks
      pte := Function.update s.pte b.place none
      compactList := ⟨b.vma, b.address, index, blocks⟩ :: s.compactList } := by
  unfold compress
  rw [hi, ho, hp, if_neg (not_lt.mpr hn)]
  simp only [hb]

def lowPage : BPage := ⟨1, 0x8000, 7, some low⟩
def highPage : BPage := ⟨1, 0x9000, 8, some high⟩

/-- An ioctl with one page on the list. -/
theorem ioctl_single {b : BPage} (hl : s.pageList = [b]) (hc : compress lzo s b = some s') :
    ioctlCompress lzo s = some { s' with pageList := s'.pageList.erase b } := by
  unfold ioctlCompress
  rw [hl, compressLoop, hc]
  rfl

theorem compress_mapped :
    compress stuffed mapped highPage = some { halfway with pageList := [highPage, lowPage] } := by
  have hi : findSocket mapped = 0 := by decide +kernel
  exact compress_eq hi (by decide) (compressed_zeros rfl) zeros_blocks rfl

theorem compress_halfway :
    compress stuffed halfway lowPage = some { packed with pageList := [lowPage] } := by
  have hi : findSocket halfway = 64 := by decide +kernel
  exact compress_eq hi (by decide) (compressed_zeros rfl) zeros_blocks rfl

theorem ioctl_mapped : ioctlCompress stuffed mapped = some packed := by
  have h1 : [highPage, lowPage].erase highPage = [lowPage] := by decide
  have h2 : [lowPage].erase lowPage = [] := by decide
  show compressLoop stuffed [highPage, lowPage] mapped = some packed
  rw [compressLoop, compress_mapped, Option.bind_eq_bind, Option.bind_some, h1]
  show compressLoop stuffed [lowPage] halfway = some packed
  rw [compressLoop, compress_halfway, Option.bind_eq_bind, Option.bind_some, h2]
  rfl

def grownPage : BPage := ⟨1, 0x9000, 9, some high⟩

theorem compressed_grown : (compressed stuffed grown 9).length = 4419 := by
  have hone : grown.mem 9 0 = 1 := rfl
  unfold compressed
  rw [stuffed_length, if_pos hone]

/-- The page that has grown takes the first 70 blocks. -/
theorem ioctl_grown : ∃ s, ioctlCompress stuffed grown = some s ∧
    s.compactList = [⟨1, 0x9000, 0, 70⟩, ⟨1, 0x8000, 64, 64⟩] := by
  have hi : findSocket grown = 0 := by decide +kernel
  have hb : blocksOf (compressed stuffed grown 9).length = 70 := by
    rw [compressed_grown]
    rfl
  have hc := compress_eq (b := grownPage) hi (by decide) rfl hb rfl
  have hl : grown.compactList = [⟨1, 0x8000, 64, 64⟩] := by decide
  rw [hl] at hc
  exact ⟨_, ioctl_single rfl hc, rfl⟩

/-- What is saved with both pages out, and once the high one has come back. -/
def packedSaved : Place → Option (List UInt8) :=
  saveListed mapped (Function.update (Function.update (fun _ => none) low none) high none)
def grownSaved : Place → Option (List UInt8) := Function.update packedSaved high none

theorem fits_zeros {b : BPage} (h : s.mem b.page = fun _ => 0)
    (hc : Lib.Bitmap.Clear s.bitmap BISCUITOS_COMPACT_NR 64 (findSocket s)) : Fits stuffed s b := by
  unfold Fits
  rw [compressed_zeros h, zeros_blocks]
  exact hc

theorem fitsAll_mapped : FitsAll stuffed mapped.pageList mapped := by
  have h1 : Fits stuffed mapped highPage := fits_zeros rfl (findSocket_clear (by decide +kernel))
  have h2 : Fits stuffed halfway lowPage := fits_zeros rfl (findSocket_clear (by decide +kernel))
  have herase : [highPage, lowPage].erase highPage = [lowPage] := by decide
  refine ⟨h1, fun s hs => ?_⟩
  obtain rfl := Option.some.inj (compress_mapped.symm.trans hs)
  show FitsAll stuffed [lowPage] { halfway with pageList := [highPage, lowPage].erase highPage }
  rw [herase]
  exact ⟨h2, fun _ _ => trivial⟩

theorem fitting_packed : Relation.ReflTransGen (FittingStep stuffed Set.univ)
    ⟨init (fun _ _ => 0) fun _ => 0, fun _ => none⟩ ⟨packed, packedSaved⟩ := by
  have hlow : FittingStep stuffed Set.univ ⟨init (fun _ _ => 0) fun _ => 0, fun _ => none⟩
      ⟨vmFault stuffed (init (fun _ _ => 0) fun _ => 0) low 7,
        Function.update (fun _ => none) low none⟩ := by
    refine ⟨.fault, Step.fault trivial fun place hp => ?_, fun h => ?_⟩
    · cases hp
    · cases h
  have hhigh : FittingStep stuffed Set.univ
      ⟨vmFault stuffed (init (fun _ _ => 0) fun _ => 0) low 7,
        Function.update (fun _ => none) low none⟩
      ⟨mapped, Function.update (Function.update (fun _ => none) low none) high none⟩ := by
    refine ⟨.fault, @Step.fault stuffed Set.univ _ _ high 8 trivial fun place hp => ?_, fun h => ?_⟩
    · by_cases hpl : place = low
      · rw [hpl] at hp
        exact absurd hp (by decide)
      · cases (Function.update_of_ne hpl _ _).symm.trans hp
    · cases h
  have hioctl : FittingStep stuffed Set.univ _ ⟨packed, packedSaved⟩ :=
    ⟨.compress, Step.compress ioctl_mapped, fun _ => fitsAll_mapped⟩
  exact ((Relation.ReflTransGen.single hlow).tail hhigh).tail hioctl

theorem packed_pte (place : Place) : packed.pte place = none := by
  by_cases hlow : place = low
  · rw [hlow]
    rfl
  by_cases hhigh : place = high
  · rw [hhigh]
    rfl
  have h1 : packed.pte place = mapped.pte place :=
    (Function.update_of_ne hlow _ _).trans (Function.update_of_ne hhigh _ _)
  have h2 : mapped.pte place = none :=
    (Function.update_of_ne hhigh _ _).trans (Function.update_of_ne hlow _ _)
  exact h1.trans h2

theorem reachable_grown : Reachable stuffed Set.univ (fun _ _ => 0) (fun _ => 0)
    ⟨grown, grownSaved⟩ := by
  have hpacked : Reachable stuffed Set.univ (fun _ _ => 0) (fun _ => 0) ⟨packed, packedSaved⟩ :=
    fitting_packed.lift id fun _ _ ⟨op, hst, _⟩ => ⟨op, hst⟩
  have hfault : Step stuffed Set.univ .fault ⟨packed, packedSaved⟩
      ⟨vmFault stuffed packed high 9, grownSaved⟩ := by
    refine Step.fault trivial fun place hp => ?_
    rw [packed_pte] at hp
    cases hp
  have hstore : Step stuffed Set.univ .store _ ⟨grown, grownSaved⟩ :=
    @Step.store stuffed Set.univ _ _ high 9 0 1 (by decide) (by decide)
  exact (hpacked.tail ⟨_, hfault⟩).tail ⟨_, hstore⟩

/-! ### Runs -/

theorem init_inv (mem : ℕ → ℕ → UInt8) (space : ℕ → UInt8) :
    Inv lzo (init mem space) fun _ => none :=
  ⟨by simp [init], by simp [init], by simp [init], by simp [init], by simp [init], by simp [init],
    by simp [init], by simp [init], by simp⟩

theorem step_inv {areas : Set Place} {t t' : System} (h : Inv lzo t.st t.saved)
    (hst : FittingStep lzo areas t t') : Inv lzo t'.st t'.saved := by
  obtain ⟨op, hst, hf⟩ := hst
  cases hst with
  | store byte hp ho =>
    exact ⟨h.pages, h.nodup, h.places, h.blocks, h.bits, h.below, h.apart, h.out, h.held⟩
  | fault ha hp => exact vmFault_inv h _
  | compress hs => exact compressLoop_inv _ h rfl hs (hf rfl)

/-- **The store keeps the pages** in every state of a run in which all pages that are compressed fit,
and the next ioctl breaks it exactly if its pages do not. -/
theorem fitting_kept {areas : Set Place} {mem : ℕ → ℕ → UInt8} {space : ℕ → UInt8} {t : System}
    (ht : Relation.ReflTransGen (FittingStep lzo areas) ⟨init mem space, fun _ => none⟩ t) :
    Kept lzo t ∧ ∀ t', Step lzo areas .compress t t' →
      (Kept lzo t' ↔ FitsAll lzo t.st.pageList t.st) := by
  have h := Lib.Run.invariant (I := fun t => Inv lzo t.st t.saved) (init_inv mem space)
    (fun _ _ => step_inv) ht
  refine ⟨h.kept, fun t' hst => ?_⟩
  cases hst with
  | compress hs =>
    constructor
    · intro hk
      by_contra hf
      exact compressLoop_unfit _ h rfl hs hf hk
    · intro hf
      exact Inv.kept (t := ⟨_, _⟩) (compressLoop_inv _ h rfl hs hf)

/-- Both pages are compressed and fit. -/
theorem fitting_kept_packed : Kept stuffed ⟨packed, packedSaved⟩ :=
  (fitting_kept fitting_packed).1

/-- **The page that has grown is written over the other one.** -/
theorem not_kept_grown : ¬ ∀ (lzo : Lzo) (areas : Set Place) (mem : ℕ → ℕ → UInt8)
    (space : ℕ → UInt8) (t : System), Reachable lzo areas mem space t → Kept lzo t := by
  intro hall
  obtain ⟨s, hs, hl⟩ := ioctl_grown
  have hk := hall stuffed Set.univ _ _ ⟨s, saveListed grown grownSaved⟩
    (reachable_grown.tail ⟨_, Step.compress hs⟩)
  have hdisj := hk.apart
  rw [show (System.mk s (saveListed grown grownSaved)).st.compactList = _ from hl] at hdisj
  have hhigh : saveListed grown grownSaved high = some (bytes (grown.mem 9) 0 PAGE_SIZE) :=
    if_pos (by decide)
  have hlow : saveListed grown grownSaved low = some (bytes (fun _ => 0) 0 PAGE_SIZE) := by
    have hnot : ¬ Listed grown low := by decide
    have hne : low ≠ high := by decide
    have hlisted : Listed mapped low := by decide
    unfold saveListed grownSaved packedSaved
    rw [if_neg hnot, Function.update_of_ne hne]
    exact if_pos hlisted
  have h1 : 4096 ∈ written stuffed (saveListed grown grownSaved) ⟨1, 0x9000, 0, 70⟩ := by
    refine ⟨_, hhigh, by decide, ?_⟩
    have hone : grown.mem 9 0 = 1 := rfl
    rw [stuffed_length, if_pos hone]
    decide
  have h2 : 4096 ∈ written stuffed (saveListed grown grownSaved) ⟨1, 0x8000, 64, 64⟩ := by
    refine ⟨_, hlow, by decide, ?_⟩
    rw [stuffed_length, if_neg (by decide)]
    decide
  exact Set.disjoint_left.mp ((List.pairwise_cons.mp hdisj).1 _ List.mem_cons_self) h1 h2

end HardStack.Compact.Run
