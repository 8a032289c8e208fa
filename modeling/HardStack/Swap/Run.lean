import HardStack.Swap.Model

/-! # Swapped pages come back as they were

`Inv`: the pages on the list are mapped where they say, the swap entries are of different places and
slots, none of them mapped, the bits set are the slots in use, and the slot of a page that is out
holds what was saved of it. One round of the ioctl moves one page from the one list to the other, and
a fault moves one entry back. -/

namespace HardStack.Swap.Run

open HardStack.Swap.Model

structure Inv (s : State) (saved : Place → Option (ℕ → UInt8)) : Prop where
  pages : ∀ b ∈ s.pageList, b.pte = some b.place ∧ s.pte b.place = some b.page
  nodup : (s.pageList.map BPage.place).Nodup
  places : (s.swapList.map SwapEntry.place).Nodup
  slots : (s.swapList.map SwapEntry.val).Nodup
  bits : ∀ i, s.bitmap i = true ↔ ∃ e ∈ s.swapList, e.val = i
  below : ∀ e ∈ s.swapList, e.val < BISCUITOS_SWAP_NR
  apart : ∀ e ∈ s.swapList, s.pte e.place = none
  out : ∀ e ∈ s.swapList, ∃ c, saved e.place = some c
  held : ∀ place c, saved place = some c → ∃ e ∈ s.swapList, e.place = place ∧
    ∀ off < PAGE_SIZE, s.file (e.val * PAGE_SIZE + off) = c off

variable {s : State} {saved : Place → Option (ℕ → UInt8)} {place : Place} {page : ℕ}

/-! ### The slots -/

theorem findFirstZeroBit_spec (h : findFirstZeroBit s.bitmap < BISCUITOS_SWAP_NR) :
    s.bitmap (findFirstZeroBit s.bitmap) = false := by
  unfold findFirstZeroBit at *
  cases hf : (List.range BISCUITOS_SWAP_NR).find? fun i => !s.bitmap i with
  | none =>
    rw [hf] at h
    exact absurd h (lt_irrefl _)
  | some i => simpa using List.find?_some hf

/-- A slot is free as long as fewer entries are live than there are slots. -/
theorem findFirstZeroBit_lt (h : Inv s saved) (hn : s.swapList.length < BISCUITOS_SWAP_NR) :
    findFirstZeroBit s.bitmap < BISCUITOS_SWAP_NR := by
  unfold findFirstZeroBit
  cases hf : (List.range BISCUITOS_SWAP_NR).find? fun i => !s.bitmap i with
  | some i => exact List.mem_range.mp (List.mem_of_find?_eq_some hf)
  | none =>
    -- otherwise every slot would be one of an entry
    have hall := List.find?_eq_none.mp hf
    have hsub : List.range BISCUITOS_SWAP_NR ⊆ s.swapList.map SwapEntry.val := by
      intro i hi
      have hbit : s.bitmap i = true := by simpa using hall i hi
      obtain ⟨e, he, rfl⟩ := (h.bits i).mp hbit
      exact List.mem_map_of_mem he
    have hle := (List.nodup_range.subperm hsub).length_le
    rw [List.length_range, List.length_map] at hle
    omega

theorem kernelWrite_same (file addr : ℕ → UInt8) (index : ℕ) {off : ℕ} (h : off < PAGE_SIZE) :
    kernelWrite file addr (index * PAGE_SIZE) (index * PAGE_SIZE + off) = addr off := by
  unfold kernelWrite
  rw [if_pos ⟨Nat.le_add_right _ _, by omega⟩, Nat.add_sub_cancel_left]

theorem kernelWrite_other (file addr : ℕ → UInt8) {index i : ℕ} (hne : i ≠ index) {off : ℕ}
    (h : off < PAGE_SIZE) : kernelWrite file addr (index * PAGE_SIZE) (i * PAGE_SIZE + off) =
      file (i * PAGE_SIZE + off) := by
  unfold kernelWrite
  refine if_neg fun hin => ?_
  unfold PAGE_SIZE at *
  omega

/-! ### Swapping out -/

/-- One round of the ioctl: the page goes to the slot `index` and leaves the list. -/
def outRound (s : State) (b : BPage) (next : List BPage) (index : ℕ) : State :=
  { s with
    bitmap := Function.update s.bitmap index true
    file := kernelWrite s.file (s.mem b.page) (index * PAGE_SIZE)
    pte := Function.update s.pte b.place none
    swapList := ⟨b.vma, b.address, index⟩ :: s.swapList
    pageList := next }

theorem swapOutLoop_cons {b : BPage} {next : List BPage} (hl : s.pageList = b :: next)
    (hb : b.pte = some b.place) :
    swapOutLoop (b :: next) s =
      swapOutLoop next (outRound s b next (findFirstZeroBit s.bitmap)) := by
  have herase : (swapOut s b).pageList.erase b = next := by
    show s.pageList.erase b = next
    rw [hl, List.erase_cons_head]
  simp only [swapOutLoop, herase]
  simp only [swapOut, outRound, hb]

theorem outRound_pte (b : BPage) (next : List BPage) (index : ℕ) :
    (outRound s b next index).pte = Function.update s.pte b.place none := rfl

/-- **Swapping a page out** to a slot that is not in use. -/
theorem outRound_inv {b : BPage} {next : List BPage} {index : ℕ} (h : Inv s saved)
    (hl : s.pageList = b :: next) (hlt : index < BISCUITOS_SWAP_NR)
    (hzero : s.bitmap index = false) :
    Inv (outRound s b next index) (Function.update saved b.place (content s b.place)) := by
  obtain ⟨hb, hpte⟩ := h.pages b (by rw [hl]; exact List.mem_cons_self)
  have hnodup := h.nodup
  rw [hl, List.map_cons, List.nodup_cons] at hnodup
  have hnew : ∀ e ∈ s.swapList, e.val ≠ index := by
    intro e he heq
    have := (h.bits _).mpr ⟨e, he, heq⟩
    rw [hzero] at this
    cases this
  have hplace : ∀ e ∈ s.swapList, e.place ≠ b.place := by
    intro e he heq
    have := h.apart e he
    rw [heq, hpte] at this
    cases this
  have hcontent : content s b.place = some (s.mem b.page) := by
    unfold content
    rw [hpte]
    rfl
  have hp := outRound_pte (s := s) b next index
  have hsl : (outRound s b next index).swapList = ⟨b.vma, b.address, index⟩ :: s.swapList := rfl
  refine ⟨fun x hx => ?_, hnodup.2, ?_, ?_, fun i => ?_, fun e he => ?_, fun e he => ?_,
    fun e he => ?_, fun place c hc => ?_⟩
  · obtain ⟨hx1, hx2⟩ := h.pages x (by rw [hl]; exact List.mem_cons_of_mem _ hx)
    have hne : x.place ≠ b.place := fun heq => hnodup.1 (heq ▸ List.mem_map_of_mem hx)
    rw [hp, Function.update_of_ne hne]
    exact ⟨hx1, hx2⟩
  · rw [hsl, List.map_cons, List.nodup_cons]
    refine ⟨fun hm => ?_, h.places⟩
    obtain ⟨e, he, heq⟩ := List.mem_map.mp hm
    exact hplace e he heq
  · rw [hsl, List.map_cons, List.nodup_cons]
    refine ⟨fun hm => ?_, h.slots⟩
    obtain ⟨e, he, heq⟩ := List.mem_map.mp hm
    exact hnew e he heq
  · show Function.update s.bitmap index true i = true ↔
      ∃ e ∈ _ :: s.swapList, e.val = i
    rw [List.exists_mem_cons_iff, ← h.bits i]
    by_cases hi : i = index
    · rw [hi, Function.update_self]
      exact iff_of_true rfl (Or.inl rfl)
    · rw [Function.update_of_ne hi]
      exact (or_iff_right fun heq => hi heq.symm).symm
  · rcases List.mem_cons.mp he with rfl | he
    · exact hlt
    · exact h.below e he
  · rw [hp]
    rcases List.mem_cons.mp he with rfl | he
    · exact Function.update_self _ _ _
    · rw [Function.update_of_ne (hplace e he)]
      exact h.apart e he
  · rcases List.mem_cons.mp he with rfl | he
    · exact ⟨s.mem b.page, (Function.update_self _ _ _).trans hcontent⟩
    · rw [Function.update_of_ne (hplace e he)]
      exact h.out e he
  · by_cases hpl : place = b.place
    · rw [hpl, Function.update_self, hcontent, Option.some.injEq] at hc
      subst hc
      exact ⟨_, List.mem_cons_self, hpl.symm, fun off ho => kernelWrite_same _ _ _ ho⟩
    · rw [Function.update_of_ne hpl] at hc
      obtain ⟨e, he, hep, hfile⟩ := h.held place c hc
      exact ⟨e, List.mem_cons_of_mem _ he, hep, fun off ho =>
        (kernelWrite_other _ _ (hnew e he) ho).trans (hfile off ho)⟩

/-- What is saved after the ioctl: the contents of the pages of the list. -/
def saveListed (s : State) (saved : Place → Option (ℕ → UInt8)) : Place → Option (ℕ → UInt8) :=
  fun place => if Listed s place then content s place else saved place

theorem saveListed_cons {b : BPage} {next : List BPage} (h : Inv s saved)
    (hl : s.pageList = b :: next) (index : ℕ) :
    saveListed (outRound s b next index) (Function.update saved b.place (content s b.place)) =
      saveListed s saved := by
  have hnodup := h.nodup
  rw [hl, List.map_cons, List.nodup_cons] at hnodup
  have hlisted : ∀ place, Listed s place ↔ b.place = place ∨ Listed (outRound s b next index) place := by
    intro place
    unfold Listed
    rw [hl]
    exact List.exists_mem_cons_iff ..
  funext place
  unfold saveListed
  by_cases hpl : place = b.place
  · have hno : ¬ Listed (outRound s b next index) b.place := fun hx =>
      hnodup.1 (List.mem_map.mpr hx)
    rw [hpl, if_neg hno, if_pos ((hlisted _).mpr (Or.inl rfl)), Function.update_self]
  · have hcontent : content (outRound s b next index) place = content s place := by
      unfold content
      rw [outRound_pte, Function.update_of_ne hpl]
      rfl
    rw [hcontent, Function.update_of_ne hpl]
    have hiff := (hlisted place).trans (or_iff_right fun heq => hpl heq.symm)
    by_cases hx : Listed s place
    · rw [if_pos hx, if_pos (hiff.mp hx)]
    · rw [if_neg hx, if_neg fun hy => hx (hiff.mpr hy)]

theorem swapOutLoop_inv : ∀ (pages : List BPage) {s : State} {saved : Place → Option (ℕ → UInt8)},
    Inv s saved → s.pageList = pages → s.swapList.length + pages.length ≤ BISCUITOS_SWAP_NR →
    Inv (swapOutLoop pages s) (saveListed s saved)
  | [], s, saved, h, hl, _ => by
    have hnone : saveListed s saved = saved := by
      funext place
      have hno : ¬ Listed s place := by
        unfold Listed
        rw [hl]
        rintro ⟨b, hb, -⟩
        exact absurd hb List.not_mem_nil
      exact if_neg hno
    rw [hnone]
    exact h
  | b :: next, s, saved, h, hl, hn => by
    rw [List.length_cons] at hn
    have hlt := findFirstZeroBit_lt h (by omega)
    have hzero := findFirstZeroBit_spec hlt
    rw [swapOutLoop_cons hl (h.pages b (by rw [hl]; exact List.mem_cons_self)).1]
    generalize findFirstZeroBit s.bitmap = index at hlt hzero ⊢
    rw [← saveListed_cons h hl index]
    refine swapOutLoop_inv next (outRound_inv h hl hlt hzero) rfl ?_
    show (_ :: s.swapList).length + next.length ≤ _
    rw [List.length_cons]
    omega

/-! ### Swapping in -/

/-- The search of `BiscuitOS_swap_in`. -/
theorem find_entry (s : State) (b : BPage) :
    (∃ e ∈ s.swapList, e.place = b.place ∧ s.swapList.find?
      (fun tmp => tmp.address == b.address && tmp.vma == b.vma) = some e) ∨
    ((∀ e ∈ s.swapList, e.place ≠ b.place) ∧ s.swapList.find?
      (fun tmp => tmp.address == b.address && tmp.vma == b.vma) = none) := by
  have hiff : ∀ e : SwapEntry, (e.address == b.address && e.vma == b.vma) = true ↔
      e.place = b.place := by
    intro e
    simp only [SwapEntry.place, BPage.place, Place.mk.injEq, Bool.and_eq_true, beq_iff_eq]
    exact and_comm
  cases hf : s.swapList.find? fun tmp => tmp.address == b.address && tmp.vma == b.vma with
  | some e =>
    have hsome := List.find?_some hf
    exact Or.inl ⟨e, List.mem_of_find?_eq_some hf, (hiff e).mp hsome, rfl⟩
  | none =>
    exact Or.inr ⟨fun e he heq => List.find?_eq_none.mp hf e he ((hiff e).mpr heq), rfl⟩

/-- The page that a fault maps. -/
def inserted (s : State) (place : Place) (page : ℕ) : State :=
  { s with
    pte := Function.update s.pte place (some page)
    pageList := ⟨place.vma, place.address, page, some place⟩ :: s.pageList }

theorem vmFault_mapped (h : s.pte place ≠ none) : vmFault s place page = s := by
  unfold vmFault vmInsertPage
  rw [if_pos (Option.isSome_iff_ne_none.mpr h)]

theorem vmFault_new (h : s.pte place = none) : vmFault s place page =
    swapIn (inserted s place page) ⟨place.vma, place.address, page, some place⟩ := by
  unfold vmFault vmInsertPage
  rw [if_neg (by rw [h]; decide)]
  simp only [Function.update_self, Option.isSome_some, if_true]
  rfl

/-- A fault at a place that is out, and one at a place that is not. -/
theorem vmFault_cases (hp : s.pte place = none) (page : ℕ) :
    (∃ e ∈ s.swapList, e.place = place ∧ vmFault s place page = { inserted s place page with
      mem := Function.update s.mem page (kernelRead s.file (s.mem page) (e.val * PAGE_SIZE))
      bitmap := Function.update s.bitmap e.val false
      swapList := s.swapList.erase e }) ∨
    ((∀ e ∈ s.swapList, e.place ≠ place) ∧ vmFault s place page = inserted s place page) := by
  rw [vmFault_new hp]
  unfold swapIn
  rcases find_entry (inserted s place page)
    ⟨place.vma, place.address, page, some place⟩ with ⟨e, he, hep, hf⟩ | ⟨hno, hf⟩
  · rw [hf]
    exact Or.inl ⟨e, he, hep, rfl⟩
  · rw [hf]
    exact Or.inr ⟨hno, rfl⟩

/-- The pages of the list after a fault that maps one. -/
theorem inserted_pages (h : Inv s saved) (hp : s.pte place = none) (page : ℕ) :
    (∀ b ∈ (inserted s place page).pageList,
      b.pte = some b.place ∧ (inserted s place page).pte b.place = some b.page) ∧
    ((inserted s place page).pageList.map BPage.place).Nodup := by
  have hne : ∀ b ∈ s.pageList, b.place ≠ place := by
    intro b hb heq
    have := (h.pages b hb).2
    rw [heq, hp] at this
    cases this
  refine ⟨List.forall_mem_cons.mpr ⟨⟨rfl, Function.update_self _ _ _⟩, fun b hb => ?_⟩,
    List.nodup_cons.mpr ⟨fun hm => ?_, h.nodup⟩⟩
  · obtain ⟨h1, h2⟩ := h.pages b hb
    exact ⟨h1, (Function.update_of_ne (hne b hb) _ _).trans h2⟩
  · obtain ⟨b, hb, heq⟩ := List.mem_map.mp hm
    exact hne b hb heq

/-- **A page fault.** -/
theorem vmFault_inv (h : Inv s saved) (page : ℕ) :
    Inv (vmFault s place page) (Function.update saved place none) := by
  by_cases hp : s.pte place = none
  swap
  · -- nothing is out at a place that is mapped
    have hnone : saved place = none := by
      by_contra hne
      obtain ⟨c, hc⟩ := Option.ne_none_iff_exists'.mp hne
      obtain ⟨e, he, rfl, -⟩ := h.held place c hc
      exact hp (h.apart e he)
    rw [vmFault_mapped hp, ← hnone, Function.update_eq_self]
    exact h
  obtain ⟨hpages, hnodup⟩ := inserted_pages h hp page
  rcases vmFault_cases hp page with ⟨e, he, rfl, heq⟩ | ⟨hno, heq⟩
  · have hmem : ∀ x, x ∈ s.swapList.erase e ↔ x ≠ e ∧ x ∈ s.swapList := fun x =>
      h.places.of_map.mem_erase_iff
    have hplace : ∀ x ∈ s.swapList.erase e, x.place ≠ e.place := fun x hx hxe =>
      ((hmem x).mp hx).1 (List.inj_on_of_nodup_map h.places ((hmem x).mp hx).2 he hxe)
    have hslot : ∀ x ∈ s.swapList.erase e, x.val ≠ e.val := fun x hx hxe =>
      ((hmem x).mp hx).1 (List.inj_on_of_nodup_map h.slots ((hmem x).mp hx).2 he hxe)
    rw [heq]
    refine ⟨hpages, hnodup, (List.erase_sublist.map _).nodup h.places,
      (List.erase_sublist.map _).nodup h.slots, fun i => ?_, fun x hx => h.below x ((hmem x).mp hx).2,
      fun x hx => ?_, fun x hx => ?_, fun place c hc => ?_⟩
    · show Function.update s.bitmap e.val false i = true ↔ ∃ x ∈ s.swapList.erase e, x.val = i
      by_cases hi : i = e.val
      · rw [hi, Function.update_self]
        exact iff_of_false (by decide) fun hx => hslot hx.choose hx.choose_spec.1 hx.choose_spec.2
      · rw [Function.update_of_ne hi, h.bits i]
        constructor
        · rintro ⟨x, hx, rfl⟩
          exact ⟨x, (hmem x).mpr ⟨fun hxe => hi (by rw [hxe]), hx⟩, rfl⟩
        · rintro ⟨x, hx, rfl⟩
          exact ⟨x, ((hmem x).mp hx).2, rfl⟩
    · exact (Function.update_of_ne (hplace x hx) _ _).trans (h.apart x ((hmem x).mp hx).2)
    · rw [Function.update_of_ne (hplace x hx)]
      exact h.out x ((hmem x).mp hx).2
    · have hne : place ≠ e.place := by
        rintro rfl
        rw [Function.update_self] at hc
        cases hc
      rw [Function.update_of_ne hne] at hc
      obtain ⟨x, hx, rfl, hfile⟩ := h.held place c hc
      exact ⟨x, (hmem x).mpr ⟨fun hxe => hne (by rw [hxe]), hx⟩, rfl, hfile⟩
  · have hnone : saved place = none := by
      by_contra hne
      obtain ⟨c, hc⟩ := Option.ne_none_iff_exists'.mp hne
      obtain ⟨e, he, hep, -⟩ := h.held place c hc
      exact hno e he hep
    rw [heq, ← hnone, Function.update_eq_self]
    exact ⟨hpages, hnodup, h.places, h.slots, h.bits, h.below,
      fun e he => (Function.update_of_ne (hno e he) _ _).trans (h.apart e he), h.out, h.held⟩

/-- After a fault at a place that is out, the page holds what was saved. -/
theorem vmFault_restores (h : Inv s saved) {c : ℕ → UInt8} (hc : saved place = some c) (page : ℕ) :
    ∃ after, content (vmFault s place page) place = some after ∧
      ∀ off < PAGE_SIZE, after off = c off := by
  obtain ⟨e, he, hep, hfile⟩ := h.held place c hc
  have hp : s.pte place = none := hep ▸ h.apart e he
  rcases vmFault_cases hp page with ⟨e', he', hep', heq⟩ | ⟨hno, -⟩
  · obtain rfl := List.inj_on_of_nodup_map h.places he he' (hep.trans hep'.symm)
    refine ⟨kernelRead s.file (s.mem page) (e.val * PAGE_SIZE), ?_, fun off ho => ?_⟩
    · rw [heq]
      show Option.map _ (Function.update s.pte place (some page) place) = _
      rw [Function.update_self, Option.map_some]
      show some (Function.update s.mem page _ page) = _
      rw [Function.update_self]
    · unfold kernelRead
      rw [if_pos ho]
      exact hfile off ho
  · exact absurd hep (hno e he)

/-! ### Runs -/

/-- What holds of the swap space: no two live entries share a slot or a place, the bits set are the
slots in use, no place of an entry is mapped, and a fault at a place that is out brings the page back
as it was when it was swapped out. -/
structure Preserved (t : System) : Prop where
  slots : t.st.swapList.Pairwise fun a b => a.val ≠ b.val
  places : t.st.swapList.Pairwise fun a b => a.place ≠ b.place
  bits : ∀ i < BISCUITOS_SWAP_NR, t.st.bitmap i = true ↔ ∃ e ∈ t.st.swapList, e.val = i
  apart : ∀ e ∈ t.st.swapList, t.st.pte e.place = none
  out : ∀ place, (∃ c, t.saved place = some c) ↔ ∃ e ∈ t.st.swapList, e.place = place
  restored : ∀ place c page, t.saved place = some c → FreshPage t.st page →
    ∃ after, content (vmFault t.st place page) place = some after ∧
      ∀ off < PAGE_SIZE, after off = c off

theorem Inv.preserved {t : System} (h : Inv t.st t.saved) : Preserved t := by
  refine ⟨List.pairwise_map.mp h.slots, List.pairwise_map.mp h.places, fun i _ => h.bits i, h.apart,
    fun place => ⟨?_, ?_⟩, fun place c page hc _ => vmFault_restores h hc page⟩
  · rintro ⟨c, hc⟩
    obtain ⟨e, he, hep, -⟩ := h.held place c hc
    exact ⟨e, he, hep⟩
  · rintro ⟨e, he, rfl⟩
    exact h.out e he

theorem init_inv (mem : ℕ → ℕ → UInt8) (file : ℕ → UInt8) : Inv (init mem file) fun _ => none :=
  ⟨by simp [init], by simp [init], by simp [init], by simp [init], by simp [init], by simp [init],
    by simp [init], by simp [init], by simp⟩

theorem step_inv {areas : Set Place} {t t' : System} (h : Inv t.st t.saved) (hst : Step areas t t') :
    Inv t'.st t'.saved := by
  cases hst with
  | store byte hp ho =>
    exact ⟨h.pages, h.nodup, h.places, h.slots, h.bits, h.below, h.apart, h.out, h.held⟩
  | fault ha hp => exact vmFault_inv h _
  | swapOut hn => exact swapOutLoop_inv _ h rfl hn

/-- **The swap device preserves the pages** in every state that a run reaches. -/
theorem reachable_preserved {areas : Set Place} {mem : ℕ → ℕ → UInt8} {file : ℕ → UInt8}
    {t : System} (ht : Reachable areas mem file t) : Preserved t :=
  (Lib.Run.invariant (I := fun t => Inv t.st t.saved) (init_inv mem file) (fun _ _ => step_inv)
    ht).preserved

/-- A fault at one page and a store to it. -/
def stored : State :=
  store (vmFault (init (fun _ _ => 0) fun _ => 0) ⟨1, 0x8000⟩ 7) 7 0 88

/-- The page is swapped out. -/
theorem preserved_stored : Preserved ⟨ioctlSwapOut stored, fun place =>
    if Listed stored place then content stored place
    else Function.update (fun _ => none) ⟨1, 0x8000⟩ none place⟩ := by
  have hfault : Step Set.univ ⟨init (fun _ _ => 0) fun _ => 0, fun _ => none⟩
      ⟨vmFault (init (fun _ _ => 0) fun _ => 0) ⟨1, 0x8000⟩ 7,
        Function.update (fun _ => none) ⟨1, 0x8000⟩ none⟩ :=
    Step.fault trivial fun place hp => by cases hp
  have hpage : (vmFault (init (fun _ _ => 0) fun _ => 0) ⟨1, 0x8000⟩ 7).pte ⟨1, 0x8000⟩ = some 7 := by
    decide
  have hstore : Step Set.univ _ ⟨stored, Function.update (fun _ => none) ⟨1, 0x8000⟩ none⟩ :=
    Step.store 88 hpage (show 0 < PAGE_SIZE by decide)
  have hlen : stored.swapList.length + stored.pageList.length ≤ BISCUITOS_SWAP_NR := by decide
  exact reachable_preserved (((Relation.ReflTransGen.single hfault).tail hstore).tail
    (Step.swapOut hlen))

end HardStack.Swap.Run
