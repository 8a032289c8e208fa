import HardStack.Swap.Run
import HardStack.Lib.Pager

/-! # What leaks through the swap device

The swap demo as a pager of several mappings. The kernel takes an area's pages out of the page tables
when it is unmapped; the driver has no hook there, so that its records and entries stay. -/

namespace HardStack.Swap.Leak

open HardStack.Swap.Model HardStack.Swap.Run
open HardStack.Lib.Pager (live mem_live live_all live_cons live_sublist)

/-- A page, byte for byte. -/
abbrev Page : Type := Fin PAGE_SIZE → UInt8

def page (buf : ℕ → UInt8) : Page := fun off => buf off

/-- The frame that is allocated holds `c`. -/
def fill (s : State) (frame : ℕ) (c : Page) : State :=
  { s with
    mem := Function.update s.mem frame fun off =>
      if h : off < PAGE_SIZE then c ⟨off, h⟩ else s.mem frame off }

/-- The kernel unmaps an area. -/
def zap (s : State) (vma : ℕ) : State :=
  { s with pte := fun place => if place.vma = vma then none else s.pte place }

/-- The swap demo. An eviction is an ioctl; it is ready for it when there are slots for all pages. -/
def driver : Lib.Pager.Driver ℕ ℕ ℕ Page (Fin PAGE_SIZE × UInt8) State BPage SwapEntry where
  Init s := ∃ mem file, s = init mem file
  pte s vma address := s.pte ⟨vma, address⟩
  mem s frame := page (s.mem frame)
  records s := s.pageList
  recordOf b := (b.vma, b.address)
  frameOf b := b.page
  entries s := s.swapList
  entryOf e := (e.vma, e.address)
  found s vma address :=
    if (s.pte ⟨vma, address⟩).isSome then none
    else s.swapList.find? fun tmp => tmp.address == address && tmp.vma == vma
  write w c := Function.update c w.1 w.2
  store s frame w := store s frame w.1 w.2
  fault s vma address frame c := vmFault (fill s frame c) ⟨vma, address⟩ frame
  evict s s' := ioctlSwapOut s = s'
  unmap := zap
  Ready s := s.swapList.length + s.pageList.length ≤ BISCUITOS_SWAP_NR

/-! ### The invariant up to stale records -/

/-- The driver with another list of pages. -/
def withPages (s : State) (pages : List BPage) : State := { s with pageList := pages }

/-- The pages whose record is not stale. -/
noncomputable def livePages (sr : Set BPage) (s : State) : List BPage := live sr s.pageList

theorem withPages_all {sr : Set BPage} {s : State} (h : ∀ b ∈ s.pageList, b ∉ sr) :
    withPages s (livePages sr s) = s := by
  unfold withPages livePages
  rw [live_all h]

/-- The invariant of the demo once the stale records are left out; every page that is mapped has a
record. -/
structure Holds (sr : Set BPage) (s : State) (saved : ℕ → ℕ → Option Page) : Prop where
  inv : ∃ sv, Inv (withPages s (livePages sr s)) sv ∧
    ∀ vma address, saved vma address = (sv ⟨vma, address⟩).map page
  listed : ∀ place, s.pte place ≠ none → ∃ b ∈ livePages sr s, b.place = place

variable {sr : Set BPage} {s s' : State} {saved : ℕ → ℕ → Option Page} {vma address frame : ℕ}

theorem place_eq {b : BPage} : b.place = ⟨vma, address⟩ ↔ (b.vma, b.address) = (vma, address) := by
  unfold BPage.place
  rw [Place.mk.injEq, Prod.mk.injEq]

theorem entry_place_eq {e : SwapEntry} :
    e.place = ⟨vma, address⟩ ↔ (e.vma, e.address) = (vma, address) := by
  unfold SwapEntry.place
  rw [Place.mk.injEq, Prod.mk.injEq]

theorem Holds.mapped (h : Holds sr s saved) : s.pte ⟨vma, address⟩ ≠ none ↔
    ∃ b ∈ s.pageList, b ∉ sr ∧ (b.vma, b.address) = (vma, address) := by
  obtain ⟨⟨sv, hi, -⟩, hlisted⟩ := h
  constructor
  · intro hp
    obtain ⟨b, hb, hbp⟩ := hlisted _ hp
    exact ⟨b, (mem_live.mp hb).1, (mem_live.mp hb).2, place_eq.mp hbp⟩
  · rintro ⟨b, hb, hsr, hbp⟩
    have := (hi.pages b (mem_live.mpr ⟨hb, hsr⟩)).2
    rw [place_eq.mpr hbp] at this
    exact Option.ne_none_iff_exists'.mpr ⟨_, this⟩

theorem Holds.entries (h : Holds sr s saved) : saved vma address ≠ none ↔
    ∃ e ∈ s.swapList, (e.vma, e.address) = (vma, address) := by
  obtain ⟨⟨sv, hi, hsv⟩, -⟩ := h
  rw [hsv, Ne, Option.map_eq_none_iff]
  constructor
  · intro hne
    obtain ⟨c, hc⟩ := Option.ne_none_iff_exists'.mp hne
    obtain ⟨e, he, hep, -⟩ := hi.held _ c hc
    exact ⟨e, he, entry_place_eq.mp hep⟩
  · rintro ⟨e, he, hep⟩
    obtain ⟨c, hc⟩ := hi.out e he
    rw [entry_place_eq.mpr hep] at hc
    exact Option.ne_none_iff_exists'.mpr ⟨c, hc⟩

theorem Holds.apart (h : Holds sr s saved) (hne : saved vma address ≠ none) :
    s.pte ⟨vma, address⟩ = none := by
  obtain ⟨e, he, hep⟩ := h.entries.mp hne
  obtain ⟨⟨sv, hi, -⟩, -⟩ := h
  rw [← entry_place_eq.mpr hep]
  exact hi.apart e he

/-! ### The operations -/

theorem Holds.of_init (mem : ℕ → ℕ → UInt8) (file : ℕ → UInt8) :
    Holds ∅ (init mem file) fun _ _ => none :=
  ⟨⟨_, init_inv mem file, fun _ _ => rfl⟩, fun _ hp => absurd rfl hp⟩

/-- A store keeps the invariant; so does anything else that changes the memory alone. -/
theorem Holds.of_mem (h : Holds sr s saved) (mem : ℕ → ℕ → UInt8) :
    Holds sr { s with mem := mem } saved := by
  obtain ⟨⟨sv, hi, hsv⟩, hlisted⟩ := h
  exact ⟨⟨sv, ⟨hi.pages, hi.nodup, hi.places, hi.slots, hi.bits, hi.below, hi.apart, hi.out, hi.held⟩,
    hsv⟩, hlisted⟩

theorem Holds.of_fill (h : Holds sr s saved) (c : Page) : Holds sr (fill s frame c) saved :=
  h.of_mem _

theorem page_store (s : State) (frame : ℕ) (w : Fin PAGE_SIZE × UInt8) :
    page ((store s frame w.1 w.2).mem frame) = Function.update (page (s.mem frame)) w.1 w.2 := by
  funext off
  show Function.update s.mem frame _ frame off = _
  rw [Function.update_self]
  by_cases ho : off = w.1
  · rw [ho, Function.update_self, Function.update_self]
  · rw [Function.update_of_ne ho, Function.update_of_ne fun heq => ho (Fin.ext heq)]
    rfl

theorem page_fill (s : State) (frame : ℕ) (c : Page) : page ((fill s frame c).mem frame) = c := by
  funext off
  show Function.update s.mem frame _ frame off = _
  rw [Function.update_self]
  exact dif_pos off.isLt

/-- A fault does not look at the list of pages. -/
theorem vmFault_withPages (h : s.pte ⟨vma, address⟩ = none) (pages : List BPage) :
    vmFault (withPages s pages) ⟨vma, address⟩ frame =
      withPages (vmFault s ⟨vma, address⟩ frame)
        (⟨vma, address, frame, some ⟨vma, address⟩⟩ :: pages) := by
  rw [vmFault_new h, vmFault_new (s := withPages s pages) h]
  simp only [swapIn, inserted, withPages]
  cases s.swapList.find? fun tmp => tmp.address == address && tmp.vma == vma with
  | none => rfl
  | some e => rfl

/-- **A fault** at a page that is not mapped, of a mapping whose page was not left behind. -/
theorem Holds.of_fault (h : Holds sr s saved) (hsr : ∀ b ∈ sr, b ∈ s.pageList)
    (hframe : ∀ b ∈ s.pageList, b.page ≠ frame) (hp : s.pte ⟨vma, address⟩ = none) :
    Holds sr (vmFault s ⟨vma, address⟩ frame) (Lib.Pager.restored saved vma address) := by
  obtain ⟨⟨sv, hi, hsv⟩, hlisted⟩ := h
  have hnew : (⟨vma, address, frame, some ⟨vma, address⟩⟩ : BPage) ∉ sr := fun hb =>
    hframe _ (hsr _ hb) rfl
  have hlive : livePages sr (vmFault s ⟨vma, address⟩ frame) =
      ⟨vma, address, frame, some ⟨vma, address⟩⟩ :: livePages sr s := by
    have hpages : (vmFault s ⟨vma, address⟩ frame).pageList =
        ⟨vma, address, frame, some ⟨vma, address⟩⟩ :: s.pageList :=
      congrArg State.pageList (vmFault_withPages hp s.pageList)
    unfold livePages
    rw [hpages, live_cons hnew]
  have hpte : ∀ place, (vmFault s ⟨vma, address⟩ frame).pte place ≠ none →
      place = ⟨vma, address⟩ ∨ s.pte place ≠ none := by
    intro place hne
    by_cases hpl : place = ⟨vma, address⟩
    · exact Or.inl hpl
    · refine Or.inr ?_
      rcases vmFault_cases hp frame with ⟨e, -, -, heq⟩ | ⟨-, heq⟩
      · rw [heq] at hne
        exact (Function.update_of_ne hpl _ _).symm.trans_ne hne
      · rw [heq] at hne
        exact (Function.update_of_ne hpl _ _).symm.trans_ne hne
  refine ⟨⟨Function.update sv ⟨vma, address⟩ none, ?_, fun vma' address' => ?_⟩, fun place hne => ?_⟩
  · have : Inv (vmFault (withPages s (livePages sr s)) ⟨vma, address⟩ frame)
        (Function.update sv ⟨vma, address⟩ none) := vmFault_inv hi frame
    rw [vmFault_withPages hp] at this
    rw [hlive]
    exact this
  · unfold Lib.Pager.restored
    by_cases hva : vma' = vma ∧ address' = address
    · rw [if_pos hva, hva.1, hva.2, Function.update_self]
      rfl
    · rw [if_neg hva, Function.update_of_ne fun heq => hva (by simpa using heq)]
      exact hsv vma' address'
  · rw [hlive]
    rcases hpte place hne with rfl | hne
    · exact ⟨_, List.mem_cons_self, rfl⟩
    · obtain ⟨b, hb, hbp⟩ := hlisted place hne
      exact ⟨b, List.mem_cons_of_mem _ hb, hbp⟩

/-- What a page holds after a fault that maps it. -/
theorem Holds.fault_mem (h : Holds sr s saved) (hp : s.pte ⟨vma, address⟩ = none) :
    page ((vmFault s ⟨vma, address⟩ frame).mem frame) =
      (saved vma address).getD (page (s.mem frame)) := by
  obtain ⟨⟨sv, hi, hsv⟩, -⟩ := h
  rw [hsv]
  rcases vmFault_cases hp frame with ⟨e, he, hep, heq⟩ | ⟨hno, heq⟩
  · obtain ⟨c, hc⟩ := hi.out e he
    obtain ⟨x, hx, hxp, hfile⟩ := hi.held e.place c hc
    obtain rfl := List.inj_on_of_nodup_map hi.places hx he hxp
    rw [hep] at hc
    rw [heq, hc, Option.map_some, Option.getD_some]
    funext off
    show Function.update s.mem frame _ frame off = _
    rw [Function.update_self]
    unfold kernelRead
    rw [if_pos off.isLt]
    exact hfile off off.isLt
  · have hnone : sv ⟨vma, address⟩ = none := by
      by_contra hne
      obtain ⟨c, hc⟩ := Option.ne_none_iff_exists'.mp hne
      obtain ⟨e, he, hep, -⟩ := hi.held _ c hc
      exact hno e he hep
    rw [heq, hnone]
    rfl

/-- The entries after a fault that maps a page. -/
theorem Holds.fault_entries (h : Holds sr s saved) (hp : s.pte ⟨vma, address⟩ = none)
    {e : SwapEntry} : e ∈ (vmFault s ⟨vma, address⟩ frame).swapList ↔
      e ∈ s.swapList ∧ (e.vma, e.address) ≠ (vma, address) := by
  obtain ⟨⟨sv, hi, -⟩, -⟩ := h
  rw [Ne, ← entry_place_eq]
  rcases vmFault_cases hp frame with ⟨x, hx, hxp, heq⟩ | ⟨hno, heq⟩
  · have hmem : e ∈ s.swapList.erase x ↔ e ≠ x ∧ e ∈ s.swapList :=
      hi.places.of_map.mem_erase_iff
    rw [heq]
    refine hmem.trans ⟨fun ⟨hne, he⟩ => ⟨he, fun hep => hne ?_⟩, fun ⟨he, hep⟩ => ⟨?_, he⟩⟩
    · exact List.inj_on_of_nodup_map hi.places he hx (hep.trans hxp.symm)
    · rintro rfl
      exact hep hxp
  · rw [heq]
    exact ⟨fun he => ⟨he, hno e he⟩, fun he => he.1⟩

/-! ### The ioctl -/

theorem swapOutLoop_pageList : ∀ (pages : List BPage) {s : State}, s.pageList = pages →
    (swapOutLoop pages s).pageList = []
  | [], _, hl => hl
  | b :: next, s, hl => by
    unfold swapOutLoop
    refine swapOutLoop_pageList next ?_
    show s.pageList.erase b = next
    rw [hl, List.erase_cons_head]

theorem swapOutLoop_entries : ∀ (pages : List BPage) {s : State} {e : SwapEntry},
    e ∈ s.swapList → e ∈ (swapOutLoop pages s).swapList
  | [], _, _, he => he
  | b :: next, s, e, he => by
    unfold swapOutLoop
    exact swapOutLoop_entries next (List.mem_cons_of_mem _ he)

/-- The new entries are of pages of the list. -/
theorem swapOutLoop_new : ∀ (pages : List BPage) {s : State} {e : SwapEntry},
    e ∈ (swapOutLoop pages s).swapList → e ∈ s.swapList ∨ ∃ b ∈ pages, b.place = e.place
  | [], _, _, he => Or.inl he
  | b :: next, s, e, he => by
    unfold swapOutLoop at he
    rcases swapOutLoop_new next he with he | ⟨x, hx, hxe⟩
    · rcases List.mem_cons.mp he with rfl | he
      · exact Or.inr ⟨b, List.mem_cons_self, rfl⟩
      · exact Or.inl he
    · exact Or.inr ⟨x, List.mem_cons_of_mem _ hx, hxe⟩

/-- The pages of the list are not mapped any more. -/
theorem swapOutLoop_pte : ∀ (pages : List BPage) {s : State} (place : Place),
    (∀ b ∈ pages, b.pte = some b.place) →
    (swapOutLoop pages s).pte place =
      if ∃ b ∈ pages, b.place = place then none else s.pte place
  | [], s, place, _ => by
    rw [if_neg fun h => absurd h.choose_spec.1 List.not_mem_nil]
    rfl
  | b :: next, s, place, hb => by
    unfold swapOutLoop
    rw [swapOutLoop_pte next place fun x hx => hb x (List.mem_cons_of_mem _ hx)]
    have hpte : (swapOut s b).pte = Function.update s.pte b.place none := by
      unfold swapOut
      simp only [hb b List.mem_cons_self]
    have hiff : (∃ x ∈ b :: next, x.place = place) ↔ b.place = place ∨ ∃ x ∈ next, x.place = place :=
      List.exists_mem_cons_iff ..
    by_cases hnext : ∃ x ∈ next, x.place = place
    · rw [if_pos hnext, if_pos (hiff.mpr (Or.inr hnext))]
    · rw [if_neg hnext]
      show (swapOut s b).pte place = _
      rw [hpte]
      by_cases hpl : b.place = place
      · rw [if_pos (hiff.mpr (Or.inl hpl)), ← hpl, Function.update_self]
      · rw [if_neg fun h => (hiff.mp h).elim hpl hnext, Function.update_of_ne (Ne.symm hpl)]

theorem Holds.ioctl_pte (h : Holds sr s saved) (hsr : ∀ b ∈ s.pageList, b ∉ sr) (place : Place) :
    (ioctlSwapOut s).pte place = none := by
  obtain ⟨⟨sv, hi, -⟩, hlisted⟩ := h
  rw [withPages_all hsr] at hi
  unfold ioctlSwapOut
  rw [swapOutLoop_pte _ place fun b hb => (hi.pages b hb).1]
  by_cases hpl : ∃ b ∈ s.pageList, b.place = place
  · exact if_pos hpl
  · rw [if_neg hpl]
    by_contra hne
    obtain ⟨b, hb, hbp⟩ := hlisted place hne
    exact hpl ⟨b, (mem_live.mp hb).1, hbp⟩

/-- **The ioctl** with enough slots, when no record is stale. -/
theorem Holds.of_ioctl (h : Holds sr s saved) (hsr : ∀ b ∈ s.pageList, b ∉ sr)
    (hn : s.swapList.length + s.pageList.length ≤ BISCUITOS_SWAP_NR) :
    Holds sr (ioctlSwapOut s) (Lib.Pager.evicted driver s saved) := by
  have hpte := h.ioctl_pte hsr
  obtain ⟨⟨sv, hi, hsv⟩, hlisted⟩ := h
  rw [withPages_all hsr] at hi
  have hpages : (ioctlSwapOut s).pageList = [] := swapOutLoop_pageList _ rfl
  refine ⟨⟨saveListed s sv, ?_, fun vma address => ?_⟩, fun place hne => absurd (hpte place) hne⟩
  · rw [withPages_all (by rw [hpages]; exact fun b hb => absurd hb List.not_mem_nil)]
    exact swapOutLoop_inv _ hi rfl hn
  · unfold saveListed content
    cases hp : s.pte ⟨vma, address⟩ with
    | some frame =>
      rw [Lib.Pager.evicted_some (d := driver) hp]
      obtain ⟨b, hb, hbp⟩ := hlisted ⟨vma, address⟩ (by rw [hp]; exact Option.some_ne_none _)
      rw [if_pos ⟨b, (mem_live.mp hb).1, hbp⟩]
      rfl
    | none =>
      have hnot : ¬ Listed s ⟨vma, address⟩ := by
        rintro ⟨b, hb, hbp⟩
        have := (hi.pages b hb).2
        rw [hbp, hp] at this
        cases this
      rw [Lib.Pager.evicted_none (d := driver) hp, if_neg hnot]
      exact hsv vma address

/-- The new entries are of pages that were mapped. -/
theorem Holds.ioctl_new (h : Holds sr s saved) (hsr : ∀ b ∈ s.pageList, b ∉ sr) {e : SwapEntry}
    (he : e ∈ (ioctlSwapOut s).swapList) : e ∈ s.swapList ∨ s.pte e.place ≠ none := by
  rcases swapOutLoop_new _ he with he | ⟨b, hb, hbe⟩
  · exact Or.inl he
  · exact Or.inr (hbe ▸ h.mapped.mpr ⟨b, hb, hsr b hb, rfl⟩)

/-! ### Unmapping -/

/-- **An area is unmapped**: its records are stale from now on. -/
theorem Holds.of_zap (h : Holds sr s saved) (vma : ℕ) :
    Holds (sr ∪ { b | b ∈ s.pageList ∧ b.vma = vma }) (zap s vma) saved := by
  obtain ⟨⟨sv, hi, hsv⟩, hlisted⟩ := h
  have hlive : ∀ {b}, b ∈ livePages (sr ∪ { b | b ∈ s.pageList ∧ b.vma = vma }) (zap s vma) ↔
      b ∈ livePages sr s ∧ b.vma ≠ vma := by
    intro b
    unfold livePages
    rw [mem_live, mem_live]
    show b ∈ s.pageList ∧ ¬ (b ∈ sr ∨ b ∈ s.pageList ∧ b.vma = vma) ↔ _
    tauto
  have hpte : ∀ place, place.vma ≠ vma → (zap s vma).pte place = s.pte place := fun place hne =>
    if_neg hne
  have hnone : ∀ place, s.pte place = none → (zap s vma).pte place = none := by
    intro place hp
    show (if place.vma = vma then none else s.pte place) = none
    rw [hp, ite_self]
  refine ⟨⟨sv, ⟨fun b hb => ?_, ?_, hi.places, hi.slots, hi.bits, hi.below,
    fun e he => hnone _ (hi.apart e he), hi.out, hi.held⟩, hsv⟩, fun place hne => ?_⟩
  · obtain ⟨hb, hv⟩ := hlive.mp hb
    obtain ⟨h1, h2⟩ := hi.pages b hb
    exact ⟨h1, (hpte b.place hv).trans h2⟩
  · exact ((live_sublist Set.subset_union_left s.pageList).map _).nodup hi.nodup
  · have hv : place.vma ≠ vma := fun hv => hne (if_pos hv)
    obtain ⟨b, hb, rfl⟩ := hlisted place (by rwa [hpte place hv] at hne)
    exact ⟨b, hlive.mpr ⟨hb, hv⟩, rfl⟩

/-! ### The driver is lawful -/

theorem found_some {e : SwapEntry} (he : driver.found s vma address = some e) :
    s.pte ⟨vma, address⟩ = none ∧ e ∈ s.swapList ∧ (e.vma, e.address) = (vma, address) := by
  have he : (if (s.pte ⟨vma, address⟩).isSome then none else s.swapList.find? fun tmp =>
    tmp.address == address && tmp.vma == vma) = some e := he
  by_cases hp : (s.pte ⟨vma, address⟩).isSome
  · rw [if_pos hp] at he
    cases he
  · rw [if_neg hp] at he
    have heq := List.find?_some he
    simp only [Bool.and_eq_true, beq_iff_eq] at heq
    exact ⟨Option.not_isSome_iff_eq_none.mp hp, List.mem_of_find?_eq_some he,
      Prod.ext heq.2 heq.1⟩

theorem found_none (hf : driver.found s vma address = none) (hp : s.pte ⟨vma, address⟩ = none)
    (e : SwapEntry) (he : e ∈ s.swapList) : (e.vma, e.address) ≠ (vma, address) := by
  have hf : (if (s.pte ⟨vma, address⟩).isSome then none else s.swapList.find? fun tmp =>
    tmp.address == address && tmp.vma == vma) = none := hf
  rw [hp, if_neg (by decide)] at hf
  have := List.find?_eq_none.mp hf e he
  simp only [Bool.and_eq_true, beq_iff_eq] at this
  exact fun heq => this ⟨congrArg Prod.snd heq, congrArg Prod.fst heq⟩

/-- A fault changes no other frame. -/
theorem fault_other (s : State) (c : Page) {g : ℕ} (hne : g ≠ frame) :
    page ((vmFault (fill s frame c) ⟨vma, address⟩ frame).mem g) = page (s.mem g) := by
  have hfill : (fill s frame c).mem g = s.mem g := Function.update_of_ne hne _ _
  by_cases hp : s.pte ⟨vma, address⟩ = none
  · rcases vmFault_cases (s := fill s frame c) hp frame with ⟨e, -, -, heq⟩ | ⟨-, heq⟩
    · rw [heq]
      exact congrArg page ((Function.update_of_ne hne _ _).trans hfill)
    · rw [heq]
      exact congrArg page hfill
  · rw [vmFault_mapped (s := fill s frame c) hp, hfill]

theorem fault_touch (c : Page) (hp : s.pte ⟨vma, address⟩ ≠ none) :
    vmFault (fill s frame c) ⟨vma, address⟩ frame = fill s frame c :=
  vmFault_mapped (s := fill s frame c) hp

theorem fault_pte (c : Page) (hp : s.pte ⟨vma, address⟩ = none) :
    (fun vma' address' => (vmFault (fill s frame c) ⟨vma, address⟩ frame).pte ⟨vma', address'⟩) =
      fun vma' address' => if vma' = vma ∧ address' = address then some frame
        else s.pte ⟨vma', address'⟩ := by
  funext vma' address'
  have hpte : (vmFault (fill s frame c) ⟨vma, address⟩ frame).pte =
      Function.update s.pte ⟨vma, address⟩ (some frame) := by
    rcases vmFault_cases (s := fill s frame c) hp frame with ⟨e, -, -, heq⟩ | ⟨-, heq⟩
    · rw [heq]
      rfl
    · rw [heq]
      rfl
  rw [hpte]
  by_cases hva : vma' = vma ∧ address' = address
  · rw [if_pos hva, hva.1, hva.2, Function.update_self]
  · rw [if_neg hva, Function.update_of_ne fun heq => hva (by simpa using heq)]

theorem fault_records (c : Page) {b : BPage} (hb : b ∈ s.pageList) :
    b ∈ (vmFault (fill s frame c) ⟨vma, address⟩ frame).pageList := by
  by_cases hp : s.pte ⟨vma, address⟩ = none
  · have hpages : (vmFault (fill s frame c) ⟨vma, address⟩ frame).pageList =
        ⟨vma, address, frame, some ⟨vma, address⟩⟩ :: s.pageList :=
      congrArg State.pageList (vmFault_withPages (s := fill s frame c) hp s.pageList)
    rw [hpages]
    exact List.mem_cons_of_mem _ hb
  · rw [fault_touch c hp]
    exact hb

theorem lawful : Lib.Pager.Lawful driver Holds where
  init := by
    rintro s ⟨mem, file, rfl⟩
    exact Holds.of_init mem file
  init_records := by
    rintro s ⟨mem, file, rfl⟩
    rfl
  mapped h := h.mapped
  entries h := h.entries
  apart h := h.apart
  found_some {s vma address e} he := found_some he
  found_none {s vma address} he hp := found_none he hp
  store_inv frame w h := h.of_mem _
  store_pte _ _ _ := rfl
  store_mem s frame w := page_store s frame w
  store_other s frame w g hne := congrArg page (Function.update_of_ne hne _ _)
  store_records _ _ _ := rfl
  store_entries _ _ _ := rfl
  fault_other s vma address frame c g hne := fault_other s c hne
  touch_inv {sr s saved vma address} frame c h hp := by
    show Holds sr (vmFault (fill s frame c) ⟨vma, address⟩ frame) saved
    rw [fault_touch c hp]
    exact h.of_fill c
  touch_pte frame c hp := congrArg (fun s vma address => s.pte ⟨vma, address⟩) (fault_touch c hp)
  touch_entries {s vma address} frame c hp := by
    show (vmFault (fill s frame c) ⟨vma, address⟩ frame).swapList = s.swapList
    rw [fault_touch c hp]
    rfl
  fault_inv c h hsr hf hp := (h.of_fill c).of_fault hsr hf.2 hp
  fault_pte frame c hp := fault_pte c hp
  fault_mem frame c h hp := ((h.of_fill c).fault_mem hp).trans (by rw [page_fill])
  fault_records frame c hr := fault_records c hr
  fault_entries frame c h hp := (h.of_fill c).fault_entries hp
  evict_inv h hsr hs hn := hs ▸ h.of_ioctl hsr hn
  evict_pte h hsr hs vma address := hs ▸ h.ioctl_pte hsr _
  evict_records hs := hs ▸ swapOutLoop_pageList _ rfl
  evict_entries hs he := hs ▸ swapOutLoop_entries _ he
  evict_new {sr s s' saved e} h hsr hs he := by
    have hs : ioctlSwapOut s = s' := hs
    exact h.ioctl_new hsr (hs ▸ he)
  unmap_inv vma h := h.of_zap vma
  unmap_pte _ _ := rfl
  unmap_mem _ _ := rfl
  unmap_records _ _ := rfl
  unmap_entries _ _ := rfl

def firstByte : Fin PAGE_SIZE := ⟨0, by decide⟩

/-- A page of a mapping that is stored to, swapped out and left behind shows through another one. -/
theorem not_noLeak : ¬ Lib.Pager.NoLeak ℕ driver fun _ _ => True := by
  have hs : driver.Init (init (fun _ _ => 0) fun _ => 0) := ⟨_, _, rfl⟩
  have hne : ∀ c : Page, driver.write (firstByte, 1) c ≠ driver.write (firstByte, 2) c := by
    intro c heq
    have h0 : Function.update c firstByte 1 firstByte = Function.update c firstByte 2 firstByte :=
      congrFun heq firstByte
    rw [Function.update_self, Function.update_self] at h0
    exact absurd h0 (by decide)
  refine lawful.not_noLeak hs 1 0x8000 7 (fun _ => 0) (fun w => ⟨_, rfl, ?_⟩) (hne _)
  show 0 + 1 ≤ BISCUITOS_SWAP_NR
  decide

end HardStack.Swap.Leak
