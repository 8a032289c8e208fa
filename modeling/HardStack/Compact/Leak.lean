import HardStack.Compact.Run
import HardStack.Swap.Leak

/-! # What leaks through compressed memory

The compressed memory demo as a pager of several mappings; as in the swap demo, the driver has no
hook where an area is unmapped. An eviction is ready when all pages of the list fit. -/

namespace HardStack.Compact.Leak

open HardStack.Compact.Model HardStack.Compact.Run
open HardStack.Lib.Pager (live mem_live live_all live_cons live_sublist)

/-- A page, byte for byte. -/
abbrev Page : Type := Fin PAGE_SIZE → UInt8

def page (buf : ℕ → UInt8) : Page := fun off => buf off

/-- The page that a buffer of the decompressor holds. -/
def toPage (src : List UInt8) : Page := fun off => src.getD off 0

/-- The frame that is allocated holds `c`. -/
def fill (s : State) (frame : ℕ) (c : Page) : State :=
  { s with
    mem := Function.update s.mem frame fun off =>
      if h : off < PAGE_SIZE then c ⟨off, h⟩ else s.mem frame off }

/-- The kernel unmaps an area. -/
def zap (s : State) (vma : ℕ) : State :=
  { s with pte := fun place => if place.vma = vma then none else s.pte place }

/-- The compressed memory demo. -/
def driver (lzo : Lzo) :
    Lib.Pager.Driver ℕ ℕ ℕ Page (Fin PAGE_SIZE × UInt8) State BPage Socket where
  Init s := ∃ mem space, s = init mem space
  pte s vma address := s.pte ⟨vma, address⟩
  mem s frame := page (s.mem frame)
  records s := s.pageList
  recordOf b := (b.vma, b.address)
  frameOf b := b.page
  entries s := s.compactList
  entryOf a := (a.vma, a.address)
  found s vma address :=
    if (s.pte ⟨vma, address⟩).isSome then none
    else s.compactList.find? fun tmp => tmp.address == address && tmp.vma == vma
  write w c := Function.update c w.1 w.2
  store s frame w := store s frame w.1 w.2
  fault s vma address frame c := vmFault lzo (fill s frame c) ⟨vma, address⟩ frame
  evict s s' := ioctlCompress lzo s = some s'
  unmap := zap
  Ready s := FitsAll lzo s.pageList s

/-! ### The invariant up to stale records -/

/-- The driver with another list of pages. -/
def withPages (s : State) (pages : List BPage) : State := { s with pageList := pages }

/-- The pages whose record is not stale. -/
noncomputable def livePages (sr : Set BPage) (s : State) : List BPage := live sr s.pageList

theorem withPages_all {sr : Set BPage} {s : State} (h : ∀ b ∈ s.pageList, b ∉ sr) :
    withPages s (livePages sr s) = s := by
  unfold withPages livePages
  rw [live_all h]

/-- The invariant of the demo once the stale records are left out; every page that is mapped has a
record. -/
structure Holds (lzo : Lzo) (sr : Set BPage) (s : State) (saved : ℕ → ℕ → Option Page) : Prop where
  inv : ∃ sv, Inv lzo (withPages s (livePages sr s)) sv ∧
    ∀ vma address, saved vma address = (sv ⟨vma, address⟩).map toPage
  listed : ∀ place, s.pte place ≠ none → ∃ b ∈ livePages sr s, b.place = place

variable {lzo : Lzo} {sr : Set BPage} {s s' : State} {saved : ℕ → ℕ → Option Page} {vma address frame : ℕ}

theorem place_eq {b : BPage} : b.place = ⟨vma, address⟩ ↔ (b.vma, b.address) = (vma, address) := by
  unfold BPage.place
  rw [Place.mk.injEq, Prod.mk.injEq]

theorem socket_place_eq {e : Socket} :
    e.place = ⟨vma, address⟩ ↔ (e.vma, e.address) = (vma, address) := by
  unfold Socket.place
  rw [Place.mk.injEq, Prod.mk.injEq]

theorem Holds.mapped (h : Holds lzo sr s saved) : s.pte ⟨vma, address⟩ ≠ none ↔
    ∃ b ∈ s.pageList, b ∉ sr ∧ (b.vma, b.address) = (vma, address) := by
  obtain ⟨⟨sv, hi, -⟩, hlisted⟩ := h
  constructor
  · intro hp
    obtain ⟨b, hb, hbp⟩ := hlisted _ hp
    exact ⟨b, (mem_live.mp hb).1, (mem_live.mp hb).2, place_eq.mp hbp⟩
  · rintro ⟨b, hb, hsr, hbp⟩
    have := (hi.pages b (mem_live.mpr ⟨hb, hsr⟩)).2
    rw [place_eq.mpr hbp] at this
    exact Option.ne_none_iff_exists'.mpr ⟨_, this⟩

theorem Holds.entries (h : Holds lzo sr s saved) : saved vma address ≠ none ↔
    ∃ e ∈ s.compactList, (e.vma, e.address) = (vma, address) := by
  obtain ⟨⟨sv, hi, hsv⟩, -⟩ := h
  rw [hsv, Ne, Option.map_eq_none_iff]
  constructor
  · intro hne
    obtain ⟨c, hc⟩ := Option.ne_none_iff_exists'.mp hne
    obtain ⟨e, he, hep⟩ := hi.held _ c hc
    exact ⟨e, he, socket_place_eq.mp hep⟩
  · rintro ⟨e, he, hep⟩
    obtain ⟨c, hc, -⟩ := hi.out e he
    rw [socket_place_eq.mpr hep] at hc
    exact Option.ne_none_iff_exists'.mpr ⟨c, hc⟩

theorem Holds.apart (h : Holds lzo sr s saved) (hne : saved vma address ≠ none) :
    s.pte ⟨vma, address⟩ = none := by
  obtain ⟨e, he, hep⟩ := h.entries.mp hne
  obtain ⟨⟨sv, hi, -⟩, -⟩ := h
  rw [← socket_place_eq.mpr hep]
  exact hi.apart e he

/-! ### The operations -/

theorem Holds.of_init (mem : ℕ → ℕ → UInt8) (space : ℕ → UInt8) :
    Holds lzo ∅ (init mem space) fun _ _ => none :=
  ⟨⟨_, init_inv mem space, fun _ _ => rfl⟩, fun _ hp => absurd rfl hp⟩

/-- A store keeps the invariant; so does anything else that changes the memory alone. -/
theorem Holds.of_mem (h : Holds lzo sr s saved) (mem : ℕ → ℕ → UInt8) :
    Holds lzo sr { s with mem := mem } saved := by
  obtain ⟨⟨sv, hi, hsv⟩, hlisted⟩ := h
  exact ⟨⟨sv, ⟨hi.pages, hi.nodup, hi.places, hi.blocks, hi.bits, hi.below, hi.apart, hi.out, hi.held⟩,
    hsv⟩, hlisted⟩

theorem Holds.of_fill (h : Holds lzo sr s saved) (c : Page) : Holds lzo sr (fill s frame c) saved :=
  h.of_mem _

theorem page_store (s : State) (frame : ℕ) (w : Fin PAGE_SIZE × UInt8) :
    page ((store s frame w.1 w.2).mem frame) = Function.update (page (s.mem frame)) w.1 w.2 := by
  funext off
  show Function.update s.mem frame _ frame off = _
  rw [Function.update_self]
  by_cases ho : off = w.1
  · rw [ho, Function.update_self, Function.update_self]
  · rw [Function.update_of_ne ho, Function.update_of_ne fun heq => ho (Fin.ext heq)]
    rfl

theorem page_fill (s : State) (frame : ℕ) (c : Page) : page ((fill s frame c).mem frame) = c := by
  funext off
  show Function.update s.mem frame _ frame off = _
  rw [Function.update_self]
  exact dif_pos off.isLt

/-- A fault does not look at the list of pages. -/
theorem vmFault_withPages (h : s.pte ⟨vma, address⟩ = none) (pages : List BPage) :
    vmFault lzo (withPages s pages) ⟨vma, address⟩ frame =
      withPages (vmFault lzo s ⟨vma, address⟩ frame)
        (⟨vma, address, frame, some ⟨vma, address⟩⟩ :: pages) := by
  rw [vmFault_new h, vmFault_new (s := withPages s pages) h]
  simp only [decompress, inserted, withPages]
  cases s.compactList.find? fun tmp => tmp.address == address && tmp.vma == vma with
  | none => rfl
  | some e => rfl

/-- **A fault** at a page that is not mapped, of a mapping whose page was not left behind. -/
theorem Holds.of_fault (h : Holds lzo sr s saved) (hsr : ∀ b ∈ sr, b ∈ s.pageList)
    (hframe : ∀ b ∈ s.pageList, b.page ≠ frame) (hp : s.pte ⟨vma, address⟩ = none) :
    Holds lzo sr (vmFault lzo s ⟨vma, address⟩ frame) (Lib.Pager.restored saved vma address) := by
  obtain ⟨⟨sv, hi, hsv⟩, hlisted⟩ := h
  have hnew : (⟨vma, address, frame, some ⟨vma, address⟩⟩ : BPage) ∉ sr := fun hb =>
    hframe _ (hsr _ hb) rfl
  have hlive : livePages sr (vmFault lzo s ⟨vma, address⟩ frame) =
      ⟨vma, address, frame, some ⟨vma, address⟩⟩ :: livePages sr s := by
    have hpages : (vmFault lzo s ⟨vma, address⟩ frame).pageList =
        ⟨vma, address, frame, some ⟨vma, address⟩⟩ :: s.pageList :=
      congrArg State.pageList (vmFault_withPages hp s.pageList)
    unfold livePages
    rw [hpages, live_cons hnew]
  have hpte : ∀ place, (vmFault lzo s ⟨vma, address⟩ frame).pte place ≠ none →
      place = ⟨vma, address⟩ ∨ s.pte place ≠ none := by
    intro place hne
    by_cases hpl : place = ⟨vma, address⟩
    · exact Or.inl hpl
    · refine Or.inr ?_
      rcases vmFault_cases lzo hp frame with ⟨e, -, -, heq⟩ | ⟨-, heq⟩
      · rw [heq] at hne
        exact (Function.update_of_ne hpl _ _).symm.trans_ne hne
      · rw [heq] at hne
        exact (Function.update_of_ne hpl _ _).symm.trans_ne hne
  refine ⟨⟨Function.update sv ⟨vma, address⟩ none, ?_, fun vma' address' => ?_⟩, fun place hne => ?_⟩
  · have : Inv lzo (vmFault lzo (withPages s (livePages sr s)) ⟨vma, address⟩ frame)
        (Function.update sv ⟨vma, address⟩ none) := vmFault_inv hi frame
    rw [vmFault_withPages hp] at this
    rw [hlive]
    exact this
  · unfold Lib.Pager.restored
    by_cases hva : vma' = vma ∧ address' = address
    · rw [if_pos hva, hva.1, hva.2, Function.update_self]
      rfl
    · rw [if_neg hva, Function.update_of_ne fun heq => hva (by simpa using heq)]
      exact hsv vma' address'
  · rw [hlive]
    rcases hpte place hne with rfl | hne
    · exact ⟨_, List.mem_cons_self, rfl⟩
    · obtain ⟨b, hb, hbp⟩ := hlisted place hne
      exact ⟨b, List.mem_cons_of_mem _ hb, hbp⟩

theorem page_write (buf : ℕ → UInt8) {src : List UInt8} (h : src.length = PAGE_SIZE) :
    page (write buf 0 src) = toPage src := by
  funext off
  have hlt : (off : ℕ) < src.length := by
    rw [h]
    exact off.isLt
  unfold page write toPage
  rw [if_pos (Nat.zero_le _), Nat.sub_zero, List.getD_eq_getElem?_getD,
    List.getElem?_eq_getElem hlt]
  rfl

/-- What a page holds after a fault that maps it. -/
theorem Holds.fault_mem (h : Holds lzo sr s saved) (hp : s.pte ⟨vma, address⟩ = none) :
    page ((vmFault lzo s ⟨vma, address⟩ frame).mem frame) =
      (saved vma address).getD (page (s.mem frame)) := by
  obtain ⟨⟨sv, hi, hsv⟩, -⟩ := h
  rw [hsv]
  rcases vmFault_cases lzo hp frame with ⟨a, ha, hap, heq⟩ | ⟨hno, heq⟩
  · obtain ⟨c, hc, hlen, -⟩ := hi.out a ha
    have hrest : lzo.cot_decompress (handed s a) = c := handed_decompress hi ha hc
    rw [hap] at hc
    have hmem : (vmFault lzo s ⟨vma, address⟩ frame).mem frame = write (s.mem frame) 0 c := by
      rw [heq, ← hrest]
      exact Function.update_self _ _ _
    rw [hmem, hc, page_write _ hlen]
    rfl
  · have hnone : sv ⟨vma, address⟩ = none := by
      by_contra hne
      obtain ⟨c, hc⟩ := Option.ne_none_iff_exists'.mp hne
      obtain ⟨a, ha, hap⟩ := hi.held _ c hc
      exact hno a ha hap
    rw [heq, hnone]
    rfl

/-- The entries after a fault that maps a page. -/
theorem Holds.fault_entries (h : Holds lzo sr s saved) (hp : s.pte ⟨vma, address⟩ = none)
    {e : Socket} : e ∈ (vmFault lzo s ⟨vma, address⟩ frame).compactList ↔
      e ∈ s.compactList ∧ (e.vma, e.address) ≠ (vma, address) := by
  obtain ⟨⟨sv, hi, -⟩, -⟩ := h
  rw [Ne, ← socket_place_eq]
  rcases vmFault_cases lzo hp frame with ⟨x, hx, hxp, heq⟩ | ⟨hno, heq⟩
  · have hmem : e ∈ s.compactList.erase x ↔ e ≠ x ∧ e ∈ s.compactList :=
      hi.places.of_map.mem_erase_iff
    rw [heq]
    refine hmem.trans ⟨fun ⟨hne, he⟩ => ⟨he, fun hep => hne ?_⟩, fun ⟨he, hep⟩ => ⟨?_, he⟩⟩
    · exact List.inj_on_of_nodup_map hi.places he hx (hep.trans hxp.symm)
    · rintro rfl
      exact hep hxp
  · rw [heq]
    exact ⟨fun he => ⟨he, hno e he⟩, fun he => he.1⟩

/-! ### The ioctl -/

theorem compress_some {b : BPage} (hc : compress lzo s b = some s') :
    s'.pageList = s.pageList ∧
      ∃ a : Socket, a.place = b.place ∧ s'.compactList = a :: s.compactList := by
  unfold compress at hc
  by_cases hbug : BISCUITOS_COMPACT_NR < findSocket s
  · simp only [if_pos hbug, reduceCtorEq] at hc
  · simp only [if_neg hbug, Option.some.injEq] at hc
    rw [← hc]
    exact ⟨rfl, _, rfl, rfl⟩

theorem compressLoop_pageList : ∀ (pages : List BPage) {s s' : State}, s.pageList = pages →
    compressLoop lzo pages s = some s' → s'.pageList = []
  | [], _, _, hl, hs => Option.some.inj hs ▸ hl
  | b :: next, s, s', hl, hs => by
    obtain ⟨s₁, hc, hs⟩ := Option.bind_eq_some_iff.mp hs
    refine compressLoop_pageList next ?_ hs
    show s₁.pageList.erase b = next
    rw [(compress_some hc).1, hl, List.erase_cons_head]

/-- The new sockets are of pages of the list. -/
theorem compressLoop_new : ∀ (pages : List BPage) {s s' : State} {a : Socket},
    compressLoop lzo pages s = some s' → a ∈ s'.compactList →
    a ∈ s.compactList ∨ ∃ b ∈ pages, b.place = a.place
  | [], _, _, _, hs, ha => Or.inl (Option.some.inj hs ▸ ha)
  | b :: next, s, s', a, hs, ha => by
    obtain ⟨s₁, hc, hs⟩ := Option.bind_eq_some_iff.mp hs
    rcases compressLoop_new next hs ha with ha | ⟨x, hx, hxa⟩
    · obtain ⟨-, x, hxb, hl⟩ := compress_some hc
      have ha : a ∈ s₁.compactList := ha
      rw [hl] at ha
      rcases List.mem_cons.mp ha with rfl | ha
      · exact Or.inr ⟨b, List.mem_cons_self, hxb.symm⟩
      · exact Or.inl ha
    · exact Or.inr ⟨x, List.mem_cons_of_mem _ hx, hxa⟩

/-- The pages of the list are not mapped any more. -/
theorem compressLoop_pte : ∀ (pages : List BPage) {s s' : State} (place : Place),
    (∀ b ∈ pages, b.pte = some b.place) → compressLoop lzo pages s = some s' →
    s'.pte place = if ∃ b ∈ pages, b.place = place then none else s.pte place
  | [], s, s', place, _, hs => by
    rw [if_neg fun h => absurd h.choose_spec.1 List.not_mem_nil, Option.some.inj hs]
  | b :: next, s, s', place, hb, hs => by
    obtain ⟨s₁, hc, hs⟩ := Option.bind_eq_some_iff.mp hs
    rw [compressLoop_pte next place (fun x hx => hb x (List.mem_cons_of_mem _ hx)) hs]
    have hpte : s₁.pte = Function.update s.pte b.place none := by
      unfold compress at hc
      by_cases hbug : BISCUITOS_COMPACT_NR < findSocket s
      · simp only [if_pos hbug, reduceCtorEq] at hc
      · simp only [if_neg hbug, Option.some.injEq, hb b List.mem_cons_self] at hc
        rw [← hc]
    have hiff : (∃ x ∈ b :: next, x.place = place) ↔ b.place = place ∨ ∃ x ∈ next, x.place = place :=
      List.exists_mem_cons_iff ..
    by_cases hnext : ∃ x ∈ next, x.place = place
    · rw [if_pos hnext, if_pos (hiff.mpr (Or.inr hnext))]
    · rw [if_neg hnext]
      show s₁.pte place = _
      rw [hpte]
      by_cases hpl : b.place = place
      · rw [if_pos (hiff.mpr (Or.inl hpl)), ← hpl, Function.update_self]
      · rw [if_neg fun h => (hiff.mp h).elim hpl hnext, Function.update_of_ne (Ne.symm hpl)]

theorem Holds.ioctl_pte (h : Holds lzo sr s saved) (hsr : ∀ b ∈ s.pageList, b ∉ sr)
    (hs : ioctlCompress lzo s = some s') (place : Place) : s'.pte place = none := by
  obtain ⟨⟨sv, hi, -⟩, hlisted⟩ := h
  rw [withPages_all hsr] at hi
  rw [compressLoop_pte _ place (fun b hb => (hi.pages b hb).1) hs]
  by_cases hpl : ∃ b ∈ s.pageList, b.place = place
  · exact if_pos hpl
  · rw [if_neg hpl]
    by_contra hne
    obtain ⟨b, hb, hbp⟩ := hlisted place hne
    exact hpl ⟨b, (mem_live.mp hb).1, hbp⟩

theorem toPage_bytes (buf : ℕ → UInt8) : toPage (bytes buf 0 PAGE_SIZE) = page buf := by
  funext off
  unfold toPage bytes page
  rw [List.getD_eq_getElem?_getD, List.getElem?_map, List.getElem?_range off.isLt]
  simp only [Option.map_some, Option.getD_some, Nat.zero_add]

/-- **The ioctl** when all pages fit and no record is stale. -/
theorem Holds.of_ioctl (h : Holds lzo sr s saved) (hsr : ∀ b ∈ s.pageList, b ∉ sr)
    (hs : ioctlCompress lzo s = some s') (hf : FitsAll lzo s.pageList s) :
    Holds lzo sr s' (Lib.Pager.evicted (driver lzo) s saved) := by
  have hpte := h.ioctl_pte hsr hs
  obtain ⟨⟨sv, hi, hsv⟩, hlisted⟩ := h
  rw [withPages_all hsr] at hi
  have hpages : s'.pageList = [] := compressLoop_pageList _ rfl hs
  refine ⟨⟨saveListed s sv, ?_, fun vma address => ?_⟩, fun place hne => absurd (hpte place) hne⟩
  · rw [withPages_all (by rw [hpages]; exact fun b hb => absurd hb List.not_mem_nil)]
    exact compressLoop_inv _ hi rfl hs hf
  · unfold saveListed content
    cases hp : s.pte ⟨vma, address⟩ with
    | some frame =>
      rw [Lib.Pager.evicted_some (d := driver lzo) hp]
      obtain ⟨b, hb, hbp⟩ := hlisted ⟨vma, address⟩ (by rw [hp]; exact Option.some_ne_none _)
      rw [if_pos ⟨b, (mem_live.mp hb).1, hbp⟩, Option.map_some, Option.map_some, toPage_bytes]
      rfl
    | none =>
      have hnot : ¬ Listed s ⟨vma, address⟩ := by
        rintro ⟨b, hb, hbp⟩
        have := (hi.pages b hb).2
        rw [hbp, hp] at this
        cases this
      rw [Lib.Pager.evicted_none (d := driver lzo) hp, if_neg hnot]
      exact hsv vma address

/-- The new sockets are of pages that were mapped. -/
theorem Holds.ioctl_new (h : Holds lzo sr s saved) (hsr : ∀ b ∈ s.pageList, b ∉ sr)
    (hs : ioctlCompress lzo s = some s') {a : Socket} (ha : a ∈ s'.compactList) :
    a ∈ s.compactList ∨ s.pte a.place ≠ none := by
  rcases compressLoop_new _ hs ha with ha | ⟨b, hb, hba⟩
  · exact Or.inl ha
  · exact Or.inr (hba ▸ h.mapped.mpr ⟨b, hb, hsr b hb, rfl⟩)

/-! ### Unmapping -/

/-- **An area is unmapped**: its records are stale from now on. -/
theorem Holds.of_zap (h : Holds lzo sr s saved) (vma : ℕ) :
    Holds lzo (sr ∪ { b | b ∈ s.pageList ∧ b.vma = vma }) (zap s vma) saved := by
  obtain ⟨⟨sv, hi, hsv⟩, hlisted⟩ := h
  have hlive : ∀ {b}, b ∈ livePages (sr ∪ { b | b ∈ s.pageList ∧ b.vma = vma }) (zap s vma) ↔
      b ∈ livePages sr s ∧ b.vma ≠ vma := by
    intro b
    unfold livePages
    rw [mem_live, mem_live]
    show b ∈ s.pageList ∧ ¬ (b ∈ sr ∨ b ∈ s.pageList ∧ b.vma = vma) ↔ _
    tauto
  have hpte : ∀ place, place.vma ≠ vma → (zap s vma).pte place = s.pte place := fun place hne =>
    if_neg hne
  have hnone : ∀ place, s.pte place = none → (zap s vma).pte place = none := by
    intro place hp
    show (if place.vma = vma then none else s.pte place) = none
    rw [hp, ite_self]
  refine ⟨⟨sv, ⟨fun b hb => ?_, ?_, hi.places, hi.blocks, hi.bits, hi.below,
    fun e he => hnone _ (hi.apart e he), hi.out, hi.held⟩, hsv⟩, fun place hne => ?_⟩
  · obtain ⟨hb, hv⟩ := hlive.mp hb
    obtain ⟨h1, h2⟩ := hi.pages b hb
    exact ⟨h1, (hpte b.place hv).trans h2⟩
  · exact ((live_sublist Set.subset_union_left s.pageList).map _).nodup hi.nodup
  · have hv : place.vma ≠ vma := fun hv => hne (if_pos hv)
    obtain ⟨b, hb, rfl⟩ := hlisted place (by rwa [hpte place hv] at hne)
    exact ⟨b, hlive.mpr ⟨hb, hv⟩, rfl⟩

/-! ### The driver is lawful -/

theorem found_some {e : Socket} (he : (driver lzo).found s vma address = some e) :
    s.pte ⟨vma, address⟩ = none ∧ e ∈ s.compactList ∧ (e.vma, e.address) = (vma, address) := by
  have he : (if (s.pte ⟨vma, address⟩).isSome then none else s.compactList.find? fun tmp =>
    tmp.address == address && tmp.vma == vma) = some e := he
  by_cases hp : (s.pte ⟨vma, address⟩).isSome
  · rw [if_pos hp] at he
    cases he
  · rw [if_neg hp] at he
    have heq := List.find?_some he
    simp only [Bool.and_eq_true, beq_iff_eq] at heq
    exact ⟨Option.not_isSome_iff_eq_none.mp hp, List.mem_of_find?_eq_some he,
      Prod.ext heq.2 heq.1⟩

theorem found_none (hf : (driver lzo).found s vma address = none) (hp : s.pte ⟨vma, address⟩ = none)
    (e : Socket) (he : e ∈ s.compactList) : (e.vma, e.address) ≠ (vma, address) := by
  have hf : (if (s.pte ⟨vma, address⟩).isSome then none else s.compactList.find? fun tmp =>
    tmp.address == address && tmp.vma == vma) = none := hf
  rw [hp, if_neg (by decide)] at hf
  have := List.find?_eq_none.mp hf e he
  simp only [Bool.and_eq_true, beq_iff_eq] at this
  exact fun heq => this ⟨congrArg Prod.snd heq, congrArg Prod.fst heq⟩

/-- A fault changes no other frame. -/
theorem fault_other (s : State) (c : Page) {g : ℕ} (hne : g ≠ frame) :
    page ((vmFault lzo (fill s frame c) ⟨vma, address⟩ frame).mem g) = page (s.mem g) := by
  have hfill : (fill s frame c).mem g = s.mem g := Function.update_of_ne hne _ _
  by_cases hp : s.pte ⟨vma, address⟩ = none
  · rcases vmFault_cases (s := fill s frame c) lzo hp frame with ⟨e, -, -, heq⟩ | ⟨-, heq⟩
    · rw [heq]
      exact congrArg page ((Function.update_of_ne hne _ _).trans hfill)
    · rw [heq]
      exact congrArg page hfill
  · rw [vmFault_mapped (s := fill s frame c) hp, hfill]

theorem fault_touch (c : Page) (hp : s.pte ⟨vma, address⟩ ≠ none) :
    vmFault lzo (fill s frame c) ⟨vma, address⟩ frame = fill s frame c :=
  vmFault_mapped (s := fill s frame c) hp

theorem fault_pte (c : Page) (hp : s.pte ⟨vma, address⟩ = none) :
    (fun vma' address' => (vmFault lzo (fill s frame c) ⟨vma, address⟩ frame).pte ⟨vma', address'⟩) =
      fun vma' address' => if vma' = vma ∧ address' = address then some frame
        else s.pte ⟨vma', address'⟩ := by
  funext vma' address'
  have hpte : (vmFault lzo (fill s frame c) ⟨vma, address⟩ frame).pte =
      Function.update s.pte ⟨vma, address⟩ (some frame) := by
    rcases vmFault_cases (s := fill s frame c) lzo hp frame with ⟨e, -, -, heq⟩ | ⟨-, heq⟩
    · rw [heq]
      rfl
    · rw [heq]
      rfl
  rw [hpte]
  by_cases hva : vma' = vma ∧ address' = address
  · rw [if_pos hva, hva.1, hva.2, Function.update_self]
  · rw [if_neg hva, Function.update_of_ne fun heq => hva (by simpa using heq)]

theorem fault_records (c : Page) {b : BPage} (hb : b ∈ s.pageList) :
    b ∈ (vmFault lzo (fill s frame c) ⟨vma, address⟩ frame).pageList := by
  by_cases hp : s.pte ⟨vma, address⟩ = none
  · have hpages : (vmFault lzo (fill s frame c) ⟨vma, address⟩ frame).pageList =
        ⟨vma, address, frame, some ⟨vma, address⟩⟩ :: s.pageList :=
      congrArg State.pageList (vmFault_withPages (s := fill s frame c) hp s.pageList)
    rw [hpages]
    exact List.mem_cons_of_mem _ hb
  · rw [fault_touch c hp]
    exact hb

theorem lawful (lzo : Lzo) : Lib.Pager.Lawful (driver lzo) (Holds lzo) where
  init := by
    rintro s ⟨mem, space, rfl⟩
    exact Holds.of_init mem space
  init_records := by
    rintro s ⟨mem, space, rfl⟩
    rfl
  mapped h := h.mapped
  entries h := h.entries
  apart h := h.apart
  found_some {s vma address e} he := found_some he
  found_none {s vma address} he hp := found_none he hp
  store_inv frame w h := h.of_mem _
  store_pte _ _ _ := rfl
  store_mem s frame w := page_store s frame w
  store_other s frame w g hne := congrArg page (Function.update_of_ne hne _ _)
  store_records _ _ _ := rfl
  store_entries _ _ _ := rfl
  fault_other s vma address frame c g hne := fault_other s c hne
  touch_inv {sr s saved vma address} frame c h hp := by
    show Holds lzo sr (vmFault lzo (fill s frame c) ⟨vma, address⟩ frame) saved
    rw [fault_touch c hp]
    exact h.of_fill c
  touch_pte frame c hp := congrArg (fun s vma address => s.pte ⟨vma, address⟩) (fault_touch c hp)
  touch_entries {s vma address} frame c hp := by
    show (vmFault lzo (fill s frame c) ⟨vma, address⟩ frame).compactList = s.compactList
    rw [fault_touch c hp]
    rfl
  fault_inv c h hsr hf hp := (h.of_fill c).of_fault hsr hf.2 hp
  fault_pte frame c hp := fault_pte c hp
  fault_mem frame c h hp := ((h.of_fill c).fault_mem hp).trans (by rw [page_fill])
  fault_records frame c hr := fault_records c hr
  fault_entries frame c h hp := (h.of_fill c).fault_entries hp
  evict_inv h hsr hs hf := h.of_ioctl hsr hs hf
  evict_pte h hsr hs vma address := h.ioctl_pte hsr hs _
  evict_records hs := compressLoop_pageList _ rfl hs
  evict_entries hs he := (compressLoop_suffix _ hs).subset he
  evict_new h hsr hs ha := h.ioctl_new hsr hs ha
  unmap_inv vma h := h.of_zap vma
  unmap_pte _ _ := rfl
  unmap_mem _ _ := rfl
  unmap_records _ _ := rfl
  unmap_entries _ _ := rfl

def firstByte : Fin PAGE_SIZE := ⟨0, by decide⟩

/-- One page of the first mapping is in memory. -/
def touched (lzo : Lzo) (w : Fin PAGE_SIZE × UInt8) : State :=
  store (vmFault lzo (fill (init (fun _ _ => 0) fun _ => 0) 7 fun _ => 0) ⟨1, 0x8000⟩ 7) 7 w.1 w.2

theorem touched_find (lzo : Lzo) (w : Fin PAGE_SIZE × UInt8) : findSocket (touched lzo w) = 0 := by
  have hempty : bitmapFindNextZeroAreaOff (fun _ => false) BISCUITOS_COMPACT_NR 0
      BISCUITOS_PER_BLOCKS 1 0 = 0 := by decide +kernel
  exact hempty

theorem touched_fits (lzo : Lzo) (w : Fin PAGE_SIZE × UInt8) :
    FitsAll lzo (touched lzo w).pageList (touched lzo w) := by
  refine ⟨?_, fun _ _ => trivial⟩
  unfold Fits
  rw [touched_find]
  have hle := lzo.worst _ (bytes_length ((touched lzo w).mem 7) 0 PAGE_SIZE)
  refine ⟨?_, fun _ _ _ => rfl⟩
  show 0 + blocksOf (lzo.cot_compress (bytes ((touched lzo w).mem 7) 0 PAGE_SIZE)).length ≤ _
  unfold blocksOf BISCUITOS_COMPACT_BUCK BISCUITOS_COMPACT_NR BISCUITOS_COMPACT_SIZE
    BISCUITOS_COMPACT_BUCK
  unfold PAGE_SIZE at *
  omega

/-- The first page to be compressed has room. -/
theorem touched_ioctl (lzo : Lzo) (w : Fin PAGE_SIZE × UInt8) :
    ∃ s', ioctlCompress lzo (touched lzo w) = some s' := by
  have hc : ∃ s', compress lzo (touched lzo w) ⟨1, 0x8000, 7, some ⟨1, 0x8000⟩⟩ = some s' := by
    unfold compress
    rw [touched_find]
    exact ⟨_, if_neg (by decide)⟩
  obtain ⟨s', hs'⟩ := hc
  exact ⟨_, ioctl_single rfl hs'⟩

theorem not_noLeak (lzo : Lzo) : ¬ Lib.Pager.NoLeak ℕ (driver lzo) fun _ _ => True := by
  have hs : (driver lzo).Init (init (fun _ _ => 0) fun _ => 0) := ⟨_, _, rfl⟩
  have hne : ∀ c : Page, (driver lzo).write (firstByte, 1) c ≠ (driver lzo).write (firstByte, 2) c := by
    intro c heq
    have h0 : Function.update c firstByte 1 firstByte = Function.update c firstByte 2 firstByte :=
      congrFun heq firstByte
    rw [Function.update_self, Function.update_self] at h0
    exact absurd h0 (by decide)
  refine (lawful lzo).not_noLeak hs 1 0x8000 7 (fun _ => 0) (fun w => ?_) (hne _)
  obtain ⟨s', hs'⟩ := touched_ioctl lzo w
  exact ⟨s', hs', touched_fits lzo w⟩

/-! ### Both demos -/

/-- **Nothing leaks through either demo in careful runs**, and the events of such runs that use a
record or an entry of an unmapped area are those that are not clean. -/
theorem careful_noLeak (lzo : Lzo) :
    (Lib.Pager.NoLeak ℕ Swap.Leak.driver (Lib.Pager.Careful Swap.Leak.driver) ∧
      Lib.Pager.UsesUnclean ℕ Swap.Leak.driver) ∧
    Lib.Pager.NoLeak ℕ (driver lzo) (Lib.Pager.Careful (driver lzo)) ∧
      Lib.Pager.UsesUnclean ℕ (driver lzo) :=
  ⟨⟨Swap.Leak.lawful.noLeak, Swap.Leak.lawful.usesUnclean⟩,
    (lawful lzo).noLeak, (lawful lzo).usesUnclean⟩

/-- **Data leaks through both demos** when an area is unmapped with a page out. -/
theorem both_leak : ¬ (Lib.Pager.NoLeak ℕ Swap.Leak.driver fun _ _ => True) ∧
    ∀ lzo, ¬ Lib.Pager.NoLeak ℕ (driver lzo) fun _ _ => True :=
  ⟨Swap.Leak.not_noLeak, not_noLeak⟩

end HardStack.Compact.Leak
