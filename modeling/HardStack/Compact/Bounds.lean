import HardStack.Compact.Run
import HardStack.Swap.Bounds

/-! # What the bookkeeping of the compact space touches

As in the swap demo the bitmap is declared with the number of its longs, and `BiscuitOS_decompress`
tests a socket that has been assigned only if there is one in the list. The last theorem is about both
demos. -/

namespace HardStack.Compact.Bounds

open HardStack.Compact.Model HardStack.Compact.Run
open HardStack.Lib.Run (Along)
open HardStack.Lib.Bitmap (AreaReads Clear)
open HardStack.Swap.Bounds (DECLARE_BITMAP)

/-! ### The accesses -/

/-- The bits of `BiscuitOS_Bitmap`. -/
def bitmapBits (W : ℕ) : ℕ := DECLARE_BITMAP W (BISCUITOS_COMPACT_NR / W)

/-- The bits that the search of `BiscuitOS_compress` reads. -/
def SearchReads (s : State) : ℕ → Prop :=
  AreaReads s.bitmap (fun x => ALIGN_MASK (x + 0) 1 - 0) BISCUITOS_COMPACT_NR BISCUITOS_PER_BLOCKS
    (BISCUITOS_COMPACT_NR + 1) 0

/-- The blocks that a page takes once it is compressed. -/
def blocksFor (lzo : Lzo) (s : State) (bpage : BPage) : ℕ :=
  blocksOf (compressed lzo s bpage.page).length

/-- `BiscuitOS_compress` searches and sets bits that are declared. -/
def OutBounds (W : ℕ) (lzo : Lzo) (s : State) (bpage : BPage) : Prop :=
  (∀ i, SearchReads s i → i < bitmapBits W) ∧
    (findSocket s ≤ BISCUITOS_COMPACT_NR → findSocket s + blocksFor lzo s bpage ≤ bitmapBits W)

/-- A condition on every page of the list when its turn comes. -/
def OnLoop (lzo : Lzo) (P : State → BPage → Prop) : List BPage → State → Prop
  | [], _ => True
  | bpage :: next, s => P s bpage ∧ ∀ s', compress lzo s bpage = some s' →
      OnLoop lzo P next { s' with pageList := s'.pageList.erase bpage }

/-- `BiscuitOS_decompress` clears bits that are declared. -/
def InBounds (W : ℕ) (s : State) (place : Place) : Prop :=
  ∀ socket ∈ s.compactList.find? fun tmp => tmp.address == place.address && tmp.vma == place.vma,
    socket.socket + socket.blocks ≤ bitmapBits W

/-- A store to a mapped page, a fault with the frame that is allocated, and the ioctl. -/
inductive Event
  | store (place : Place) (off : ℕ) (byte : UInt8)
  | fault (place : Place) (page : ℕ)
  | compress

/-- The driver stops at the `BUG_ON`. -/
def step (lzo : Lzo) (s : State) : Event → Option State
  | .store place off byte =>
    match s.pte place with
    | none => some s
    | some page => some (Model.store s page off byte)
  | .fault place page => some (vmFault lzo s place page)
  | .compress => ioctlCompress lzo s

/-- What an event accesses is declared. A fault reaches the compact space if its place is not mapped. -/
def Event.Declared (W : ℕ) (lzo : Lzo) (s : State) : Event → Prop
  | store _ _ _ => True
  | fault place _ => s.pte place = none → InBounds W s place
  | compress => OnLoop lzo (OutBounds W lzo) s.pageList s

/-- An event does not use a socket that no search has assigned. -/
def Event.Assigned (s : State) : Event → Prop
  | fault place _ => s.pte place = none → s.compactList ≠ []
  | _ => True

def Event.Safe (W : ℕ) (lzo : Lzo) (s : State) (event : Event) : Prop :=
  event.Assigned s ∧ event.Declared W lzo s

/-- There is a page of free blocks inside the declared bitmap, and the first one leaves the blocks of
the compressed page inside, too. -/
def Room (W : ℕ) (lzo : Lzo) (s : State) (bpage : BPage) : Prop :=
  ∃ a, 2 ∣ a ∧ Clear s.bitmap (bitmapBits W) BISCUITOS_PER_BLOCKS a ∧
    (∀ a' < a, 2 ∣ a' → ¬ Clear s.bitmap (bitmapBits W) BISCUITOS_PER_BLOCKS a') ∧
    a + blocksFor lzo s bpage ≤ bitmapBits W

/-- Every page of the ioctl finds room. -/
def Event.Roomy (W : ℕ) (lzo : Lzo) (s : State) : Event → Prop
  | compress => OnLoop lzo (Room W lzo) s.pageList s
  | _ => True

def Event.IsFault : Event → Prop
  | fault _ _ => True
  | _ => False

variable {W : ℕ} {lzo : Lzo} {s : State} {event : Event} {events : List Event}

/-! ### The ioctl -/

theorem ALIGN_MASK_one (x : ℕ) : ALIGN_MASK (x + 0) 1 - 0 = (x + 1) / 2 * 2 := by
  unfold ALIGN_MASK
  omega

theorem bitmapBits_le (hW : W = 32 ∨ W = 64) :
    bitmapBits W + BISCUITOS_PER_BLOCKS + 1 ≤ BISCUITOS_COMPACT_NR := by
  rcases hW with rfl | rfl
  all_goals
    unfold bitmapBits DECLARE_BITMAP BISCUITOS_PER_BLOCKS BISCUITOS_COMPACT_NR BISCUITOS_COMPACT_SIZE
      BISCUITOS_COMPACT_BUCK PAGE_SIZE
    norm_num

/-- The search comes to the first free page of blocks. -/
theorem findSocket_le {a : ℕ} (heven : 2 ∣ a)
    (hc : Clear s.bitmap BISCUITOS_COMPACT_NR BISCUITOS_PER_BLOCKS a) : findSocket s ≤ a := by
  have hsize := hc.1
  show Lib.Bitmap.zeroArea s.bitmap (fun x => ALIGN_MASK (x + 0) 1 - 0) BISCUITOS_COMPACT_NR
    BISCUITOS_PER_BLOCKS (BISCUITOS_COMPACT_NR + 1) 0 ≤ a
  refine Lib.Bitmap.zeroArea_least (fun x => ?_) (fun x y hxy => ?_) (by decide) ?_ hc
    (BISCUITOS_COMPACT_NR + 1) 0 (Nat.zero_le _) (by omega)
  · rw [ALIGN_MASK_one]
    omega
  · simp only [ALIGN_MASK_one]
    omega
  · rw [ALIGN_MASK_one]
    omega

theorem searchReads_iff (hW : W = 32 ∨ W = 64) : (∀ i, SearchReads s i → i < bitmapBits W) ↔
    findSocket s + BISCUITOS_PER_BLOCKS ≤ bitmapBits W := by
  refine Lib.Bitmap.areaReads_lt_iff (fun x => ?_) (fun x => ?_) (by decide) (bitmapBits_le hW) _ _
    (Nat.zero_le _) (by omega)
  · rw [ALIGN_MASK_one]
    omega
  · rw [ALIGN_MASK_one]
    omega

/-- **A compression stays in bounds** exactly if it finds room. -/
theorem outBounds_iff (hW : W = 32 ∨ W = 64) (bpage : BPage) : OutBounds W lzo s bpage ↔ Room W lzo s bpage := by
  have hle := bitmapBits_le hW
  unfold OutBounds
  rw [searchReads_iff hW]
  constructor
  · rintro ⟨hfit, hblocks⟩
    have hNR : findSocket s ≤ BISCUITOS_COMPACT_NR := by omega
    obtain ⟨hclear, x, hx⟩ := Lib.Bitmap.zeroArea_clear (by decide) _ _ hNR
    refine ⟨findSocket s, ?_, ⟨hfit, hclear.2⟩, fun a' hlt heven hc => ?_, hblocks hNR⟩
    · rw [ALIGN_MASK_one] at hx
      exact ⟨(x + 1) / 2, by rw [mul_comm]; exact hx.symm⟩
    · exact absurd (findSocket_le heven (Clear.mono (by omega) hc)) (not_le.mpr hlt)
  · rintro ⟨a, heven, hc, hfirst, hblocks⟩
    have hfind := findSocket_le heven (Clear.mono (by omega) hc)
    have hsize := hc.1
    have hNR : findSocket s ≤ BISCUITOS_COMPACT_NR := by omega
    obtain ⟨hclear, x, hx⟩ := Lib.Bitmap.zeroArea_clear (by decide) _ _ hNR
    rw [ALIGN_MASK_one] at hx
    have heq : findSocket s = a := by
      by_contra hne
      exact hfirst (findSocket s) (by omega) ⟨(x + 1) / 2, by rw [mul_comm]; exact hx.symm⟩
        ⟨by omega, hclear.2⟩
    rw [heq]
    exact ⟨hsize, fun _ => hblocks⟩

/-- The blocks of the sockets are declared. -/
def Bounded (W : ℕ) (s : State) : Prop := ∀ a ∈ s.compactList, a.socket + a.blocks ≤ bitmapBits W

theorem onLoop_congr {P Q : State → BPage → Prop} (h : ∀ s b, P s b ↔ Q s b) :
    ∀ (pages : List BPage) (s : State), OnLoop lzo P pages s ↔ OnLoop lzo Q pages s
  | [], _ => Iff.rfl
  | b :: next, s => and_congr (h s b) (forall₂_congr fun _ _ => onLoop_congr h next _)

theorem Bounded.compress {s' : State} {bpage : BPage} (h : Bounded W s) (hout : OutBounds W lzo s bpage)
    (hc : compress lzo s bpage = some s') : Bounded W s' := by
  unfold Model.compress at hc
  by_cases hbug : BISCUITOS_COMPACT_NR < findSocket s
  · simp only [if_pos hbug, reduceCtorEq] at hc
  · simp only [if_neg hbug, Option.some.injEq] at hc
    rw [← hc]
    exact List.forall_mem_cons.mpr ⟨hout.2 (not_lt.mp hbug), h⟩

theorem Bounded.loop : ∀ (pages : List BPage) {s s' : State}, Bounded W s →
    OnLoop lzo (OutBounds W lzo) pages s → compressLoop lzo pages s = some s' → Bounded W s'
  | [], s, s', h, _, hs => by
    obtain rfl := Option.some.inj hs
    exact h
  | b :: next, s, s', h, ⟨hout, hrest⟩, hs => by
    obtain ⟨s₁, hc, hs⟩ := Option.bind_eq_some_iff.mp hs
    have h₁ : Bounded W s₁ := h.compress hout hc
    refine Bounded.loop next ?_ (hrest s₁ hc) hs
    exact h₁

/-! ### Runs -/

theorem Bounded.fault (h : Bounded W s) (place : Place) (page : ℕ) : Bounded W (vmFault lzo s place page) := by
  intro a ha
  by_cases hp : s.pte place = none
  · rcases vmFault_cases lzo hp page with ⟨x, -, -, heq⟩ | ⟨-, heq⟩
    · have hmem : a ∈ s.compactList.erase x := by
        rw [heq] at ha
        exact ha
      exact h a (List.mem_of_mem_erase hmem)
    · rw [heq] at ha
      exact h a ha
  · rw [vmFault_mapped hp] at ha
    exact h a ha

theorem Bounded.declared_iff (hW : W = 32 ∨ W = 64) (h : Bounded W s) (event : Event) :
    event.Declared W lzo s ↔ event.Roomy W lzo s := by
  cases event with
  | store place off byte => exact Iff.rfl
  | fault place page =>
    exact iff_of_true (fun _ socket hfind => h socket (List.mem_of_find?_eq_some hfind)) trivial
  | compress => exact onLoop_congr (fun s b => outBounds_iff hW b) s.pageList s

theorem Bounded.step {s' : State} (h : Bounded W s) (hd : event.Declared W lzo s)
    (hs : step lzo s event = some s') : Bounded W s' := by
  cases event with
  | store place off byte =>
    unfold Bounds.step at hs
    dsimp only at hs
    split at hs
    · cases hs
      exact h
    · cases hs
      exact h
  | fault place page =>
    cases hs
    exact h.fault place page
  | compress => exact Bounded.loop s.pageList h hd hs

/-- **Runs stay in bounds** exactly as long as every page that is compressed finds room. -/
theorem declared_iff_roomy (hW : W = 32 ∨ W = 64) (h : Bounded W s) :
    Along (step lzo) (fun s event => event.Declared W lzo s) events s ↔
      Along (step lzo) (fun s event => event.Roomy W lzo s) events s :=
  Lib.Run.along_iff (fun _ event h => Bounded.declared_iff hW h event)
    (fun _ event _ h hroomy hs' => h.step ((h.declared_iff hW event).mpr hroomy) hs') h

/-- Nothing is mapped, no page is on a list. -/
def Idle (s : State) : Prop := (∀ place, s.pte place = none) ∧ s.compactList = [] ∧ s.pageList = []

theorem Idle.step (h : Idle s) (hfault : ¬ event.IsFault) : step lzo s event = some s := by
  cases event with
  | store place off byte =>
    unfold Bounds.step
    dsimp only
    rw [h.1 place]
  | fault place page => exact absurd trivial hfault
  | compress =>
    show compressLoop lzo s.pageList s = some s
    rw [h.2.2]
    rfl

theorem Idle.safe_iff (h : Idle s) : event.Safe W lzo s ↔ ¬ event.IsFault := by
  cases event with
  | fault place page =>
    exact iff_of_false (fun hsafe => hsafe.1 (h.1 place) h.2.1) fun hno => hno trivial
  | store place off byte => exact iff_of_true ⟨trivial, trivial⟩ id
  | compress =>
    refine iff_of_true ⟨trivial, ?_⟩ id
    show OnLoop lzo (OutBounds W lzo) s.pageList s
    rw [h.2.2]
    trivial

/-- **The first fault** uses a socket that no search has assigned. -/
theorem safe_iff (h : Idle s) : Along (step lzo) (fun s event => event.Safe W lzo s) events s ↔
    ∀ event ∈ events, ¬ event.IsFault := by
  rw [Lib.Run.along_still fun event he => h.step (h.safe_iff.mp he)]
  exact forall₂_congr fun event _ => h.safe_iff

theorem init_bounded (mem : ℕ → ℕ → UInt8) (space : ℕ → UInt8) : Bounded W (init mem space) :=
  fun _ h => absurd h List.not_mem_nil

theorem init_idle (mem : ℕ → ℕ → UInt8) (space : ℕ → UInt8) : Idle (init mem space) :=
  ⟨fun _ => rfl, rfl, rfl⟩

/-- **The bookkeeping of both demos**: a run is safe exactly if it has no page fault, and the bits and
the slots stay in bounds exactly as long as there is room among the bits that are declared. -/
theorem bookkeeping_iff (hW : W = 32 ∨ W = 64) (lzo : Lzo) (mem : ℕ → ℕ → UInt8)
    (file space : ℕ → UInt8) (swaps : List Swap.Bounds.Event) (events : List Event) :
    ((Along Swap.Bounds.step (fun s event => event.Safe W s) swaps (Swap.Model.init mem file) ↔
        ∀ event ∈ swaps, ¬ event.IsFault) ∧
      (Along Swap.Bounds.step (fun s event => event.Declared W s) swaps (Swap.Model.init mem file) ↔
        Along Swap.Bounds.step (fun s event => event.Few s) swaps (Swap.Model.init mem file))) ∧
    (Along (step lzo) (fun s event => event.Safe W lzo s) events (init mem space) ↔
        ∀ event ∈ events, ¬ event.IsFault) ∧
      (Along (step lzo) (fun s event => event.Declared W lzo s) events (init mem space) ↔
        Along (step lzo) (fun s event => event.Roomy W lzo s) events (init mem space)) := by
  refine ⟨⟨?_, ?_⟩, ?_, ?_⟩
  · exact Swap.Bounds.safe_iff (Swap.Bounds.init_idle mem file)
  · exact Swap.Bounds.declared_iff_few hW (Swap.Bounds.init_bounded mem file)
  · exact safe_iff (init_idle mem space)
  · exact declared_iff_roomy hW (init_bounded mem space)

theorem bookkeeping_iff_oneFault :
    ((Along Swap.Bounds.step (fun s event => event.Safe 64 s) [.fault ⟨1, 0x8000⟩ 7]
          (Swap.Model.init (fun _ _ => 0) fun _ => 0) ↔
        ∀ event ∈ [Swap.Bounds.Event.fault ⟨1, 0x8000⟩ 7], ¬ event.IsFault) ∧
      (Along Swap.Bounds.step (fun s event => event.Declared 64 s) [.fault ⟨1, 0x8000⟩ 7]
          (Swap.Model.init (fun _ _ => 0) fun _ => 0) ↔
        Along Swap.Bounds.step (fun s event => event.Few s) [.fault ⟨1, 0x8000⟩ 7]
          (Swap.Model.init (fun _ _ => 0) fun _ => 0))) ∧
    (Along (step stuffed) (fun s event => event.Safe 64 stuffed s) [.fault low 7]
          (init (fun _ _ => 0) fun _ => 0) ↔
        ∀ event ∈ [Event.fault low 7], ¬ event.IsFault) ∧
      (Along (step stuffed) (fun s event => event.Declared 64 stuffed s) [.fault low 7]
          (init (fun _ _ => 0) fun _ => 0) ↔
        Along (step stuffed) (fun s event => event.Roomy 64 stuffed s) [.fault low 7]
          (init (fun _ _ => 0) fun _ => 0)) :=
  bookkeeping_iff (Or.inr rfl) stuffed _ _ _ [.fault ⟨1, 0x8000⟩ 7] [.fault low 7]

/-- A page is faulted in when nothing has been out. -/
theorem not_safe_firstFault :
    ¬ Along Swap.Bounds.step (fun s event => event.Safe 64 s) [.fault ⟨1, 0x8000⟩ 7]
      (Swap.Model.init (fun _ _ => 0) fun _ => 0) ∧
    ¬ Along (step stuffed) (fun s event => event.Safe 64 stuffed s) [.fault low 7]
      (init (fun _ _ => 0) fun _ => 0) := by
  constructor
  · rintro ⟨⟨hassigned, -⟩, -⟩
    exact hassigned rfl rfl
  · rintro ⟨⟨hassigned, -⟩, -⟩
    exact hassigned rfl rfl

end HardStack.Compact.Bounds
