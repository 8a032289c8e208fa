import HardStack.Swap.Run
import HardStack.Lib.Bitmap

/-! # What the swap bookkeeping touches

The bitmap is declared with the number of its longs for the number of its bits, so that it has 64 bits,
whereas the search goes over all slots. The entry that `BiscuitOS_swap_in` tests has been assigned only
if there is an entry in the list. -/

namespace HardStack.Swap.Bounds

open HardStack.Swap.Model HardStack.Swap.Run
open HardStack.Lib.Run (Along)
open HardStack.Lib.Bitmap (NextReads)

/-! ### The accesses -/

/-- The bits of `DECLARE_BITMAP` on a machine with longs of `W` bits. -/
def DECLARE_BITMAP (W bits : ℕ) : ℕ := (bits + W - 1) / W * W

/-- The bits of `BiscuitOS_Bitmap`. -/
def bitmapBits (W : ℕ) : ℕ := DECLARE_BITMAP W (BISCUITOS_SWAP_NR / W)

/-- `BiscuitOS_swap_out` searches and sets bits that are declared, and writes to a slot. -/
def OutBounds (W : ℕ) (s : State) : Prop :=
  (∀ i, NextReads (fun i => !s.bitmap i) BISCUITOS_SWAP_NR 0 i → i < bitmapBits W) ∧ findFirstZeroBit s.bitmap < bitmapBits W ∧
    findFirstZeroBit s.bitmap < BISCUITOS_SWAP_NR

/-- The loop of the ioctl. -/
def LoopBounds (W : ℕ) : List BPage → State → Prop
  | [], _ => True
  | bpage :: next, s => OutBounds W s ∧
      LoopBounds W next { swapOut s bpage with pageList := (swapOut s bpage).pageList.erase bpage }

/-- `BiscuitOS_swap_in` clears a bit that is declared, and reads from a slot. -/
def InBounds (W : ℕ) (s : State) (place : Place) : Prop :=
  ∀ entry ∈ s.swapList.find? fun tmp => tmp.address == place.address && tmp.vma == place.vma,
    entry.val < bitmapBits W ∧ entry.val < BISCUITOS_SWAP_NR

/-- A store to a mapped page, a fault with the frame that is allocated, and the ioctl. -/
inductive Event
  | store (place : Place) (off : ℕ) (byte : UInt8)
  | fault (place : Place) (page : ℕ)
  | swapOut

def Event.exec (s : State) : Event → State
  | store place off byte =>
    match s.pte place with
    | none => s
    | some page => Model.store s page off byte
  | fault place page => vmFault s place page
  | swapOut => ioctlSwapOut s

/-- The driver goes on after every event. -/
def step (s : State) (event : Event) : Option State := some (event.exec s)

/-- What an event accesses is declared. A fault reaches the swap space if its place is not mapped. -/
def Event.Declared (W : ℕ) (s : State) : Event → Prop
  | store _ _ _ => True
  | fault place _ => s.pte place = none → InBounds W s place
  | swapOut => LoopBounds W s.pageList s

/-- An event does not use an entry that no search has assigned. -/
def Event.Assigned (s : State) : Event → Prop
  | fault place _ => s.pte place = none → s.swapList ≠ []
  | _ => True

def Event.Safe (W : ℕ) (s : State) (event : Event) : Prop := event.Assigned s ∧ event.Declared W s

/-- After the ioctl there are at most 64 entries. -/
def Event.Few (s : State) : Event → Prop
  | swapOut => s.swapList.length + s.pageList.length ≤ 64
  | _ => True

def Event.IsFault : Event → Prop
  | fault _ _ => True
  | _ => False

variable {W : ℕ} {s : State} {saved : Place → Option (ℕ → UInt8)} {event : Event} {events : List Event}

/-! ### The ioctl -/

theorem bitmapBits_eq (hW : W = 32 ∨ W = 64) : bitmapBits W = 64 := by
  rcases hW with rfl | rfl <;> rfl

theorem le_swapNr : 64 ≤ BISCUITOS_SWAP_NR := by
  show 64 ≤ 8 * 1024 * 1024 / 4096
  norm_num

theorem lt_swapNr {n : ℕ} (h : n < 64) : n < BISCUITOS_SWAP_NR := lt_of_lt_of_le h le_swapNr

/-- All bits below the one that is found are set. -/
theorem findFirstZeroBit_below {bitmap : ℕ → Bool} {i : ℕ}
    (h : findFirstZeroBit bitmap < BISCUITOS_SWAP_NR) (hi : i < findFirstZeroBit bitmap) :
    bitmap i = true := by
  unfold findFirstZeroBit at h hi
  cases hf : (List.range BISCUITOS_SWAP_NR).find? fun i => !bitmap i with
  | none =>
    rw [hf] at h
    exact absurd h (lt_irrefl _)
  | some j =>
    rw [hf] at hi
    simpa using (List.find?_range_eq_some.mp hf).2.2 i hi

/-- The invariant of the swap demo, as long as only declared bits are in use. -/
def Bounded (s : State) : Prop := (∃ saved, Inv s saved) ∧ ∀ e ∈ s.swapList, e.val < 64

/-- The entries are of different slots. -/
theorem Bounded.length_le (h : Bounded s) : s.swapList.length ≤ 64 := by
  obtain ⟨⟨saved, hinv⟩, hlt⟩ := h
  have hsub : s.swapList.map SwapEntry.val ⊆ List.range 64 := by
    intro i hi
    obtain ⟨e, he, rfl⟩ := List.mem_map.mp hi
    exact List.mem_range.mpr (hlt e he)
  have hle := (hinv.slots.subperm hsub).length_le
  rwa [List.length_map, List.length_range] at hle

/-- The search finds a declared bit exactly as long as one of them is not in use. -/
theorem Bounded.find_lt_iff (h : Bounded s) :
    findFirstZeroBit s.bitmap < 64 ↔ s.swapList.length < 64 := by
  obtain ⟨⟨saved, hinv⟩, hlt⟩ := h
  constructor
  · intro hfind
    have hNR : findFirstZeroBit s.bitmap < BISCUITOS_SWAP_NR := lt_swapNr hfind
    have hzero := findFirstZeroBit_spec hNR
    generalize findFirstZeroBit s.bitmap = index at hfind hzero
    have hsub : index :: s.swapList.map SwapEntry.val ⊆ List.range 64 := by
      intro i hi
      rcases List.mem_cons.mp hi with rfl | hi
      · exact List.mem_range.mpr hfind
      · obtain ⟨e, he, rfl⟩ := List.mem_map.mp hi
        exact List.mem_range.mpr (hlt e he)
    have hnodup : (index :: s.swapList.map SwapEntry.val).Nodup := by
      refine List.nodup_cons.mpr ⟨fun hm => ?_, hinv.slots⟩
      obtain ⟨e, he, heq⟩ := List.mem_map.mp hm
      have := (hinv.bits _).mpr ⟨e, he, heq⟩
      rw [hzero] at this
      cases this
    have hle := (hnodup.subperm hsub).length_le
    rw [List.length_cons, List.length_map, List.length_range] at hle
    omega
  · intro hfew
    by_contra hge
    have hNR : findFirstZeroBit s.bitmap < BISCUITOS_SWAP_NR :=
      findFirstZeroBit_lt hinv (lt_swapNr hfew)
    have hsub : List.range 64 ⊆ s.swapList.map SwapEntry.val := by
      intro i hi
      have hbit : s.bitmap i = true :=
        findFirstZeroBit_below hNR (by have := List.mem_range.mp hi; omega)
      obtain ⟨e, he, rfl⟩ := (hinv.bits i).mp hbit
      exact List.mem_map_of_mem he
    have hle := (List.nodup_range.subperm hsub).length_le
    rw [List.length_range, List.length_map] at hle
    omega

/-- A swap-out stays in bounds exactly as long as a declared bit is not in use. -/
theorem Bounded.outBounds_iff (hW : W = 32 ∨ W = 64) (h : Bounded s) :
    OutBounds W s ↔ s.swapList.length < 64 := by
  unfold OutBounds
  rw [bitmapBits_eq hW, ← h.find_lt_iff]
  refine ⟨fun hout => hout.2.1, fun hfind => ⟨fun i hi => ?_, hfind, lt_swapNr hfind⟩⟩
  -- the search does not go on after the bit that is found
  obtain ⟨-, -, hbelow⟩ := hi
  by_contra hge
  have hset := hbelow _ (Nat.zero_le _) (hfind.trans_le (not_lt.mp hge))
  have hNR : findFirstZeroBit s.bitmap < BISCUITOS_SWAP_NR := lt_swapNr hfind
  simp only [findFirstZeroBit_spec hNR] at hset
  cases hset

/-- **The ioctl** stays in bounds exactly as long as all pages find a declared bit. -/
theorem Bounded.loop (hW : W = 32 ∨ W = 64) : ∀ (pages : List BPage) {s : State}, Bounded s →
    s.pageList = pages → (LoopBounds W pages s ↔ s.swapList.length + pages.length ≤ 64) ∧
      (s.swapList.length + pages.length ≤ 64 → Bounded (swapOutLoop pages s))
  | [], s, h, _ => ⟨iff_of_true trivial h.length_le, fun _ => h⟩
  | b :: next, s, h, hl => by
    obtain ⟨⟨saved, hinv⟩, hlt⟩ := id h
    have hb := (hinv.pages b (by rw [hl]; exact List.mem_cons_self)).1
    have hround : { swapOut s b with pageList := (swapOut s b).pageList.erase b } =
        outRound s b next (findFirstZeroBit s.bitmap) := by
      have herase : (swapOut s b).pageList.erase b = next := by
        show s.pageList.erase b = next
        rw [hl, List.erase_cons_head]
      rw [herase]
      simp only [swapOut, outRound, hb]
    have hbounded : s.swapList.length < 64 → Bounded (outRound s b next (findFirstZeroBit s.bitmap)) := by
      intro hfew
      have hfind := h.find_lt_iff.mpr hfew
      have hNR : findFirstZeroBit s.bitmap < BISCUITOS_SWAP_NR := lt_swapNr hfind
      have hzero := findFirstZeroBit_spec hNR
      generalize findFirstZeroBit s.bitmap = index at hfind hNR hzero ⊢
      exact ⟨⟨_, outRound_inv hinv hl hNR hzero⟩, List.forall_mem_cons.mpr ⟨hfind, hlt⟩⟩
    have hlength : (outRound s b next (findFirstZeroBit s.bitmap)).swapList.length =
        s.swapList.length + 1 := rfl
    rw [swapOutLoop_cons hl hb, List.length_cons]
    unfold LoopBounds
    rw [hround, h.outBounds_iff hW]
    constructor
    · constructor
      · rintro ⟨hfew, hloop⟩
        have := (Bounded.loop hW next (hbounded hfew) rfl).1.mp hloop
        omega
      · intro hfit
        have hfew : s.swapList.length < 64 := by omega
        exact ⟨hfew, (Bounded.loop hW next (hbounded hfew) rfl).1.mpr (by omega)⟩
    · intro hfit
      exact (Bounded.loop hW next (hbounded (by omega)) rfl).2 (by omega)

/-! ### Runs -/

theorem Bounded.store {place : Place} {off : ℕ} {byte : UInt8} (h : Bounded s) :
    Bounded ((Event.store place off byte).exec s) := by
  unfold Event.exec
  dsimp only
  rcases s.pte place with _ | page
  · exact h
  · obtain ⟨⟨saved, hinv⟩, hlt⟩ := h
    exact ⟨⟨saved, ⟨hinv.pages, hinv.nodup, hinv.places, hinv.slots, hinv.bits, hinv.below, hinv.apart,
      hinv.out, hinv.held⟩⟩, hlt⟩

theorem Bounded.fault {place : Place} {page : ℕ} (h : Bounded s) :
    Bounded ((Event.fault place page).exec s) := by
  obtain ⟨⟨saved, hinv⟩, hlt⟩ := h
  refine ⟨⟨_, vmFault_inv hinv page⟩, fun e he => ?_⟩
  by_cases hp : s.pte place = none
  · rcases vmFault_cases hp page with ⟨x, -, -, heq⟩ | ⟨-, heq⟩
    · have hmem : e ∈ s.swapList.erase x := by
        rw [show s.swapList.erase x = (vmFault s place page).swapList by rw [heq]]
        exact he
      exact hlt e (List.mem_of_mem_erase hmem)
    · refine hlt e ?_
      rw [show s.swapList = (vmFault s place page).swapList by rw [heq]; rfl]
      exact he
  · refine hlt e ?_
    rw [show s.swapList = (vmFault s place page).swapList by rw [vmFault_mapped hp]]
    exact he

/-- An event stays in bounds exactly if it leaves few entries. -/
theorem Bounded.declared_iff (hW : W = 32 ∨ W = 64) (h : Bounded s) (event : Event) :
    (event.Declared W s ↔ event.Few s) ∧ (event.Few s → Bounded (event.exec s)) := by
  cases event with
  | store place off byte => exact ⟨Iff.rfl, fun _ => h.store⟩
  | fault place page =>
    refine ⟨iff_of_true (fun _ entry hfind => ?_) trivial, fun _ => h.fault⟩
    have hlt := h.2 entry (List.mem_of_find?_eq_some hfind)
    rw [bitmapBits_eq hW]
    exact ⟨hlt, lt_swapNr hlt⟩
  | swapOut => exact h.loop hW s.pageList rfl

/-- **Runs stay in bounds** exactly as long as every ioctl leaves few entries. -/
theorem declared_iff_few (hW : W = 32 ∨ W = 64) (h : Bounded s) :
    Along step (fun s event => event.Declared W s) events s ↔
      Along step (fun s event => event.Few s) events s := by
  refine Lib.Run.along_iff (fun s event h => (h.declared_iff hW event).1) (fun s event s' h hfew hs' => ?_) h
  cases hs'
  exact (h.declared_iff hW event).2 hfew

/-- Nothing is mapped, no page is on a list. -/
def Idle (s : State) : Prop := (∀ place, s.pte place = none) ∧ s.swapList = [] ∧ s.pageList = []

theorem Idle.exec (h : Idle s) (hfault : ¬ event.IsFault) : event.exec s = s := by
  cases event with
  | store place off byte =>
    unfold Event.exec
    dsimp only
    rw [h.1 place]
  | fault place page => exact absurd trivial hfault
  | swapOut =>
    show swapOutLoop s.pageList s = s
    rw [h.2.2]
    rfl

theorem Idle.safe_iff (h : Idle s) : event.Safe W s ↔ ¬ event.IsFault := by
  cases event with
  | fault place page =>
    exact iff_of_false (fun hsafe => hsafe.1 (h.1 place) h.2.1) fun hno => hno trivial
  | store place off byte => exact iff_of_true ⟨trivial, trivial⟩ id
  | swapOut =>
    refine iff_of_true ⟨trivial, ?_⟩ id
    show LoopBounds W s.pageList s
    rw [h.2.2]
    trivial

/-- **The first fault** uses an entry that no search has assigned. -/
theorem safe_iff (h : Idle s) : Along step (fun s event => event.Safe W s) events s ↔
    ∀ event ∈ events, ¬ event.IsFault := by
  rw [Lib.Run.along_still fun event he => congrArg some (h.exec (h.safe_iff.mp he))]
  exact forall₂_congr fun event _ => h.safe_iff

theorem init_bounded (mem : ℕ → ℕ → UInt8) (file : ℕ → UInt8) : Bounded (init mem file) :=
  ⟨⟨_, init_inv mem file⟩, fun _ h => absurd h List.not_mem_nil⟩

theorem init_idle (mem : ℕ → ℕ → UInt8) (file : ℕ → UInt8) : Idle (init mem file) :=
  ⟨fun _ => rfl, rfl, rfl⟩

end HardStack.Swap.Bounds
