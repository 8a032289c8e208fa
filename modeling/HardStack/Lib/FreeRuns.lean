import Mathlib.Order.Lattice
import Mathlib.Tactic.Common

/-! # Free runs of a window

A window of `size` positions, each free or taken. A `Summary` keeps the length and the start of a
longest free run, the lengths of the free runs at both edges, and a position before which nothing is
free. It is kept when a run is freed (`extend`), and when a run apart from the longest one is taken
(`shrink`). -/

namespace HardStack.Lib.FreeRuns

variable {map map' : ℕ → Bool} {size longest start left right first a e i : ℕ}

/-- The positions from `a` up to `e` are free. -/
def Free (map : ℕ → Bool) (a e : ℕ) : Prop := ∀ i, a ≤ i → i < e → map i = false

/-- A free run of the window that cannot be made longer. -/
structure Maximal (map : ℕ → Bool) (size a e : ℕ) : Prop where
  lt : a < e
  le : e ≤ size
  free : Free map a e
  left : a ≠ 0 → map (a - 1) = true
  right : e ≠ size → map e = true

/-- What the free runs of a window look like. -/
structure Summary (map : ℕ → Bool) (size longest start left right first : ℕ) : Prop where
  most : ∀ a e, e ≤ size → Free map a e → e - a ≤ longest
  fits : start + longest ≤ size
  run : Free map start (start + longest)
  left_le : left ≤ size
  left_free : Free map 0 left
  left_end : left ≠ size → map left = true
  right_le : right ≤ size
  right_free : Free map (size - right) size
  right_end : right ≠ size → map (size - right - 1) = true
  first_le : ∀ i < size, map i = false → first ≤ i

theorem Free.mono {b f : ℕ} (h : Free map a e) (h1 : a ≤ b) (h2 : f ≤ e) : Free map b f :=
  fun i hb hf => h i (by omega) (by omega)

theorem Free.append {f : ℕ} (h : Free map a e) (h' : Free map e f) : Free map a f := by
  intro i ha hf
  rcases Nat.lt_or_ge i e with hi | hi
  · exact h i ha hi
  · exact h' i hi hf

/-- A free run ends before a position that is taken, or begins after it. -/
theorem Free.apart (h : Free map a e) (hi : map i = true) : i < a ∨ e ≤ i := by
  by_contra hc
  have := h i (by omega) (by omega)
  rw [hi] at this
  exact absurd this (by decide)

/-- A free run that meets a maximal one is part of it, unless it is empty. -/
theorem Maximal.within (h : Maximal map size a e) {b f : ℕ} (hf : Free map b f)
    (hsize : f ≤ size) : f ≤ b ∨ (a ≤ b ∧ f ≤ e) ∨ f ≤ a ∨ e ≤ b := by
  by_contra hc
  have hle := h.le
  by_cases hb : b < a
  · have := hf.apart (h.left (by omega))
    omega
  · have := hf.apart (h.right (by omega))
    omega

/-! ### Reading a summary -/

section
variable (h : Summary map size longest start left right first)
include h

theorem Summary.run_left (h0 : start ≠ 0) : map (start - 1) = true := by
  have hfits := h.fits
  by_contra hc
  have hfree : Free map (start - 1) (start + longest) := by
    intro i h1 h2
    rcases Nat.lt_or_ge i start with hi | hi
    · rw [show i = start - 1 by omega]
      exact Bool.eq_false_iff.mpr hc
    · exact h.run i hi h2
  have := h.most _ _ h.fits hfree
  omega

theorem Summary.run_right (h0 : start + longest ≠ size) : map (start + longest) = true := by
  have hfits := h.fits
  by_contra hc
  have hfree : Free map start (start + longest + 1) := by
    intro i h1 h2
    rcases Nat.lt_or_ge i (start + longest) with hi | hi
    · exact h.run i h1 hi
    · rw [show i = start + longest by omega]
      exact Bool.eq_false_iff.mpr hc
  have := h.most _ _ (by omega) hfree
  omega

/-- **The run that is kept is maximal.** -/
theorem Summary.maximal (hpos : 0 < longest) : Maximal map size start (start + longest) :=
  ⟨by omega, h.fits, h.run, h.run_left, h.run_right⟩

/-- A free run that does not begin in the longest one is apart from it. -/
theorem Summary.apart (hae : a < e) (hsize : e ≤ size) (hf : Free map a e)
    (ha : ¬ (start ≤ a ∧ a < start + longest)) : start + longest ≤ a ∨ e ≤ start := by
  have hpos := h.most a e hsize hf
  have := (h.maximal (by omega)).within hf hsize
  omega

theorem Summary.congr (hm : ∀ i < size, map' i = map i) :
    Summary map' size longest start left right first := by
  have hfits := h.fits
  have hl := h.left_le
  have hr := h.right_le
  have hfree : ∀ {a e}, e ≤ size → (Free map' a e ↔ Free map a e) := fun he =>
    forall_congr' fun i => forall_congr' fun _ => forall_congr' fun hi => by rw [hm i (by omega)]
  refine ⟨fun a e he hf => h.most a e he ((hfree he).mp hf), h.fits, (hfree h.fits).mpr h.run, hl,
    (hfree hl).mpr h.left_free, fun hne => ?_, hr, (hfree le_rfl).mpr h.right_free, fun hne => ?_,
    fun i hi hi' => h.first_le i hi ?_⟩
  · rw [hm left (by omega)]
    exact h.left_end hne
  · rw [hm _ (by omega)]
    exact h.right_end hne
  · rwa [← hm i hi]

theorem Summary.first_mono {f : ℕ} (hf : ∀ i < size, map i = false → f ≤ i) :
    Summary map size longest start left right f :=
  ⟨h.most, h.fits, h.run, h.left_le, h.left_free, h.left_end, h.right_le, h.right_free, h.right_end,
    hf⟩

end

/-! ### Summaries of full and empty windows -/

theorem Summary.full (hm : ∀ i < size, map i = true) (hs : start ≤ size) (first : ℕ) :
    Summary map size 0 start 0 0 first := by
  refine ⟨fun a e he hf => ?_, hs, fun i h1 h2 => by omega, Nat.zero_le _,
    fun i h1 h2 => by omega, fun h => hm 0 (by omega), Nat.zero_le _, fun i h1 h2 => by omega,
    fun h => hm _ (by omega), fun i hi hf => ?_⟩
  · by_contra hc
    have := hf.apart (hm a (by omega))
    omega
  · rw [hm i hi] at hf
    exact absurd hf (by decide)

theorem Summary.empty (hm : ∀ i < size, map i = false) : Summary map size size 0 size size 0 := by
  have hfree : Free map 0 size := fun i _ hi => hm i hi
  refine ⟨fun a e he _ => by omega, by omega, hfree.mono le_rfl (by omega), le_rfl, hfree,
    fun h => absurd rfl h, le_rfl, hfree.mono (Nat.zero_le _) le_rfl, fun h => absurd rfl h,
    fun i _ _ => Nat.zero_le _⟩

/-! ### Freeing and taking -/

/-- **A run is freed** and becomes, with what is free around it, the maximal run from `a` to `e`. -/
theorem Summary.extend (h : Summary map size longest start left right first)
    (hmax : Maximal map' size a e) (hout : ∀ i < size, i < a ∨ e ≤ i → map' i = map i)
    {longest' start' : ℕ} (hl : longest' = max longest (e - a))
    (hs : (longest' = longest ∧ start' = start) ∨ (longest' = e - a ∧ start' = a)) :
    Summary map' size longest' start' (if a = 0 then e - a else left)
      (if e = size then e - a else right) (min first a) := by
  obtain ⟨hlt, hle, hfree, hleft, hright⟩ := hmax
  have hmono : ∀ {b f}, f ≤ size → Free map b f → Free map' b f := by
    intro b f hf hbf i h1 h2
    by_cases hin : a ≤ i ∧ i < e
    · exact hfree i hin.1 hin.2
    · rw [hout i (by omega) (by omega)]
      exact hbf i h1 h2
  have hfits := h.fits
  have hll := h.left_le
  have hrl := h.right_le
  refine ⟨fun b f hf hbf => ?_, ?_, ?_, ?_, ?_, fun hne => ?_, ?_, ?_, fun hne => ?_,
    fun i hi hi' => ?_⟩
  · rcases Maximal.within ⟨hlt, hle, hfree, hleft, hright⟩ hbf hf with hw | hw | hw
    · omega
    · omega
    · have := h.most b f hf fun i h1 h2 => by
        rw [← hout i (by omega) (by omega)]
        exact hbf i h1 h2
      omega
  · rcases hs with ⟨h1, h2⟩ | ⟨h1, h2⟩ <;> omega
  · rcases hs with ⟨h1, h2⟩ | ⟨h1, h2⟩
    · rw [h1, h2]
      exact hmono h.fits h.run
    · rw [h1, h2]
      exact hfree.mono le_rfl (by omega)
  · split <;> omega
  · by_cases ha : a = 0
    · rw [if_pos ha]
      exact hfree.mono (by omega) (by omega)
    · rw [if_neg ha]
      exact hmono hll h.left_free
  · by_cases ha : a = 0
    · rw [if_pos ha] at hne ⊢
      rw [show e - a = e by omega] at hne ⊢
      exact hright hne
    · rw [if_neg ha] at hne ⊢
      -- the run at the left edge ends before the one that is freed
      have hpre : map (a - 1) = true := by
        rw [← hout (a - 1) (by omega) (by omega)]
        exact hleft ha
      have := h.left_free.apart hpre
      rw [hout left (by omega) (by omega)]
      exact h.left_end hne
  · split <;> omega
  · by_cases he : e = size
    · rw [if_pos he]
      exact hfree.mono (by omega) (by omega)
    · rw [if_neg he]
      exact hmono le_rfl h.right_free
  · by_cases he : e = size
    · rw [if_pos he] at hne ⊢
      rw [show size - (e - a) - 1 = a - 1 by omega]
      exact hleft (by omega)
    · rw [if_neg he] at hne ⊢
      have hpost : map e = true := by
        rw [← hout e (by omega) (by omega)]
        exact hright he
      have := h.right_free.apart hpost
      rw [hout _ (by omega) (by omega)]
      exact h.right_end hne
  · by_cases hin : a ≤ i ∧ i < e
    · omega
    · rw [hout i hi (by omega)] at hi'
      have := h.first_le i hi hi'
      omega

/-- **A run is taken** that is apart from the longest one. -/
theorem Summary.shrink (h : Summary map size longest start left right first) (hae : a < e)
    (hsize : e ≤ size) (hf : Free map a e) (hapart : start + longest ≤ a ∨ e ≤ start)
    (hin : ∀ i, a ≤ i → i < e → map' i = true)
    (hout : ∀ i < size, i < a ∨ e ≤ i → map' i = map i) :
    Summary map' size longest start (min left a) (min right (size - e)) first := by
  have hmono : ∀ {b f}, f ≤ size → Free map' b f → Free map b f := by
    intro b f hf' hbf i h1 h2
    by_cases hi : a ≤ i ∧ i < e
    · have := hbf i h1 h2
      rw [hin i hi.1 hi.2] at this
      exact absurd this (by decide)
    · rw [← hout i (by omega) (by omega)]
      exact hbf i h1 h2
  have hkeep : ∀ {b f}, f ≤ size → (f ≤ a ∨ e ≤ b) → Free map b f → Free map' b f := by
    intro b f hf' hd hbf i h1 h2
    rw [hout i (by omega) (by omega)]
    exact hbf i h1 h2
  have hll := h.left_le
  have hrl := h.right_le
  refine ⟨fun b f hf' hbf => h.most b f hf' (hmono hf' hbf), h.fits,
    hkeep h.fits (by omega) h.run, by omega, ?_, fun hne => ?_, by omega, ?_, fun hne => ?_,
    fun i hi hi' => ?_⟩
  · exact hkeep (by omega) (by omega) (h.left_free.mono le_rfl (by omega))
  · rcases Nat.lt_or_ge left a with hla | hla
    · rw [min_eq_left hla.le] at hne ⊢
      rw [hout left (by omega) (by omega)]
      exact h.left_end hne
    · rw [min_eq_right hla]
      exact hin a le_rfl hae
  · exact hkeep le_rfl (by omega) (h.right_free.mono (by omega) le_rfl)
  · rcases Nat.lt_or_ge right (size - e) with hre | hre
    · rw [min_eq_left hre.le] at hne ⊢
      -- what is before the run at the right edge is taken, so not in the run that is taken now
      have hset := h.right_end hne
      have := hf.apart hset
      rw [hout _ (by omega) (by omega)]
      exact hset
    · rw [min_eq_right hre]
      exact hin _ (by omega) (by omega)
  · by_cases hi2 : a ≤ i ∧ i < e
    · rw [hin i hi2.1 hi2.2] at hi'
      exact absurd hi' (by decide)
    · rw [hout i hi (by omega)] at hi'
      exact h.first_le i hi hi'

end HardStack.Lib.FreeRuns
