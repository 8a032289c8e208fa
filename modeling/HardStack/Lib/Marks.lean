import HardStack.Lib.Trie

/-! # Marks in a trie

A mark at every slot of a cell, summed up on the way to the root: the slot of a cell is marked exactly
when some slot of that cell is (`Summed`). A mark high up then stands for a mark at the leaves
(`Summed.mark_iff`): the indices whose slot in a leaf is not marked are `Closed`, and a slot is marked
if and only if there is an index below it that is not closed. -/

namespace HardStack.Lib.Trie

variable {ν α : Type*} {b : ℕ} {T : Store ν α} {mark : ν → ℕ → Bool} {top : Bool}

/-- Some slot of the cell is marked. -/
def AnyMark (b : ℕ) (mark : ν → ℕ → Bool) (n : ν) : Prop := ∃ o < 2 ^ b, mark n o = true

/-- **Marks are summed up**, link by link. -/
structure Summed (b : ℕ) (T : Store ν α) (mark : ν → ℕ → Bool) (top : Bool) : Prop where
  node : ∀ n ∈ T.live, ∀ o < 2 ^ b, ∀ m, (T.cell n).slot o = .node m →
    (mark n o = true ↔ AnyMark b mark m)
  root : ∀ r, T.root = .node r → (top = true ↔ AnyMark b mark r)

/-- Empty slots are marked. -/
def MarksEmpty (b : ℕ) (T : Store ν α) (mark : ν → ℕ → Bool) : Prop :=
  ∀ n ∈ T.live, ∀ o < 2 ^ b, (T.cell n).slot o = .empty → mark n o = true

/-- The slot of the index in a leaf is not marked. -/
def Closed (b : ℕ) (T : Store ν α) (mark : ν → ℕ → Bool) (i : ℕ) : Prop :=
  ∃ n ∈ T.live, (T.cell n).shift = 0 ∧ (T.cell n).pre = i / 2 ^ b ∧ mark n (i % 2 ^ b) = false

namespace Summed

theorem closed_iff (hwf : Wf b T) (hb : 0 < b) {n : ν} (hn : n ∈ T.live) (hs : (T.cell n).shift = 0)
    {i : ℕ} (hp : (T.cell n).pre = i / 2 ^ b) :
    Closed b T mark i ↔ mark n (i % 2 ^ b) = false := by
  constructor
  · rintro ⟨m, hm, hms, hmp, hmark⟩
    rwa [hwf.unique hb hn hm (by omega) (hp.trans hmp.symm)]
  · exact fun hmark => ⟨n, hn, hs, hp, hmark⟩

/-- Without a mark on the slot everything below it is closed. -/
theorem closed_of_unmarked (h : Summed b T mark top) (hwf : Wf b T) (hb : 0 < b)
    (he : MarksEmpty b T mark) {n : ν} {i : ℕ} (hn : n ∈ T.live)
    (hp : (T.cell n).pre = i / 2 ^ ((T.cell n).shift + b))
    (hmark : mark n (i / 2 ^ (T.cell n).shift % 2 ^ b) = false) : Closed b T mark i := by
  induction hk : (T.cell n).shift using Nat.strong_induction_on generalizing n with
  | _ k ih =>
    subst hk
    have ho : i / 2 ^ (T.cell n).shift % 2 ^ b < 2 ^ b := Nat.mod_lt _ (by positivity)
    cases hslot : (T.cell n).slot (i / 2 ^ (T.cell n).shift % 2 ^ b) with
    | empty =>
      rw [he n hn _ ho hslot] at hmark
      cases hmark
    | item a =>
      have hs := hwf.leaf n hn _ ho a hslot
      rw [hs, zero_add] at hp
      rw [hs, pow_zero, Nat.div_one] at hmark
      exact ⟨n, hn, hs, hp, hmark⟩
    | node m =>
      obtain ⟨hm, hs, hpm⟩ := hwf.find_child hn hp hslot
      have hnone : ¬ AnyMark b mark m := by
        rw [← h.node n hn _ ho m hslot, hmark]
        simp
      refine ih _ (by omega) hm hpm ?_ rfl
      by_contra hne
      exact hnone ⟨_, Nat.mod_lt _ (by positivity), by simpa using hne⟩

/-- Below a marked slot there is an index that is not closed. -/
theorem exists_open (h : Summed b T mark top) (hwf : Wf b T) (hb : 0 < b) {n : ν} {o : ℕ}
    (hn : n ∈ T.live) (ho : o < 2 ^ b) (hmark : mark n o = true) :
    ∃ i, i / 2 ^ (T.cell n).shift = (T.cell n).pre * 2 ^ b + o ∧ ¬ Closed b T mark i := by
  induction hk : (T.cell n).shift using Nat.strong_induction_on generalizing n o with
  | _ k ih =>
    subst hk
    by_cases h0 : (T.cell n).shift = 0
    · refine ⟨(T.cell n).pre * 2 ^ b + o, by rw [h0, pow_zero, Nat.div_one], ?_⟩
      rw [closed_iff hwf hb hn h0 (digit_div ho).symm, Nat.mul_add_mod_of_lt ho, hmark]
      simp
    · cases hslot : (T.cell n).slot o with
      | empty =>
        have hpos : 0 < 2 ^ (T.cell n).shift := by positivity
        refine ⟨((T.cell n).pre * 2 ^ b + o) * 2 ^ (T.cell n).shift, Nat.mul_div_cancel _ hpos, ?_⟩
        rintro ⟨m, hm, hms, hmp, -⟩
        -- a leaf there would hang below the slot
        obtain ⟨c, hc⟩ := hwf.slot_below hb hn hm (by omega) (by
          rw [pow_add, ← Nat.div_div_eq_div_mul, Nat.mul_div_cancel _ hpos, digit_div ho])
          (by rw [hms, zero_add]; exact hmp)
        rw [Nat.mul_div_cancel _ hpos, Nat.mul_add_mod_of_lt ho, hslot] at hc
        cases hc
      | item a => exact absurd (hwf.leaf n hn o ho a hslot) h0
      | node m =>
        obtain ⟨hm, hs, hpm⟩ := hwf.child hn ho hslot
        obtain ⟨o', ho', hmark'⟩ := (h.node n hn o ho m hslot).mp hmark
        obtain ⟨i, hi, hopen⟩ := ih _ (by omega) hm ho' hmark' rfl
        refine ⟨i, ?_, hopen⟩
        rw [hs, pow_add, ← Nat.div_div_eq_div_mul, hi, digit_div ho', hpm]

/-- **What a mark means**: below the slot there is an index that is not closed. -/
theorem mark_iff (h : Summed b T mark top) (hwf : Wf b T) (hb : 0 < b) (he : MarksEmpty b T mark)
    {n : ν} {o : ℕ} (hn : n ∈ T.live) (ho : o < 2 ^ b) : mark n o = true ↔
      ∃ i, i / 2 ^ (T.cell n).shift = (T.cell n).pre * 2 ^ b + o ∧ ¬ Closed b T mark i := by
  refine ⟨h.exists_open hwf hb hn ho, ?_⟩
  rintro ⟨i, hi, hopen⟩
  by_contra hne
  refine hopen (h.closed_of_unmarked hwf hb he hn ?_ ?_)
  · rw [pow_add, ← Nat.div_div_eq_div_mul, hi, digit_div ho]
  · rw [hi, Nat.mul_add_mod_of_lt ho]
    simpa using hne

/-- The mark at the top: there is an index in range that is not closed. -/
theorem top_iff (h : Summed b T mark top) (hwf : Wf b T) (hb : 0 < b) (he : MarksEmpty b T mark)
    {r : ν} (hr : T.root = .node r) :
    top = true ↔ ∃ i < 2 ^ ((T.cell r).shift + b), ¬ Closed b T mark i := by
  obtain ⟨hrl, hrp⟩ := hwf.root_node r hr
  have hpre := (hwf.top r hrl hrp).2.1
  have hsplit : ∀ i, i / 2 ^ ((T.cell r).shift + b) = i / 2 ^ (T.cell r).shift / 2 ^ b := by
    intro i
    rw [pow_add, Nat.div_div_eq_div_mul]
  rw [h.root r hr]
  constructor
  · rintro ⟨o, ho, hmark⟩
    obtain ⟨i, hi, hopen⟩ := h.exists_open hwf hb hrl ho hmark
    refine ⟨i, ?_, hopen⟩
    have hlt : i / 2 ^ ((T.cell r).shift + b) = 0 := by rw [hsplit, hi, digit_div ho, hpre]
    exact (Nat.div_eq_zero_iff_lt (by positivity)).mp hlt
  · rintro ⟨i, hi, hopen⟩
    have ho : i / 2 ^ (T.cell r).shift < 2 ^ b := by
      rw [Nat.div_lt_iff_lt_mul (by positivity), ← pow_add, Nat.add_comm]
      exact hi
    exact ⟨_, ho, (h.mark_iff hwf hb he hrl ho).mpr ⟨i, by rw [hpre, zero_mul, zero_add], hopen⟩⟩

end Summed

/-! ### Changes of one mark

After a change of a mark in `m` only the link above `m` may be wrong. -/

/-- Marks are summed up, except at the link above the cell `m`. -/
structure SummedBut (b : ℕ) (T : Store ν α) (mark : ν → ℕ → Bool) (top : Bool) (m : ν) : Prop where
  node : ∀ n ∈ T.live, ∀ o < 2 ^ b, ∀ c, (T.cell n).slot o = .node c → c ≠ m →
    (mark n o = true ↔ AnyMark b mark c)
  root : ∀ r, T.root = .node r → r ≠ m → (top = true ↔ AnyMark b mark r)

/-- The link above a cell: from the slot that holds it, or from the top. -/
def LinkAbove (b : ℕ) (T : Store ν α) (mark : ν → ℕ → Bool) (top : Bool) (n : ν) : Prop :=
  (∀ p, (T.cell n).parent = some p → (mark p (T.cell n).offset = true ↔ AnyMark b mark n)) ∧
    ((T.cell n).parent = none → (top = true ↔ AnyMark b mark n))

theorem LinkAbove.of_parent {n p : ν} (hp : (T.cell n).parent = some p)
    (h : mark p (T.cell n).offset = true ↔ AnyMark b mark n) : LinkAbove b T mark top n := by
  refine ⟨fun q hq => ?_, fun hq => ?_⟩
  · rw [hp] at hq
    cases hq
    exact h
  · rw [hp] at hq
    cases hq

theorem LinkAbove.of_top {n : ν} (hp : (T.cell n).parent = none)
    (h : top = true ↔ AnyMark b mark n) : LinkAbove b T mark top n := by
  refine ⟨fun q hq => ?_, fun _ => h⟩
  rw [hp] at hq
  cases hq

theorem Summed.but (h : Summed b T mark top) (m : ν) : SummedBut b T mark top m :=
  ⟨fun n hn o ho c hc _ => h.node n hn o ho c hc, fun r hr _ => h.root r hr⟩

namespace SummedBut

variable {m n : ν}

/-- Above the root's cell the mark at the top does not matter. -/
theorem of_root (h : SummedBut b T mark top m) (hr : T.root = .node m) (top' : Bool) :
    SummedBut b T mark top' m := by
  refine ⟨h.node, fun r hr' hne => ?_⟩
  rw [hr] at hr'
  exact absurd (Entry.node.inj hr').symm hne

/-- Where the link above the cell holds as well. -/
theorem summed (h : SummedBut b T mark top m) (hwf : Wf b T) (hl : LinkAbove b T mark top m) :
    Summed b T mark top := by
  constructor
  · intro n hn o ho c hc
    by_cases hcm : c = m
    · subst hcm
      obtain ⟨-, hp, hoff⟩ := hwf.down n hn o ho c hc
      rw [← hoff]
      exact hl.1 n hp
    · exact h.node n hn o ho c hc hcm
  · intro r hr
    by_cases hrm : r = m
    · subst hrm
      exact hl.2 (hwf.root_node r hr).2
    · exact h.root r hr hrm

theorem linkAbove (h : SummedBut b T mark top m) (hwf : Wf b T) (hn : n ∈ T.live) (hne : n ≠ m) :
    LinkAbove b T mark top n := by
  refine ⟨fun p hp => ?_, fun hp => h.root n (hwf.top n hn hp).1 hne⟩
  obtain ⟨hpl, ho, hslot, -⟩ := hwf.up n hn p hp
  exact h.node p hpl _ ho n hslot hne

end SummedBut

theorem Summed.linkAbove (h : Summed b T mark top) (hwf : Wf b T) {n : ν} (hn : n ∈ T.live) :
    LinkAbove b T mark top n := by
  refine ⟨fun p hp => ?_, fun hp => h.root n (hwf.top n hn hp).1⟩
  obtain ⟨hpl, ho, hslot, -⟩ := hwf.up n hn p hp
  exact h.node p hpl _ ho n hslot

section

variable [DecidableEq ν]

/-- The marks with the one of a slot rewritten. -/
def setMark (mark : ν → ℕ → Bool) (n : ν) (o : ℕ) (v : Bool) : ν → ℕ → Bool :=
  Function.update mark n (Function.update (mark n) o v)

@[simp] theorem setMark_self (n : ν) (o : ℕ) (v : Bool) : setMark mark n o v n o = v := by
  simp [setMark]

theorem setMark_ne {n x : ν} {o y : ℕ} (v : Bool) (h : ¬ (x = n ∧ y = o)) :
    setMark mark n o v x y = mark x y := by
  unfold setMark
  by_cases hx : x = n
  · subst hx
    rw [Function.update_self, Function.update_of_ne fun hy => h ⟨rfl, hy⟩]
  · rw [Function.update_of_ne hx]

theorem anyMark_setMark_ne {n x : ν} (o : ℕ) (v : Bool) (h : x ≠ n) :
    AnyMark b (setMark mark n o v) x ↔ AnyMark b mark x := by
  unfold AnyMark
  have hne : ∀ y, setMark mark n o v x y = mark x y := fun y => setMark_ne v fun hx => h hx.1
  simp only [hne]

namespace SummedBut

variable {m n : ν} {o : ℕ}

/-- **A mark is changed**: the link at its slot holds, and the wrong link moves up. -/
theorem setMark (h : SummedBut b T mark top m) (hwf : Wf b T) (hn : n ∈ T.live) (ho : o < 2 ^ b)
    (hm : m = n ∨ (T.cell n).slot o = .node m) {v : Bool}
    (hlink : ∀ c, (T.cell n).slot o = .node c → (v = true ↔ AnyMark b mark c)) :
    SummedBut b T (setMark mark n o v) top n := by
  constructor
  · intro x hx y hy c hc hcn
    rw [anyMark_setMark_ne o v hcn]
    by_cases hxy : x = n ∧ y = o
    · obtain ⟨rfl, rfl⟩ := hxy
      rw [setMark_self]
      exact hlink c hc
    · rw [setMark_ne v hxy]
      refine h.node x hx y hy c hc ?_
      rintro rfl
      -- the slot above `m` is unique
      rcases hm with rfl | hm
      · exact hcn rfl
      · obtain ⟨-, h1, h2⟩ := hwf.down x hx y hy c hc
        obtain ⟨-, h3, h4⟩ := hwf.down n hn o ho c hm
        rw [h1] at h3
        exact hxy ⟨Option.some.inj h3, h2.symm.trans h4⟩
  · intro r hr hrn
    rw [anyMark_setMark_ne o v hrn]
    refine h.root r hr ?_
    rintro rfl
    rcases hm with rfl | hm
    · exact hrn rfl
    · have hdown := hwf.down n hn o ho r hm
      rw [(hwf.root_node r hr).2] at hdown
      cases hdown.2.1

end SummedBut

/-- A change in a cell that stays marked, or not marked. -/
theorem LinkAbove.setMark {n : ν} (h : LinkAbove b T mark top n) (hb : 0 < b) (hwf : Wf b T)
    (hn : n ∈ T.live) {o : ℕ} {v : Bool}
    (hany : AnyMark b (setMark mark n o v) n ↔ AnyMark b mark n) :
    LinkAbove b T (setMark mark n o v) top n := by
  refine ⟨fun p hp => ?_, fun hp => by rw [hany]; exact h.2 hp⟩
  have hpn : p ≠ n := by
    rintro rfl
    have := (hwf.up p hn p hp).2.2.2.1
    omega
  rw [hany, setMark_ne v fun hx => hpn hx.1]
  exact h.1 p hp

end

end HardStack.Lib.Trie
