import Mathlib

/-! # Tries in memory

A trie over numbers with `2 ^ b` slots a node, as linked cells: a cell knows its parent and its place
there, the width of what is below it (`shift`), and how many of its slots are in use. The field `pre`
is for the proofs only: the leading digits of every index below the cell.

The shape of the trie is a set of local conditions (`Wf`), one for each link, so that a change of one
cell is checked at its neighbours only. The content is flat as well: `Holds T i a` looks for a leaf
cell with the right leading digits, not for a path. That a descent from the root agrees with it
(`Wf.find_item`, `Wf.find_empty`) is the one place where paths matter. -/

namespace HardStack.Lib.Trie

/-- What a slot holds. -/
inductive Entry (ν α : Type*)
  | empty
  | item (a : α)
  | node (n : ν)

/-- The slot is in use. -/
def Entry.used {ν α : Type*} : Entry ν α → Bool
  | .empty => false
  | _ => true

@[simp] theorem Entry.used_empty {ν α : Type*} : (Entry.empty : Entry ν α).used = false := rfl

@[simp] theorem Entry.used_item {ν α : Type*} (a : α) : (Entry.item a : Entry ν α).used = true := rfl

@[simp] theorem Entry.used_node {ν α : Type*} (n : ν) : (Entry.node n : Entry ν α).used = true := rfl

@[ext]
structure Cell (ν α : Type*) where
  shift : ℕ
  offset : ℕ
  count : ℕ
  parent : Option ν
  slot : ℕ → Entry ν α
  pre : ℕ

/-- The entry at the top, the cells in use and the memory they live in. -/
@[ext]
structure Store (ν α : Type*) where
  root : Entry ν α
  live : Finset ν
  cell : ν → Cell ν α

variable {ν α : Type*} {b : ℕ} {T : Store ν α}

/-- The number of slots in use. -/
def Cell.size (b : ℕ) (c : Cell ν α) : ℕ :=
  ((Finset.range (2 ^ b)).filter fun o => (c.slot o).used).card

/-- **The shape of a trie**, link by link. -/
structure Wf (b : ℕ) (T : Store ν α) : Prop where
  root_node : ∀ n, T.root = .node n → n ∈ T.live ∧ (T.cell n).parent = none
  top : ∀ n ∈ T.live, (T.cell n).parent = none →
    T.root = .node n ∧ (T.cell n).pre = 0 ∧ (T.cell n).offset = 0
  up : ∀ n ∈ T.live, ∀ p, (T.cell n).parent = some p → p ∈ T.live ∧
    (T.cell n).offset < 2 ^ b ∧ (T.cell p).slot (T.cell n).offset = .node n ∧
    (T.cell p).shift = (T.cell n).shift + b ∧
    (T.cell n).pre = (T.cell p).pre * 2 ^ b + (T.cell n).offset
  down : ∀ n ∈ T.live, ∀ o < 2 ^ b, ∀ m, (T.cell n).slot o = .node m →
    m ∈ T.live ∧ (T.cell m).parent = some n ∧ (T.cell m).offset = o
  leaf : ∀ n ∈ T.live, ∀ o < 2 ^ b, ∀ a, (T.cell n).slot o = .item a → (T.cell n).shift = 0
  dvd : ∀ n ∈ T.live, b ∣ (T.cell n).shift
  count : ∀ n ∈ T.live, (T.cell n).count = (T.cell n).size b

/-- **The content**: the item at an index. -/
def Holds (b : ℕ) (T : Store ν α) (i : ℕ) (a : α) : Prop :=
  (∃ n ∈ T.live, (T.cell n).shift = 0 ∧ (T.cell n).pre = i / 2 ^ b ∧
    (T.cell n).slot (i % 2 ^ b) = .item a) ∨ (T.root = .item a ∧ i = 0)

/-! ### Cells are determined by their width and their digits -/

theorem digit_div {p o B : ℕ} (h : o < B) : (p * B + o) / B = p := by
  rw [Nat.add_comm, Nat.add_mul_div_right _ _ (by omega), Nat.div_eq_of_lt h, zero_add]

theorem digit_inj {p q o o' B : ℕ} (ho : o < B) (ho' : o' < B) (h : p * B + o = q * B + o') :
    p = q ∧ o = o' := by
  have hpq : p = q := by rw [← digit_div ho (p := p), h, digit_div ho']
  subst hpq
  exact ⟨rfl, by omega⟩

namespace Wf

theorem child (h : Wf b T) {n m : ν} {o : ℕ} (hn : n ∈ T.live) (ho : o < 2 ^ b)
    (hm : (T.cell n).slot o = .node m) : m ∈ T.live ∧ (T.cell n).shift = (T.cell m).shift + b ∧
      (T.cell m).pre = (T.cell n).pre * 2 ^ b + o := by
  obtain ⟨hl, hp, hoff⟩ := h.down n hn o ho m hm
  obtain ⟨-, -, -, hs, hpre⟩ := h.up m hl n hp
  exact ⟨hl, hs, by rw [hpre, hoff]⟩

/-- **Climbing.** What holds at the top and passes from a cell to those right below it holds of every
cell: the width grows on the way up, and there is a largest one. -/
theorem climb (h : Wf b T) (hb : 0 < b) {P : ν → Prop}
    (top : ∀ n ∈ T.live, (T.cell n).parent = none → P n)
    (step : ∀ n ∈ T.live, ∀ p ∈ T.live, (T.cell n).parent = some p → P p → P n) :
    ∀ n ∈ T.live, P n := by
  intro n hn
  obtain ⟨N, hN⟩ : ∃ N, ∀ m ∈ T.live, (T.cell m).shift ≤ N :=
    ⟨T.live.sup fun m => (T.cell m).shift, fun m hm =>
      Finset.le_sup (f := fun m => (T.cell m).shift) hm⟩
  induction hk : N - (T.cell n).shift using Nat.strong_induction_on generalizing n with
  | _ k ih =>
    cases hp : (T.cell n).parent with
    | none => exact top n hn hp
    | some p =>
      obtain ⟨hpl, -, -, hs, -⟩ := h.up n hn p hp
      have := hN p hpl
      exact step n hn p hpl hp (ih (N - (T.cell p).shift) (by omega) p hpl rfl)

/-- Every cell lies below the root's. -/
theorem exists_root (h : Wf b T) (hb : 0 < b) : ∀ n ∈ T.live,
    ∃ r, T.root = .node r ∧ r ∈ T.live ∧ (T.cell n).shift ≤ (T.cell r).shift := by
  refine h.climb hb (fun n hn hp => ⟨n, (h.top n hn hp).1, hn, le_rfl⟩) ?_
  rintro n hn p - hp ⟨r, hr, hrl, hle⟩
  obtain ⟨-, -, -, hs, -⟩ := h.up n hn p hp
  exact ⟨r, hr, hrl, by omega⟩

/-- Without a cell at the root there are no cells. -/
theorem live_empty (h : Wf b T) (hb : 0 < b) (hroot : ∀ r, T.root ≠ .node r) : T.live = ∅ := by
  rw [Finset.eq_empty_iff_forall_notMem]
  intro n hn
  obtain ⟨r, hr, -⟩ := h.exists_root hb _ hn
  exact hroot r hr

/-- The cell above another at a given width. -/
theorem ancestor (h : Wf b T) (hb : 0 < b) {r : ν} (hr : T.root = .node r) : ∀ {k : ℕ} {n : ν},
    n ∈ T.live → (T.cell n).shift + b * k ≤ (T.cell r).shift →
    ∃ m ∈ T.live, (T.cell m).shift = (T.cell n).shift + b * k ∧
      (T.cell m).pre = (T.cell n).pre / 2 ^ (b * k)
  | 0, n, hn, _ => ⟨n, hn, by simp, by simp⟩
  | k + 1, n, hn, hle => by
    rw [Nat.mul_succ] at hle
    cases hp : (T.cell n).parent with
    | none =>
      have hroot := (h.top n hn hp).1
      rw [hr] at hroot
      cases hroot
      omega
    | some p =>
      obtain ⟨hpl, ho, -, hs, hpre⟩ := h.up n hn p hp
      obtain ⟨m, hm, hms, hmp⟩ := ancestor h hb hr (k := k) hpl (by omega)
      refine ⟨m, hm, by rw [hms, hs, Nat.mul_succ]; omega, ?_⟩
      rw [hmp, hpre, Nat.mul_succ, Nat.add_comm (b * k) b, pow_add, ← Nat.div_div_eq_div_mul]
      rw [digit_div ho]

/-- **Cells are determined** by their width and their digits. -/
theorem unique (h : Wf b T) (hb : 0 < b) {n m : ν} (hn : n ∈ T.live) (hm : m ∈ T.live)
    (hs : (T.cell n).shift = (T.cell m).shift) (hp : (T.cell n).pre = (T.cell m).pre) : n = m := by
  obtain ⟨r, hr, hrl, hle⟩ := h.exists_root hb _ hn
  induction hk : (T.cell r).shift - (T.cell n).shift using Nat.strong_induction_on
    generalizing n m with
  | _ k ih =>
    have hrp := (h.root_node r hr).2
    -- a cell without a parent is the root's, and a cell below it has a smaller width
    have hbelow : ∀ x y, x ∈ T.live → y ∈ T.live → (T.cell x).shift = (T.cell y).shift →
        (T.cell x).parent = none → (T.cell y).parent = none := by
      intro x y hx hy hxy hnone
      cases hyp : (T.cell y).parent with
      | none => rfl
      | some p =>
        obtain ⟨hpl, -, -, hps, -⟩ := h.up y hy p hyp
        obtain ⟨r', hr', -, hle'⟩ := h.exists_root hb _ hpl
        have hxr := (h.top x hx hnone).1
        rw [hxr] at hr'
        cases hr'
        omega
    cases hpn : (T.cell n).parent with
    | none =>
      have h1 := (h.top n hn hpn).1
      have h2 := (h.top m hm (hbelow n m hn hm hs hpn)).1
      rw [h1] at h2
      cases h2
      rfl
    | some p =>
      cases hpm : (T.cell m).parent with
      | none => rw [hbelow m n hm hn hs.symm hpm] at hpn; cases hpn
      | some q =>
        obtain ⟨hpl, ho, hslot, hps, hpre⟩ := h.up n hn p hpn
        obtain ⟨hql, ho', hslot', hqs, hpre'⟩ := h.up m hm q hpm
        obtain ⟨r', hr', -, hle'⟩ := h.exists_root hb _ hpl
        rw [hr] at hr'
        cases hr'
        rw [hpre, hpre'] at hp
        obtain ⟨hpq, hoo⟩ := digit_inj ho ho' hp
        have hpq' : p = q := ih _ (by omega) hpl hql (by omega) hpq hle' rfl
        subst hpq'
        rw [hoo, hslot'] at hslot
        cases hslot
        rfl

/-! ### A descent agrees with the content -/

theorem eq_of_holds (h : Wf b T) (hb : 0 < b) {n : ν} {i : ℕ} {a : α} (hn : n ∈ T.live)
    (hs : (T.cell n).shift = 0) (hp : (T.cell n).pre = i / 2 ^ b) (ha : Holds b T i a) :
    (T.cell n).slot (i % 2 ^ b) = .item a := by
  rcases ha with ⟨m, hm, hms, hmp, hslot⟩ | ⟨hroot, -⟩
  · rwa [h.unique hb hn hm (hs.trans hms.symm) (hp.trans hmp.symm)]
  · obtain ⟨r, hr, -⟩ := h.exists_root hb _ hn
    rw [hroot] at hr
    cases hr

/-- The step of a descent: the slot of an index lies in range, and the child has its digits. -/
theorem find_child (h : Wf b T) {n m : ν} {i : ℕ} (hn : n ∈ T.live)
    (hp : (T.cell n).pre = i / 2 ^ ((T.cell n).shift + b))
    (hm : (T.cell n).slot (i / 2 ^ (T.cell n).shift % 2 ^ b) = .node m) :
    m ∈ T.live ∧ (T.cell n).shift = (T.cell m).shift + b ∧
      (T.cell m).pre = i / 2 ^ ((T.cell m).shift + b) := by
  obtain ⟨hl, hs, hpre⟩ := h.child hn (Nat.mod_lt _ (by positivity)) hm
  refine ⟨hl, hs, ?_⟩
  rw [hpre, hp, pow_add, ← Nat.div_div_eq_div_mul, ← hs]
  exact Nat.div_add_mod' _ _

/-- **A descent that ends at an item** has found the content. -/
theorem find_item (h : Wf b T) {n : ν} {i : ℕ} {a : α} (hn : n ∈ T.live)
    (hp : (T.cell n).pre = i / 2 ^ ((T.cell n).shift + b))
    (ha : (T.cell n).slot (i / 2 ^ (T.cell n).shift % 2 ^ b) = .item a) : Holds b T i a := by
  have hs := h.leaf n hn _ (Nat.mod_lt _ (by positivity)) a ha
  rw [hs] at hp ha
  rw [zero_add] at hp
  rw [pow_zero, Nat.div_one] at ha
  exact Or.inl ⟨n, hn, hs, hp, ha⟩

/-- Above a cell, the slot on the way to it holds a cell. -/
theorem slot_below (h : Wf b T) (hb : 0 < b) {n m : ν} {i : ℕ} (hn : n ∈ T.live) (hm : m ∈ T.live)
    (hlt : (T.cell m).shift < (T.cell n).shift)
    (hp : (T.cell n).pre = i / 2 ^ ((T.cell n).shift + b))
    (hmp : (T.cell m).pre = i / 2 ^ ((T.cell m).shift + b)) :
    ∃ c, (T.cell n).slot (i / 2 ^ (T.cell n).shift % 2 ^ b) = .node c := by
  obtain ⟨r, hr, -, hle⟩ := h.exists_root hb _ hn
  obtain ⟨k, hk⟩ : ∃ k, (T.cell n).shift = (T.cell m).shift + b * k + b := by
    obtain ⟨x, hx⟩ := h.dvd n hn
    obtain ⟨y, hy⟩ := h.dvd m hm
    have hxy : y < x := lt_of_mul_lt_mul_left (by omega : b * y < b * x) (by omega)
    obtain ⟨k, rfl⟩ : ∃ k, x = y + k + 1 := ⟨x - y - 1, by omega⟩
    exact ⟨k, by rw [hx, hy]; ring⟩
  -- the cell just below `n` on the way, and its parent
  obtain ⟨c, hc, hcs, hcp⟩ := h.ancestor hb hr (k := k) hm (by omega)
  rw [hmp, Nat.div_div_eq_div_mul, ← pow_add] at hcp
  have hroot : (T.cell c).parent ≠ none := by
    intro hnone
    have hcr := (h.top c hc hnone).1
    rw [hr] at hcr
    cases hcr
    omega
  obtain ⟨p, hcpar⟩ := Option.ne_none_iff_exists'.mp hroot
  obtain ⟨hpl, hco, hslot, hps, hpp⟩ := h.up c hc p hcpar
  have hshift : (T.cell n).shift = (T.cell m).shift + b + b * k := by omega
  rw [hcp, ← hshift, ← Nat.div_add_mod' (i / 2 ^ (T.cell n).shift) (2 ^ b)] at hpp
  obtain ⟨hq, ho⟩ := digit_inj (Nat.mod_lt _ (by positivity)) hco hpp
  have hpn : p = n := by
    refine h.unique hb hpl hn (by omega) ?_
    rw [hp, pow_add, ← Nat.div_div_eq_div_mul, hq]
  rw [hpn, ← ho] at hslot
  exact ⟨c, hslot⟩

/-- **A descent that ends at an empty slot**: there is no content. -/
theorem find_empty (h : Wf b T) (hb : 0 < b) {n : ν} {i : ℕ} (hn : n ∈ T.live)
    (hp : (T.cell n).pre = i / 2 ^ ((T.cell n).shift + b))
    (he : (T.cell n).slot (i / 2 ^ (T.cell n).shift % 2 ^ b) = .empty) (a : α) :
    ¬ Holds b T i a := by
  intro ha
  by_cases h0 : (T.cell n).shift = 0
  · rw [h0, zero_add] at hp
    rw [h0, pow_zero, Nat.div_one] at he
    rw [h.eq_of_holds hb hn h0 hp ha] at he
    cases he
  · obtain ⟨r, hr, -⟩ := h.exists_root hb _ hn
    rcases ha with ⟨m, hm, hms, hmp, -⟩ | ⟨hroot, -⟩
    · obtain ⟨c, hslot⟩ := h.slot_below hb hn hm (by omega) hp (by rw [hmp, hms, zero_add])
      rw [hslot] at he
      cases he
    · rw [hroot] at hr
      cases hr

/-- An index with a leaf has no digits above the root's. -/
theorem lt_of_leaf (h : Wf b T) (hb : 0 < b) {r m : ν} {i : ℕ} (hr : T.root = .node r)
    (hm : m ∈ T.live) (hms : (T.cell m).shift = 0) (hmp : (T.cell m).pre = i / 2 ^ b) :
    i < 2 ^ ((T.cell r).shift + b) := by
  obtain ⟨hrl, hrp⟩ := h.root_node r hr
  obtain ⟨k, hk⟩ := h.dvd r hrl
  obtain ⟨c, hc, hcs, hcp⟩ := h.ancestor hb hr (k := k) hm (by omega)
  have hcr : c = r := by
    by_contra hne
    cases hpar : (T.cell c).parent with
    | none =>
      have hcr := (h.top c hc hpar).1
      rw [hr] at hcr
      cases hcr
      exact hne rfl
    | some p =>
      obtain ⟨hpl, -, -, hps, -⟩ := h.up c hc p hpar
      obtain ⟨r', hr', -, hle⟩ := h.exists_root hb _ hpl
      rw [hr] at hr'
      cases hr'
      omega
  rw [hcr, (h.top r hrl hrp).2.1, hmp, Nat.div_div_eq_div_mul, ← pow_add] at hcp
  rw [hk, Nat.add_comm]
  exact (Nat.div_eq_zero_iff_lt (by positivity)).mp hcp.symm

/-- Content lies below the root. -/
theorem lt_of_holds (h : Wf b T) (hb : 0 < b) {r : ν} {i : ℕ} {a : α} (hr : T.root = .node r)
    (ha : Holds b T i a) : i < 2 ^ ((T.cell r).shift + b) := by
  rcases ha with ⟨m, hm, hms, hmp, -⟩ | ⟨hroot, -⟩
  · exact h.lt_of_leaf hb hr hm hms hmp
  · rw [hroot] at hr
    cases hr

theorem holds_unique (h : Wf b T) (hb : 0 < b) {i : ℕ} {a a' : α} (ha : Holds b T i a)
    (ha' : Holds b T i a') : a = a' := by
  rcases ha with ⟨n, hn, hs, hp, hslot⟩ | ⟨hroot, h0⟩
  · rw [h.eq_of_holds hb hn hs hp ha'] at hslot
    exact (Entry.item.inj hslot).symm
  · rcases ha' with ⟨n, hn, -⟩ | ⟨hroot', -⟩
    · obtain ⟨r, hr, -⟩ := h.exists_root hb _ hn
      rw [hroot] at hr
      cases hr
    · rw [hroot] at hroot'
      exact Entry.item.inj hroot'

end Wf

/-! ### The number of slots in use -/

namespace Cell

variable {c : Cell ν α} {o : ℕ} {e : Entry ν α}

/-- The cell with a slot and the count rewritten. -/
def put (c : Cell ν α) (o : ℕ) (e : Entry ν α) (k : ℕ) : Cell ν α :=
  { c with slot := Function.update c.slot o e, count := k }

theorem size_put (k : ℕ) (ho : o < 2 ^ b) (he : c.slot o = .empty) (hu : e.used) :
    (c.put o e k).size b = c.size b + 1 := by
  have heq : ((Finset.range (2 ^ b)).filter fun x => (Function.update c.slot o e x).used) =
      insert o ((Finset.range (2 ^ b)).filter fun x => (c.slot x).used) := by
    ext x
    by_cases hx : x = o
    · subst hx; simp [hu, ho]
    · simp [hx]
  show (Finset.filter (fun x => (Function.update c.slot o e x).used) _).card = _
  rw [heq, Finset.card_insert_of_notMem (by simp [he])]
  rfl

theorem size_clear (k : ℕ) (ho : o < 2 ^ b) (hu : (c.slot o).used) :
    (c.put o .empty k).size b + 1 = c.size b := by
  have heq : ((Finset.range (2 ^ b)).filter fun x => (Function.update c.slot o .empty x).used) =
      ((Finset.range (2 ^ b)).filter fun x => (c.slot x).used).erase o := by
    ext x
    by_cases hx : x = o
    · subst hx; simp
    · simp [hx]
  show (Finset.filter (fun x => (Function.update c.slot o .empty x).used) _).card + 1 = _
  rw [heq, Finset.card_erase_add_one (by simp [hu, ho])]
  rfl

/-- Replacing an entry by one that is used if and only if it was. -/
theorem size_replace (k : ℕ) (hu : (c.slot o).used = e.used) : (c.put o e k).size b = c.size b := by
  unfold size put
  congr 1
  refine Finset.filter_congr fun x _ => ?_
  by_cases hx : x = o
  · subst hx; simp [hu]
  · simp [hx]

theorem size_eq_zero (h : ∀ o < 2 ^ b, c.slot o = .empty) : c.size b = 0 := by
  unfold size
  rw [Finset.card_eq_zero, Finset.filter_eq_empty_iff]
  intro x hx
  rw [h x (Finset.mem_range.mp hx)]
  simp

theorem empty_of_size (h : c.size b = 0) (ho : o < 2 ^ b) : c.slot o = .empty := by
  unfold size at h
  rw [Finset.card_eq_zero, Finset.filter_eq_empty_iff] at h
  have := h (Finset.mem_range.mpr ho)
  cases hs : c.slot o <;> simp_all

/-- With one slot in use the others are empty. -/
theorem empty_of_size_one (h : c.size b = 1) (ho : o < 2 ^ b) (hu : (c.slot o).used) {y : ℕ}
    (hy : y < 2 ^ b) (hne : y ≠ o) : c.slot y = .empty := by
  have h1 := size_clear 0 ho hu
  have h2 := empty_of_size (c := c.put o .empty 0) (by omega) hy
  simpa [put, hne] using h2

theorem size_le (b : ℕ) (c : Cell ν α) : c.size b ≤ 2 ^ b :=
  (Finset.card_filter_le _ _).trans (by simp)

end Cell

/-! ### Changes -/

def Store.setRoot (T : Store ν α) (e : Entry ν α) : Store ν α := { T with root := e }

@[simp, grind =] theorem Store.root_setRoot {e : Entry ν α} : (T.setRoot e).root = e := rfl

@[simp, grind =] theorem Store.live_setRoot {e : Entry ν α} : (T.setRoot e).live = T.live := rfl

@[simp, grind =] theorem Store.cell_setRoot {e : Entry ν α} {x : ν} :
    (T.setRoot e).cell x = T.cell x := rfl

namespace Wf

/-- Writing an item at the root of a trie without cells. -/
theorem setRoot {e : Entry ν α} (h : Wf b T) (hb : 0 < b) (hold : ∀ m, T.root ≠ .node m) (hnew : ∀ m, e ≠ .node m) :
    Wf b (T.setRoot e) ∧ ∀ i a, Holds b (T.setRoot e) i a ↔ e = .item a ∧ i = 0 := by
  have hempty := h.live_empty hb hold
  refine ⟨⟨fun n hn => absurd hn (hnew n), ?_, ?_, ?_, ?_, ?_, ?_⟩, ?_⟩
  all_goals simp [Holds, hempty]

/-- A change that leaves the leaves of the trie, and the item at the root, leaves the content. -/
theorem holds_congr {T' : Store ν α} (hroot : ∀ a, T'.root = .item a ↔ T.root = .item a)
    (hcell : ∀ n a o, (n ∈ T'.live ∧ (T'.cell n).shift = 0 ∧ (T'.cell n).slot o = .item a) ↔
      n ∈ T.live ∧ (T.cell n).shift = 0 ∧ (T.cell n).slot o = .item a)
    (hpre : ∀ n ∈ T.live, (T'.cell n).pre = (T.cell n).pre) (i : ℕ) (a : α) :
    Holds b T' i a ↔ Holds b T i a := by
  unfold Holds
  rw [hroot]
  refine or_congr_left (exists_congr fun n => ?_)
  have h1 := hcell n a (i % 2 ^ b)
  have h2 := hpre n
  grind

end Wf

/-! ### Memory outside of the trie -/

/-- Two stores with the same top and the same cells in use. -/
structure Agree (T U : Store ν α) : Prop where
  root : U.root = T.root
  live : U.live = T.live
  cell : ∀ x ∈ T.live, U.cell x = T.cell x

namespace Agree

variable {U : Store ν α}

/-- What is not in use does not matter to the shape. -/
theorem wf (hU : Agree T U) (h : Wf b T) : Wf b U := by
  have hmem : ∀ {x}, x ∈ U.live ↔ x ∈ T.live := by rw [hU.live]
  have hcell : ∀ {x}, x ∈ U.live → U.cell x = T.cell x := fun hx => hU.cell _ (hmem.mp hx)
  constructor
  · intro n hn
    obtain ⟨hl, hp⟩ := h.root_node n (hU.root ▸ hn)
    exact ⟨hmem.mpr hl, by rw [hU.cell n hl]; exact hp⟩
  · intro n hn hp
    rw [hU.root, hcell hn]
    exact h.top n (hmem.mp hn) (hcell hn ▸ hp)
  · intro n hn p hp
    have hup := h.up n (hmem.mp hn) p (hcell hn ▸ hp)
    rw [hcell hn, hmem, hU.cell p hup.1]
    exact hup
  · intro n hn o ho m hm
    have hdown := h.down n (hmem.mp hn) o ho m (hcell hn ▸ hm)
    rw [hmem, hU.cell m hdown.1]
    exact hdown
  · intro n hn
    rw [hcell hn]
    exact h.leaf n (hmem.mp hn)
  · intro n hn
    rw [hcell hn]
    exact h.dvd n (hmem.mp hn)
  · intro n hn
    rw [hcell hn]
    exact h.count n (hmem.mp hn)

theorem holds (hU : Agree T U) {i : ℕ} {a : α} : Holds b U i a ↔ Holds b T i a := by
  unfold Holds
  rw [hU.root, hU.live]
  refine or_congr_left (exists_congr fun n => and_congr_right fun hn => ?_)
  rw [hU.cell n hn]

end Agree

variable [DecidableEq ν]

namespace Store

/-- Write a slot and the count of a cell. -/
def setSlot (T : Store ν α) (n : ν) (o : ℕ) (e : Entry ν α) (k : ℕ) : Store ν α :=
  { T with cell := Function.update T.cell n ((T.cell n).put o e k) }

/-- A new cell without slots in use. -/
def alloc (T : Store ν α) (n : ν) (shift offset : ℕ) (parent : Option ν) (pre : ℕ) : Store ν α :=
  { T with
    live := insert n T.live
    cell := Function.update T.cell n ⟨shift, offset, 0, parent, fun _ => .empty, pre⟩ }

def free (T : Store ν α) (n : ν) : Store ν α := { T with live := T.live.erase n }

section

variable {n x : ν} {o k y : ℕ} {e : Entry ν α} {q : Option ν}

@[simp, grind =] theorem root_setSlot : (T.setSlot n o e k).root = T.root := rfl

@[simp, grind =] theorem live_setSlot : (T.setSlot n o e k).live = T.live := rfl

@[grind =] theorem cell_setSlot :
    (T.setSlot n o e k).cell x = if x = n then (T.cell n).put o e k else T.cell x := by
  simp [setSlot, Function.update_apply]

@[simp, grind =] theorem shift_setSlot :
    ((T.setSlot n o e k).cell x).shift = (T.cell x).shift := by
  rw [cell_setSlot]; split_ifs with h <;> simp [h, Cell.put]

@[simp, grind =] theorem offset_setSlot :
    ((T.setSlot n o e k).cell x).offset = (T.cell x).offset := by
  rw [cell_setSlot]; split_ifs with h <;> simp [h, Cell.put]

@[simp, grind =] theorem parent_setSlot :
    ((T.setSlot n o e k).cell x).parent = (T.cell x).parent := by
  rw [cell_setSlot]; split_ifs with h <;> simp [h, Cell.put]

@[simp, grind =] theorem pre_setSlot : ((T.setSlot n o e k).cell x).pre = (T.cell x).pre := by
  rw [cell_setSlot]; split_ifs with h <;> simp [h, Cell.put]

@[simp, grind =] theorem slot_setSlot : ((T.setSlot n o e k).cell x).slot y =
    if x = n ∧ y = o then e else (T.cell x).slot y := by
  rw [cell_setSlot]
  by_cases h : x = n
  · subst h; simp [Cell.put, Function.update_apply]
  · simp [h]

@[simp, grind =] theorem cell_alloc {s : ℕ} : (T.alloc n s o q k).cell x =
    if x = n then ⟨s, o, 0, q, fun _ => .empty, k⟩ else T.cell x := by
  simp [alloc, Function.update_apply]

@[simp, grind =] theorem live_alloc {s : ℕ} : (T.alloc n s o q k).live = insert n T.live := rfl

@[simp, grind =] theorem cell_free : (T.free n).cell x = T.cell x := rfl

@[simp, grind =] theorem live_free : (T.free n).live = T.live.erase n := rfl

@[simp, grind =] theorem root_free : (T.free n).root = T.root := rfl

@[simp, grind =] theorem root_alloc {s : ℕ} : (T.alloc n s o q k).root = T.root := rfl

end

end Store

namespace Wf

variable {n p : ν} {o i k s : ℕ} {a : α} {e : Entry ν α}

/-- **Writing an item**, or clearing it. -/
theorem setSlot (h : Wf b T) (hold : ∀ m, (T.cell n).slot o ≠ .node m)
    (hnew : ∀ m, e ≠ .node m) (hleaf : ∀ a, e = .item a → (T.cell n).shift = 0)
    (hk : k = ((T.cell n).put o e k).size b) : Wf b (T.setSlot n o e k) := by
  constructor
  · simpa using h.root_node
  · simpa using h.top
  · intro x hx p hp
    have := h.up x hx p (by simpa using hp)
    grind
  · intro x hx y hy m hm
    have := h.down x hx y hy m
    grind
  · intro x hx y hy m hm
    have := h.leaf x hx y hy m
    grind
  · simpa using h.dvd
  · intro x hx
    have := h.count x hx
    rw [Store.cell_setSlot]
    split_ifs with hxn
    · exact hk
    · exact this

theorem holds_setSlot (h : Wf b T) (hb : 0 < b) (hn : n ∈ T.live) (ho : o < 2 ^ b)
    (hs : (T.cell n).shift = 0) : Holds b (T.setSlot n o e k) i a ↔
      if i = (T.cell n).pre * 2 ^ b + o then e = .item a else Holds b T i a := by
  obtain ⟨r, hr, -⟩ := h.exists_root hb _ hn
  have hidx : i = (T.cell n).pre * 2 ^ b + o ↔ (T.cell n).pre = i / 2 ^ b ∧ i % 2 ^ b = o := by
    constructor
    · rintro rfl
      rw [digit_div ho, Nat.mul_add_mod', Nat.mod_eq_of_lt ho]
      exact ⟨rfl, rfl⟩
    · rintro ⟨h1, rfl⟩
      rw [h1, Nat.div_add_mod']
  unfold Holds
  simp only [Store.live_setSlot, Store.shift_setSlot, Store.pre_setSlot, Store.slot_setSlot,
    Store.root_setSlot, hr, reduceCtorEq, false_and, or_false]
  split_ifs with hi
  · constructor
    · rintro ⟨m, hm, hms, hmp, hslot⟩
      have hmn := h.unique hb hm hn (hms.trans hs.symm) (hmp.trans (hidx.mp hi).1.symm)
      rwa [if_pos ⟨hmn, (hidx.mp hi).2⟩] at hslot
    · rintro rfl
      exact ⟨n, hn, hs, (hidx.mp hi).1, if_pos ⟨rfl, (hidx.mp hi).2⟩⟩
  · refine exists_congr fun m => and_congr_right fun hm => and_congr_right fun hms =>
      and_congr_right fun hmp => ?_
    rw [if_neg]
    rintro ⟨rfl, ho'⟩
    exact hi (hidx.mpr ⟨hmp, ho'⟩)

/-- **A new cell** below an empty slot. -/
theorem addChild (h : Wf b T) (hp : p ∈ T.live) (hn : n ∉ T.live) (ho : o < 2 ^ b)
    (he : (T.cell p).slot o = .empty) (hs : (T.cell p).shift = s + b) :
    Wf b ((T.alloc n s o (some p) ((T.cell p).pre * 2 ^ b + o)).setSlot p o (.node n)
      ((T.cell p).count + 1)) := by
  have hne : ∀ x ∈ T.live, x ≠ n := fun x hx hxn => hn (hxn ▸ hx)
  have hpn := hne p hp
  have hmem : ∀ {x}, x ∈ insert n T.live → x ≠ n → x ∈ T.live := fun hx hxn =>
    (Finset.mem_insert.mp hx).resolve_left hxn
  constructor
  · intro x hx
    have := h.root_node x hx
    grind
  · intro x hx hpar
    have := h.top x
    grind
  · intro x hx q hq
    by_cases hxn : x = n
    · subst hxn
      grind
    · have := h.up x (hmem hx hxn) q
      grind
  · intro x hx y hy m hm
    by_cases hxn : x = n
    · subst hxn
      grind
    · have := h.down x (hmem hx hxn) y hy m
      grind
  · intro x hx y hy c hc
    have := h.leaf x
    grind
  · intro x hx
    have h1 := h.dvd p hp
    rw [hs, Nat.dvd_add_left dvd_rfl] at h1
    have := h.dvd x
    grind
  · intro x hx
    have h1 := h.count p hp
    have h2 := Cell.size_put (e := .node n) ((T.cell p).count + 1) ho he rfl
    have h3 : (⟨s, o, 0, some p, fun _ => .empty, (T.cell p).pre * 2 ^ b + o⟩ : Cell ν α).size b = 0 :=
      Cell.size_eq_zero fun _ _ => rfl
    have := h.count x
    grind [Cell.put]

theorem holds_addChild (hp : p ∈ T.live) (hn : n ∉ T.live) (he : (T.cell p).slot o = .empty) :
    Holds b ((T.alloc n s o (some p) k).setSlot p o (.node n) ((T.cell p).count + 1)) i a ↔
      Holds b T i a := by
  refine holds_congr (fun a => by simp) (fun x c y => ?_) (fun x hx => ?_) i a
  · grind
  · grind

/-- **Taking out an empty cell.** -/
theorem removeChild (h : Wf b T) (hn : n ∈ T.live) (hz : (T.cell n).size b = 0)
    (hp : (T.cell n).parent = some p) :
    Wf b ((T.setSlot p (T.cell n).offset .empty ((T.cell p).count - 1)).free n) := by
  obtain ⟨hpl, ho, hslot, hs, hpre⟩ := h.up n hn p hp
  have hempty : ∀ y < 2 ^ b, (T.cell n).slot y = .empty := fun y hy => Cell.empty_of_size hz hy
  have hpn : p ≠ n := by
    rintro rfl
    rw [hempty _ ho] at hslot
    cases hslot
  constructor
  · intro x hx
    have h1 := h.root_node x hx
    have hxn : x ≠ n := by
      rintro rfl
      rw [h1.2] at hp
      cases hp
    grind
  · intro x hx hpar
    have := h.top x
    grind
  · intro x hx q hq
    have h1 := h.up x (Finset.mem_of_mem_erase hx) q (by simpa using hq)
    -- the parent of another cell is not the empty one, and its slot is another
    have hqn : q ≠ n := by
      rintro rfl
      rw [hempty _ h1.2.1] at h1
      cases h1.2.2.1
    have hxn := Finset.ne_of_mem_erase hx
    have hslot' : ¬ (q = p ∧ (T.cell x).offset = (T.cell n).offset) := by
      rintro ⟨rfl, ho'⟩
      rw [ho', hslot] at h1
      exact hxn (Entry.node.inj h1.2.2.1).symm
    grind
  · intro x hx y hy m hm
    have h1 := h.down x (Finset.mem_of_mem_erase hx) y hy m
    have h2 : m = n → x = p ∧ y = (T.cell n).offset := by
      rintro rfl
      grind
    grind
  · intro x hx y hy c hc
    have := h.leaf x (Finset.mem_of_mem_erase hx) y hy c
    grind
  · intro x hx
    have := h.dvd x
    grind
  · intro x hx
    have h1 := h.count x (Finset.mem_of_mem_erase hx)
    have h2 := Cell.size_clear (c := T.cell p) ((T.cell p).count - 1) ho (by rw [hslot]; rfl)
    rw [Store.cell_free, Store.cell_setSlot]
    split_ifs with hxp
    · subst hxp
      show (T.cell x).count - 1 = _
      omega
    · exact h1

theorem holds_removeChild (h : Wf b T) (hn : n ∈ T.live) (hz : (T.cell n).size b = 0)
    (hp : (T.cell n).parent = some p) :
    Holds b ((T.setSlot p (T.cell n).offset .empty k).free n) i a ↔ Holds b T i a := by
  have hslot := (h.up n hn p hp).2.2.1
  unfold Holds
  refine or_congr_left (exists_congr fun x => ?_)
  have hempty := Cell.empty_of_size (o := i % 2 ^ b) hz (Nat.mod_lt _ (by positivity))
  by_cases hxn : x = n
  · subst hxn
    simp [hempty]
  · simp only [Store.live_free, Store.live_setSlot, Finset.mem_erase, hxn, Store.cell_free,
      Store.shift_setSlot, Store.pre_setSlot, Store.slot_setSlot, ne_eq, not_false_iff, true_and]
    grind

/-- Taking out the last cell. -/
theorem removeRoot (h : Wf b T) (hb : 0 < b) (hr : T.root = .node n)
    (hz : (T.cell n).size b = 0) : Wf b ((T.setRoot .empty).free n) ∧
      ∀ i a, Holds b ((T.setRoot .empty).free n) i a ↔ Holds b T i a := by
  -- a cell other than the root's would hang below one of its slots
  have hlive : T.live = {n} := by
    have hnl := (h.root_node n hr).1
    refine Finset.eq_singleton_iff_unique_mem.mpr ⟨hnl, h.climb hb (fun x hx hpar => ?_) ?_⟩
    · have hxr := (h.top x hx hpar).1
      rw [hr] at hxr
      exact (Entry.node.inj hxr).symm
    · rintro x hx q - hpar rfl
      obtain ⟨-, hqo, hqs, -⟩ := h.up x hx q hpar
      rw [Cell.empty_of_size hz hqo] at hqs
      cases hqs
  refine ⟨⟨?_, ?_, ?_, ?_, ?_, ?_, ?_⟩, fun i a => ?_⟩
  all_goals try simp [hlive]
  unfold Holds
  rw [hlive, hr]
  simp [hlive, Cell.empty_of_size hz (Nat.mod_lt i (show 0 < 2 ^ b by positivity))]

/-- A new cell at the root. -/
theorem addRoot (h : Wf b T) (hb : 0 < b) (hroot : T.root = .empty) (hs : b ∣ s) :
    Wf b ((T.alloc n s 0 none 0).setRoot (.node n)) ∧
      ∀ i a, Holds b ((T.alloc n s 0 none 0).setRoot (.node n)) i a ↔ Holds b T i a := by
  have hempty := h.live_empty hb (by simp [hroot])
  have hcell : ((T.alloc n s 0 none 0).setRoot (.node n)).cell n =
      ⟨s, 0, 0, none, fun _ => .empty, 0⟩ := by simp
  have hlive : ((T.alloc n s 0 none 0).setRoot (.node n)).live = {n} := by simp [hempty]
  have hsize : (⟨s, 0, 0, none, fun _ => .empty, 0⟩ : Cell ν α).size b = 0 :=
    Cell.size_eq_zero fun _ _ => rfl
  refine ⟨⟨?_, ?_, ?_, ?_, ?_, ?_, ?_⟩, fun i a => ?_⟩
  · rintro x hx
    cases hx
    rw [hlive, hcell]
    simp
  all_goals try simp only [hlive, Finset.mem_singleton, forall_eq, hcell]
  · simp
  · simp
  · simp
  · simp
  · exact hs
  · exact hsize.symm
  · unfold Holds
    rw [hlive, hempty, hroot]
    simp

end Wf

/-! ### Changes of the top -/

/-- The top of `U` is the new cell `n`, with the top of `T` in its first slot. -/
structure OnTop (T U : Store ν α) (n : ν) (s : ℕ) : Prop where
  root : U.root = .node n
  live : U.live = insert n T.live
  new : U.cell n = ⟨s, 0, 1, none, Function.update (fun _ => .empty) 0 T.root, 0⟩
  old : ∀ x ∈ T.live, U.cell x = { T.cell x with parent := (U.cell x).parent }
  below : ∀ x ∈ T.live, T.root = .node x → (U.cell x).parent = some n
  same : ∀ x ∈ T.live, T.root ≠ .node x → (U.cell x).parent = (T.cell x).parent

namespace OnTop

variable {U : Store ν α} {n : ν} {s : ℕ}

theorem fields (h : OnTop T U n s) {x : ν} (hx : x ∈ T.live) :
    (U.cell x).shift = (T.cell x).shift ∧ (U.cell x).offset = (T.cell x).offset ∧
      (U.cell x).slot = (T.cell x).slot ∧ (U.cell x).pre = (T.cell x).pre ∧
      (U.cell x).count = (T.cell x).count ∧ (U.cell x).size b = (T.cell x).size b := by
  rw [h.old x hx]
  exact ⟨rfl, rfl, rfl, rfl, rfl, rfl⟩

/-- **A new cell on top** keeps the shape. -/
theorem wf (hU : OnTop T U n s) (h : Wf b T) (hn : n ∉ T.live) (hused : T.root.used)
    (hitem : ∀ a, T.root = .item a → s = 0)
    (hnode : ∀ r, T.root = .node r → s = (T.cell r).shift + b) : Wf b U := by
  have hne : ∀ x ∈ T.live, x ≠ n := fun x hx hxn => hn (hxn ▸ hx)
  have hmem : ∀ {x}, x ∈ U.live → x ≠ n → x ∈ T.live := fun hx hxn =>
    (Finset.mem_insert.mp (hU.live ▸ hx)).resolve_left hxn
  have hin : ∀ {x}, x ∈ T.live → x ∈ U.live := fun hx => by rw [hU.live]; simp [hx]
  have hslot0 : (U.cell n).slot 0 = T.root := by rw [hU.new]; simp
  have hslot : ∀ y, y ≠ 0 → (U.cell n).slot y = .empty := fun y hy => by rw [hU.new]; simp [hy]
  constructor
  · intro x hx
    rw [hU.root] at hx
    cases hx
    rw [hU.live, hU.new]
    simp
  · intro x hx hpar
    by_cases hxn : x = n
    · rw [hxn, hU.root, hU.new]
      simp
    · -- below the new top every cell has a parent
      exfalso
      have hxT := hmem hx hxn
      by_cases hr : T.root = .node x
      · rw [hU.below x hxT hr] at hpar
        cases hpar
      · rw [hU.same x hxT hr] at hpar
        exact hr (h.top x hxT hpar).1
  · intro x hx q hq
    by_cases hxn : x = n
    · rw [hxn, hU.new] at hq
      cases hq
    · have hxT := hmem hx hxn
      obtain ⟨f1, f2, f3, f4, -, -⟩ := hU.fields (b := b) hxT
      by_cases hr : T.root = .node x
      · rw [hU.below x hxT hr] at hq
        cases hq
        obtain ⟨-, h1, h2⟩ := h.top x hxT (h.root_node x hr).2
        rw [f1, f2, f4, h1, h2, hslot0, hU.new, hr, hnode x hr]
        exact ⟨by rw [hU.live]; simp, by positivity, rfl, rfl, by simp⟩
      · rw [hU.same x hxT hr] at hq
        obtain ⟨hqT, g1, g2, g3, g4⟩ := h.up x hxT q hq
        obtain ⟨e1, -, e3, e4, -, -⟩ := hU.fields (b := b) hqT
        rw [f1, f2, f4, e1, e3, e4]
        exact ⟨hin hqT, g1, g2, g3, g4⟩
  · intro x hx y hy m hm
    by_cases hxn : x = n
    · rw [hxn] at hm
      by_cases hy0 : y = 0
      · rw [hy0, hslot0] at hm
        obtain ⟨hml, hmp⟩ := h.root_node m hm
        rw [(hU.fields (b := b) hml).2.1, hU.below m hml hm, (h.top m hml hmp).2.2, hxn, hy0]
        exact ⟨hin hml, rfl, rfl⟩
      · rw [hslot y hy0] at hm
        cases hm
    · have hxT := hmem hx hxn
      rw [(hU.fields (b := b) hxT).2.2.1] at hm
      obtain ⟨hml, hmp, hmo⟩ := h.down x hxT y hy m hm
      have hr : T.root ≠ .node m := by
        intro hr
        rw [(h.root_node m hr).2] at hmp
        cases hmp
      rw [(hU.fields (b := b) hml).2.1, hU.same m hml hr]
      exact ⟨hin hml, hmp, hmo⟩
  · intro x hx y hy c hc
    by_cases hxn : x = n
    · rw [hxn] at hc ⊢
      by_cases hy0 : y = 0
      · rw [hy0, hslot0] at hc
        rw [hU.new]
        exact hitem c hc
      · rw [hslot y hy0] at hc
        cases hc
    · have hxT := hmem hx hxn
      obtain ⟨f1, -, f3, -⟩ := hU.fields (b := b) hxT
      rw [f3] at hc
      rw [f1]
      exact h.leaf x hxT y hy c hc
  · intro x hx
    by_cases hxn : x = n
    · rw [hxn, hU.new]
      show b ∣ s
      cases hr : T.root with
      | empty => rw [hr] at hused; cases hused
      | item a => rw [hitem a hr]; exact dvd_zero b
      | node r =>
        rw [hnode r hr]
        exact dvd_add (h.dvd r (h.root_node r hr).1) dvd_rfl
    · rw [(hU.fields (b := b) (hmem hx hxn)).1]
      exact h.dvd x (hmem hx hxn)
  · intro x hx
    by_cases hxn : x = n
    · have hsz := Cell.size_put (b := b) (c := (⟨s, 0, 0, none, fun _ => .empty, 0⟩ : Cell ν α))
        (o := 0) (e := T.root) 1 (by positivity) rfl hused
      rw [Cell.size_eq_zero (c := (⟨s, 0, 0, none, fun _ => .empty, 0⟩ : Cell ν α))
        fun _ _ => rfl] at hsz
      rw [hxn, hU.new]
      exact hsz.symm
    · obtain ⟨-, -, -, -, f5, f6⟩ := hU.fields (b := b) (hmem hx hxn)
      rw [f5, f6]
      exact h.count x (hmem hx hxn)

theorem holds (hU : OnTop T U n s) (hn : n ∉ T.live)
    (hitem : ∀ a, T.root = .item a → s = 0) {i : ℕ} {a : α} : Holds b U i a ↔ Holds b T i a := by
  have hne : ∀ x ∈ T.live, x ≠ n := fun x hx hxn => hn (hxn ▸ hx)
  constructor
  · rintro (⟨x, hx, hs, hp, hslot⟩ | ⟨hroot, -⟩)
    · by_cases hxn : x = n
      · -- the old item at the root, now in the first slot
        rw [hxn, hU.new] at hp hslot
        have h0 : i % 2 ^ b = 0 := by
          by_contra h0
          simp only [Function.update_of_ne h0, reduceCtorEq] at hslot
        simp only [h0, Function.update_self] at hslot
        have hi := Nat.div_add_mod i (2 ^ b)
        rw [h0, ← hp] at hi
        exact Or.inr ⟨hslot, by simpa using hi.symm⟩
      · have hxT : x ∈ T.live := (Finset.mem_insert.mp (hU.live ▸ hx)).resolve_left hxn
        obtain ⟨f1, -, f3, f4, -⟩ := hU.fields (b := b) hxT
        rw [f1] at hs
        rw [f3] at hslot
        rw [f4] at hp
        exact Or.inl ⟨x, hxT, hs, hp, hslot⟩
    · rw [hU.root] at hroot
      cases hroot
  · rintro (⟨x, hx, hs, hp, hslot⟩ | ⟨hroot, rfl⟩)
    · obtain ⟨f1, -, f3, f4, -⟩ := hU.fields (b := b) hx
      refine Or.inl ⟨x, by rw [hU.live]; simp [hx], ?_, ?_, ?_⟩
      · rw [f1]; exact hs
      · rw [f4]; exact hp
      · rw [f3]; exact hslot
    · refine Or.inl ⟨n, by rw [hU.live]; simp, ?_, ?_, ?_⟩
      · rw [hU.new]; exact hitem a hroot
      · rw [hU.new]; simp
      · rw [hU.new]; simp [hroot]

end OnTop

/-- The top of `U` is what the first slot of the top cell `n` of `T` holds. -/
structure OffTop (T U : Store ν α) (n : ν) : Prop where
  root : U.root = (T.cell n).slot 0
  live : U.live = T.live.erase n
  old : ∀ x ∈ T.live, x ≠ n → U.cell x = { T.cell x with parent := (U.cell x).parent }
  below : ∀ x ∈ T.live, x ≠ n → (T.cell n).slot 0 = .node x → (U.cell x).parent = none
  same : ∀ x ∈ T.live, x ≠ n → (T.cell n).slot 0 ≠ .node x →
    (U.cell x).parent = (T.cell x).parent

namespace OffTop

variable {U : Store ν α} {n : ν}

theorem fields (h : OffTop T U n) {x : ν} (hx : x ∈ T.live) (hxn : x ≠ n) :
    (U.cell x).shift = (T.cell x).shift ∧ (U.cell x).offset = (T.cell x).offset ∧
      (U.cell x).slot = (T.cell x).slot ∧ (U.cell x).pre = (T.cell x).pre ∧
      (U.cell x).count = (T.cell x).count ∧ (U.cell x).size b = (T.cell x).size b := by
  rw [h.old x hx hxn]
  exact ⟨rfl, rfl, rfl, rfl, rfl, rfl⟩

section

variable (hU : OffTop T U n) (h : Wf b T) (hr : T.root = .node n) (h1 : (T.cell n).size b = 1)
  (hused : ((T.cell n).slot 0).used)

include h hr h1 hused in
/-- A cell below the top is below its first slot, or has another parent. -/
theorem parent_cases {x : ν} (hx : x ∈ T.live) (hxn : x ≠ n) :
    (T.cell n).slot 0 = .node x ∨ ∃ q, (T.cell x).parent = some q ∧ q ≠ n := by
  cases hpar : (T.cell x).parent with
  | none =>
    have hxr := (h.top x hx hpar).1
    rw [hr] at hxr
    exact absurd (Entry.node.inj hxr).symm hxn
  | some q =>
    by_cases hqn : q = n
    · subst hqn
      obtain ⟨-, ho, hslot, -⟩ := h.up x hx q hpar
      by_cases h0 : (T.cell x).offset = 0
      · rw [h0] at hslot
        exact Or.inl hslot
      · rw [Cell.empty_of_size_one h1 (by positivity) hused ho h0] at hslot
        cases hslot
    · exact Or.inr ⟨q, rfl, hqn⟩

include hU h hr h1 hused in
/-- **Taking off the top** keeps the shape. -/
theorem wf : Wf b U := by
  have hnl := (h.root_node n hr).1
  have hmem : ∀ {x}, x ∈ U.live → x ∈ T.live ∧ x ≠ n := fun hx => by
    rw [hU.live, Finset.mem_erase] at hx
    exact ⟨hx.2, hx.1⟩
  have hin : ∀ {x}, x ∈ T.live → x ≠ n → x ∈ U.live := fun hx hxn => by
    rw [hU.live, Finset.mem_erase]
    exact ⟨hxn, hx⟩
  -- the child in the first slot is another cell
  have hchild : ∀ {x o}, o < 2 ^ b → (T.cell n).slot o = .node x → x ∈ T.live ∧ x ≠ n := by
    intro x o ho hx
    obtain ⟨hxl, hxp, -⟩ := h.down n hnl o ho x hx
    refine ⟨hxl, ?_⟩
    rintro rfl
    rw [(h.root_node x hr).2] at hxp
    cases hxp
  constructor
  · intro x hx
    rw [hU.root] at hx
    obtain ⟨hxl, hxn⟩ := hchild (by positivity) hx
    exact ⟨hin hxl hxn, hU.below x hxl hxn hx⟩
  · intro x hx hpar
    obtain ⟨hxT, hxn⟩ := hmem hx
    rcases parent_cases h hr h1 hused hxT hxn with h0 | ⟨q, hq, hqn⟩
    · obtain ⟨-, hxp, hxo⟩ := h.down n hnl 0 (by positivity) x h0
      obtain ⟨-, -, -, -, hpre⟩ := h.up x hxT n hxp
      obtain ⟨-, f2, -, f4, -⟩ := hU.fields (b := b) hxT hxn
      rw [hU.root, f2, f4, hpre, hxo, (h.top n hnl (h.root_node n hr).2).2.1]
      exact ⟨h0, by simp, rfl⟩
    · by_cases h0 : (T.cell n).slot 0 = .node x
      · obtain ⟨-, hxp, -⟩ := h.down n hnl 0 (by positivity) x h0
        rw [hq] at hxp
        exact absurd (Option.some.inj hxp) hqn
      · rw [hU.same x hxT hxn h0, hq] at hpar
        cases hpar
  · intro x hx q hq
    obtain ⟨hxT, hxn⟩ := hmem hx
    obtain ⟨f1, f2, -, f4, -⟩ := hU.fields (b := b) hxT hxn
    by_cases h0 : (T.cell n).slot 0 = .node x
    · rw [hU.below x hxT hxn h0] at hq
      cases hq
    · rw [hU.same x hxT hxn h0] at hq
      obtain ⟨hqT, g1, g2, g3, g4⟩ := h.up x hxT q hq
      have hqn : q ≠ n := by
        rintro rfl
        rcases parent_cases h hr h1 hused hxT hxn with h0' | ⟨q', hq', hqn⟩
        · exact h0 h0'
        · rw [hq] at hq'
          exact hqn (Option.some.inj hq').symm
      obtain ⟨e1, -, e3, e4, -⟩ := hU.fields (b := b) hqT hqn
      rw [f1, f2, f4, e1, e3, e4]
      exact ⟨hin hqT hqn, g1, g2, g3, g4⟩
  · intro x hx y hy m hm
    obtain ⟨hxT, hxn⟩ := hmem hx
    rw [(hU.fields (b := b) hxT hxn).2.2.1] at hm
    obtain ⟨hml, hmp, hmo⟩ := h.down x hxT y hy m hm
    have hmn : m ≠ n := by
      rintro rfl
      rw [(h.root_node m hr).2] at hmp
      cases hmp
    have h0 : (T.cell n).slot 0 ≠ .node m := by
      intro h0
      obtain ⟨-, hxp, -⟩ := h.down n hnl 0 (by positivity) m h0
      rw [hmp] at hxp
      exact hxn (Option.some.inj hxp)
    rw [(hU.fields (b := b) hml hmn).2.1, hU.same m hml hmn h0]
    exact ⟨hin hml hmn, hmp, hmo⟩
  · intro x hx y hy c hc
    obtain ⟨hxT, hxn⟩ := hmem hx
    obtain ⟨f1, -, f3, -⟩ := hU.fields (b := b) hxT hxn
    rw [f3] at hc
    rw [f1]
    exact h.leaf x hxT y hy c hc
  · intro x hx
    obtain ⟨hxT, hxn⟩ := hmem hx
    rw [(hU.fields (b := b) hxT hxn).1]
    exact h.dvd x hxT
  · intro x hx
    obtain ⟨hxT, hxn⟩ := hmem hx
    obtain ⟨-, -, -, -, f5, f6⟩ := hU.fields (b := b) hxT hxn
    rw [f5, f6]
    exact h.count x hxT

include hU h hr h1 hused in
theorem holds {i : ℕ} {a : α} : Holds b U i a ↔ Holds b T i a := by
  have hnl := (h.root_node n hr).1
  have hmod : i % 2 ^ b < 2 ^ b := Nat.mod_lt _ (by positivity)
  constructor
  · rintro (⟨x, hx, hs, hp, hslot⟩ | ⟨hroot, rfl⟩)
    · rw [hU.live, Finset.mem_erase] at hx
      obtain ⟨f1, -, f3, f4, -⟩ := hU.fields (b := b) hx.2 hx.1
      rw [f1] at hs
      rw [f3] at hslot
      rw [f4] at hp
      exact Or.inl ⟨x, hx.2, hs, hp, hslot⟩
    · rw [hU.root] at hroot
      refine Or.inl ⟨n, hnl, h.leaf n hnl 0 (by positivity) a hroot, ?_, ?_⟩
      · rw [(h.top n hnl (h.root_node n hr).2).2.1]
        simp
      · rw [Nat.zero_mod]
        exact hroot
  · rintro (⟨x, hx, hs, hp, hslot⟩ | ⟨hroot, -⟩)
    · by_cases hxn : x = n
      · subst hxn
        have h0 : i % 2 ^ b = 0 := by
          by_contra h0
          rw [Cell.empty_of_size_one h1 (by positivity) hused hmod h0] at hslot
          cases hslot
        rw [(h.top x hnl (h.root_node x hr).2).2.1] at hp
        have hi := Nat.div_add_mod i (2 ^ b)
        rw [h0, ← hp] at hi
        rw [h0] at hslot
        exact Or.inr ⟨by rw [hU.root]; exact hslot, by simpa using hi.symm⟩
      · obtain ⟨f1, -, f3, f4, -⟩ := hU.fields (b := b) hx hxn
        refine Or.inl ⟨x, by rw [hU.live, Finset.mem_erase]; exact ⟨hxn, hx⟩, ?_, ?_, ?_⟩
        · rw [f1]; exact hs
        · rw [f4]; exact hp
        · rw [f3]; exact hslot
    · rw [hr] at hroot
      cases hroot

end

end OffTop

end HardStack.Lib.Trie
