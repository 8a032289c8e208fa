import HardStack.Bsfs.Open

/-! # The references to the open node

`kn->attr.open` has a reference for each file on its list and for each drain that is on its way. So a
thread that has one finds the node that it knows when it reads `kn->attr.open` again, and the one that
drops the last of them is the only one left with a pointer to the node. A node that is not installed
belongs to one thread. -/

namespace HardStack.Bsfs.Open

variable {s s' : State} {node : OpenNode} {D A : Finset ℕ} {t u p on : ℕ} {x : Pc}

/-! ### Points -/

namespace Pc

/-- From the critical section of `bsfs_get_open_node` to that of `bsfs_put_open_node`. -/
def listed : Pc → Bool
  | .gotten _ | .calling | .finishing true | .isOpen => true
  | .putting c | .putLocked c _ => c ≠ .drained
  | _ => false

/-- A drain has a reference. -/
def holds : Pc → Bool
  | .draining _ => true
  | .putting c | .putLocked c _ => c = .drained
  | _ => false

/-- `bsfs_fop_open` has an active reference. -/
def inside : Pc → Bool
  | .opening | .getting _ | .allocating | .gotten _ | .calling | .finishing _ => true
  | .putting c | .putLocked c _ | .putFree c _ => c = .failed
  | _ => false

/-- The open node that belongs to the thread, or `NULL`. -/
def owned : Pc → ℕ
  | .getting p | .gotten p | .putFree _ p => p
  | _ => 0

/-- What the thread has read from `kn->attr.open`. -/
def pointer : Pc → Option ℕ
  | .putLocked _ on | .draining on => some on
  | _ => none

/-- A thread that has read `kn->attr.open` has a reference. -/
theorem attached_of_pointer : ∀ (x : Pc), x.pointer = some on → x.listed = true ∨ x.holds = true
  | .putLocked .failed _, _ => Or.inl rfl
  | .putLocked .released _, _ => Or.inl rfl
  | .putLocked .drained _, _ => Or.inr rfl
  | .draining _, _ => Or.inr rfl

end Pc

/-! ### The invariant -/

/-- **The references.** `node` is the node at `kn->attr.open`, and empty if there is none; `D` are the
drains that hold it. -/
structure Refs (s : State) (node : OpenNode) (D : Finset ℕ) : Prop where
  null : s.heap 0 = none
  installed : s.attrOpen = 0 ∧ node.refcnt = 0 ∨
    s.attrOpen ≠ 0 ∧ s.heap s.attrOpen = some node ∧ 0 < node.refcnt
  nodup : node.files.Nodup
  listed : ∀ t, t ∈ node.files ↔ (s.pc t).listed
  holds : ∀ t, t ∈ D ↔ (s.pc t).holds
  count : node.refcnt = node.files.length + D.card
  owned : ∀ t, (s.pc t).owned ≠ 0 →
    s.heap (s.pc t).owned = some ⟨0, []⟩ ∧ (s.pc t).owned ≠ s.attrOpen
  distinct : ∀ t u, (s.pc t).owned ≠ 0 → (s.pc t).owned = (s.pc u).owned → t = u
  live : ∀ p, s.heap p ≠ none → p = s.attrOpen ∨ ∃ t, (s.pc t).owned = p
  pointer : ∀ t on, (s.pc t).pointer = some on → on = s.attrOpen

/-- The active count. -/
structure Active (s : State) (A : Finset ℕ) : Prop where
  inside : ∀ t, t ∈ A ↔ (s.pc t).inside
  count : s.active = s.base + A.card

/-- `ops->release` has been called for the files that are marked, once. -/
def Marked (s : State) : Prop := ∀ t, s.releases t = (s.released t).toNat

theorem goto_pc (s : State) (t u : ℕ) (x : Pc) : (s.goto t x).pc u = if u = t then x else s.pc u :=
  Function.update_apply ..

theorem goto_self (s : State) (t : ℕ) (x : Pc) : (s.goto t x).pc t = x := Function.update_self ..

theorem goto_ne (s : State) (x : Pc) (h : u ≠ t) : (s.goto t x).pc u = s.pc u := Function.update_of_ne h ..

/-- A property of the points that a step of a thread leaves as it is. -/
theorem goto_same {α : Type} (f : Pc → α) (h : f x = f (s.pc t)) (u : ℕ) :
    f ((s.goto t x).pc u) = f (s.pc u) := by
  by_cases hu : u = t
  · rw [hu, goto_self, h]
  · rw [goto_ne s x hu]

namespace Refs

theorem congr (h : Refs s node D) (hheap : s'.heap = s.heap) (hopen : s'.attrOpen = s.attrOpen)
    (hpc : s'.pc = s.pc) : Refs s' node D := by
  obtain ⟨h1, h2, h3, h4, h5, h6, h7, h8, h9, h10⟩ := h
  exact ⟨by rwa [hheap], by rwa [hheap, hopen], h3, by rwa [hpc], by rwa [hpc], h6,
    by rwa [hheap, hopen, hpc], by rwa [hpc], by rwa [hheap, hopen, hpc], by rwa [hopen, hpc]⟩

theorem listed_goto (h : Refs s node D) (hlisted : x.listed = (s.pc t).listed) (u : ℕ) :
    u ∈ node.files ↔ ((s.goto t x).pc u).listed := by rw [goto_same Pc.listed hlisted, h.listed]

theorem holds_goto (h : Refs s node D) (hholds : x.holds = (s.pc t).holds) (u : ℕ) :
    u ∈ D ↔ ((s.goto t x).pc u).holds := by rw [goto_same Pc.holds hholds, h.holds]

theorem goto_owned (h : Refs s node D) (howned : x.owned = (s.pc t).owned) :
    (∀ p, s.heap p ≠ none → p = s.attrOpen ∨ ∃ u, ((s.goto t x).pc u).owned = p) ∧
    ∀ u v, ((s.goto t x).pc u).owned ≠ 0 →
      ((s.goto t x).pc u).owned = ((s.goto t x).pc v).owned → u = v := by
  simp only [goto_same Pc.owned howned]
  exact ⟨h.live, h.distinct⟩

theorem pointer_goto (h : Refs s node D) (hpointer : ∀ on, x.pointer = some on → on = s.attrOpen)
    (u on : ℕ) (hon : ((s.goto t x).pc u).pointer = some on) : on = s.attrOpen := by
  by_cases hu : u = t
  · rw [hu, goto_self] at hon
    exact hpointer on hon
  · rw [goto_ne s x hu] at hon
    exact h.pointer u on hon

/-- A step that does not touch the nodes. -/
theorem goto (h : Refs s node D) (hlisted : x.listed = (s.pc t).listed) (hholds : x.holds = (s.pc t).holds)
    (howned : x.owned = (s.pc t).owned) (hpointer : ∀ on, x.pointer = some on → on = s.attrOpen) :
    Refs (s.goto t x) node D where
  null := h.null
  installed := h.installed
  nodup := h.nodup
  listed := h.listed_goto hlisted
  holds := h.holds_goto hholds
  count := h.count
  owned u := by
    rw [goto_same Pc.owned howned]
    exact h.owned u
  distinct := (h.goto_owned howned).2
  live := (h.goto_owned howned).1
  pointer := h.pointer_goto hpointer

/-- The reference of a thread. -/
theorem attached (h : Refs s node D) (ht : (s.pc t).listed ∨ (s.pc t).holds) :
    s.attrOpen ≠ 0 ∧ s.heap s.attrOpen = some node ∧ 0 < node.refcnt := by
  refine h.installed.resolve_left fun hnone => ?_
  have hcount := h.count
  rw [hnone.2] at hcount
  rcases ht with ht | ht
  · have := List.length_pos_of_mem ((h.listed t).mpr ht)
    omega
  · have := Finset.card_pos.mpr ⟨t, (h.holds t).mpr ht⟩
    omega

/-- Without a node there are no files and no drains. -/
theorem empty (h : Refs s node D) (hnone : s.attrOpen = 0) : node = ⟨0, []⟩ ∧ D = ∅ := by
  have hzero := (h.installed.resolve_right fun hsome => hsome.1 hnone).2
  have hcount := h.count
  obtain ⟨refcnt, files⟩ := node
  dsimp only at hzero hcount
  have hfiles : files = [] := List.length_eq_zero_iff.mp (by omega)
  have hD : D = ∅ := Finset.card_eq_zero.mp (by omega)
  exact ⟨by rw [hzero, hfiles], hD⟩

/-! ### The nodes of one thread -/

/-- The thread frees the node that belongs to it. -/
theorem free (h : Refs s node D) (hp : (s.pc t).owned = p) (hp0 : p ≠ 0)
    (hlisted : x.listed = (s.pc t).listed) (hholds : x.holds = (s.pc t).holds) (howned : x.owned = 0)
    (hpointer : x.pointer = none) :
    Refs ({ s with heap := Function.update s.heap p none }.goto t x) node D where
  null := by
    show Function.update s.heap p none 0 = none
    rw [Function.update_of_ne (Ne.symm hp0), h.null]
  installed := by
    have hne := (h.owned t (by rwa [hp])).2
    rw [hp] at hne
    show s.attrOpen = 0 ∧ _ ∨ s.attrOpen ≠ 0 ∧ Function.update s.heap p none s.attrOpen = _ ∧ _
    rw [Function.update_of_ne (Ne.symm hne)]
    exact h.installed
  nodup := h.nodup
  listed := h.listed_goto hlisted
  holds := h.holds_goto hholds
  count := h.count
  owned u hu := by
    by_cases hut : u = t
    · rw [hut, goto_self] at hu
      exact absurd howned hu
    · rw [goto_ne _ _ hut] at hu ⊢
      have hne : (s.pc u).owned ≠ p := fun heq => hut (h.distinct u t hu (heq.trans hp.symm))
      show Function.update s.heap p none _ = _ ∧ _
      rw [Function.update_of_ne hne]
      exact h.owned u hu
  distinct u v hu huv := by
    by_cases hut : u = t
    · rw [hut, goto_self] at hu
      exact absurd howned hu
    · rw [goto_ne _ _ hut] at hu huv
      by_cases hvt : v = t
      · rw [hvt, goto_self, howned] at huv
        exact absurd huv hu
      · rw [goto_ne _ _ hvt] at huv
        exact h.distinct u v hu huv
  live q hq := by
    have hqp : q ≠ p := by
      rintro rfl
      exact hq (Function.update_self ..)
    have hq' : s.heap q ≠ none := by
      have hkeep : Function.update s.heap p none q = s.heap q := Function.update_of_ne hqp ..
      rw [← hkeep]
      exact hq
    refine (h.live q hq').imp_right fun ⟨u, hu⟩ => ⟨u, ?_⟩
    have hut : u ≠ t := by
      rintro rfl
      exact hqp (hu.symm.trans hp)
    rw [goto_ne _ _ hut]
    exact hu
  pointer u on hon := by
    by_cases hut : u = t
    · rw [hut, goto_self, hpointer] at hon
      cases hon
    · rw [goto_ne _ _ hut] at hon
      exact h.pointer u on hon

/-- The thread has a new node. -/
theorem alloc (h : Refs s node D) (hpc : s.pc t = .allocating) (hp0 : p ≠ 0) (hp : s.heap p = none) :
    Refs ((s.write p ⟨0, []⟩).goto t (.getting p)) node D := by
  have hopen : s.attrOpen ≠ p := by
    rintro rfl
    rcases h.installed with hnone | ⟨-, hsome, -⟩
    · exact hp0 hnone.1
    · rw [hp] at hsome
      cases hsome
  have hother : ∀ u, (s.pc u).owned ≠ 0 → (s.pc u).owned ≠ p := by
    intro u hu heq
    have := (h.owned u hu).1
    rw [heq, hp] at this
    cases this
  have hlisted : (Pc.getting p).listed = (s.pc t).listed := by rw [hpc]; rfl
  have hholds : (Pc.getting p).holds = (s.pc t).holds := by rw [hpc]; rfl
  refine ⟨?_, ?_, h.nodup, h.listed_goto hlisted, h.holds_goto hholds, h.count, fun u hu => ?_,
    fun u v hu huv => ?_, fun q hq => ?_, fun u on hon => ?_⟩
  · show Function.update s.heap p _ 0 = none
    rw [Function.update_of_ne (Ne.symm hp0), h.null]
  · show s.attrOpen = 0 ∧ _ ∨ s.attrOpen ≠ 0 ∧ Function.update s.heap p _ s.attrOpen = _ ∧ _
    rw [Function.update_of_ne hopen]
    exact h.installed
  · show Function.update s.heap p _ _ = _ ∧ _ ≠ s.attrOpen
    by_cases hut : u = t
    · rw [hut, goto_self]
      exact ⟨Function.update_self .., Ne.symm hopen⟩
    · rw [goto_ne _ _ hut] at hu ⊢
      rw [show (s.write p ⟨0, []⟩).pc u = s.pc u from rfl, Function.update_of_ne (hother u hu)]
      exact h.owned u hu
  · by_cases hut : u = t
    · by_cases hvt : v = t
      · rw [hut, hvt]
      · rw [hut, goto_self, goto_ne _ _ hvt] at huv
        exact absurd huv.symm (hother v (huv ▸ hp0))
    · rw [goto_ne _ _ hut] at hu huv
      by_cases hvt : v = t
      · rw [hvt, goto_self] at huv
        exact absurd huv (hother u hu)
      · rw [goto_ne _ _ hvt] at huv
        exact h.distinct u v hu huv
  · by_cases hqp : q = p
    · exact Or.inr ⟨t, by rw [goto_self, hqp]; rfl⟩
    · have hq' : s.heap q ≠ none := by
        have hkeep : (s.write p ⟨0, []⟩).heap q = s.heap q := Function.update_of_ne hqp ..
        rw [← hkeep]
        exact hq
      refine (h.live q hq').imp_right fun ⟨u, hu⟩ => ?_
      by_cases hut : u = t
      · have hq0 : q = 0 := by
          rw [← hu, hut, hpc]
          rfl
        rw [hq0] at hq'
        exact absurd h.null hq'
      · exact ⟨u, by rw [goto_ne _ _ hut]; exact hu⟩
  · by_cases hut : u = t
    · rw [hut, goto_self] at hon
      cases hon
    · rw [goto_ne _ _ hut] at hon
      exact h.pointer u on hon

/-! ### The references -/

/-- The node at `kn->attr.open` is written. -/
theorem write (h : Refs s node D) {node' : OpenNode} {D' : Finset ℕ} (hopen : s.attrOpen ≠ 0)
    (hpos : 0 < node'.refcnt) (hnodup : node'.files.Nodup)
    (hlisted : ∀ u, u ∈ node'.files ↔ ((s.goto t x).pc u).listed)
    (hholds : ∀ u, u ∈ D' ↔ ((s.goto t x).pc u).holds) (hcount : node'.refcnt = node'.files.length + D'.card)
    (howned : x.owned = (s.pc t).owned) (hpointer : ∀ on, x.pointer = some on → on = s.attrOpen) :
    Refs ((s.write s.attrOpen node').goto t x) node' D' where
  null := by
    show Function.update s.heap s.attrOpen _ 0 = none
    rw [Function.update_of_ne (Ne.symm hopen), h.null]
  installed := Or.inr ⟨hopen, Function.update_self .., hpos⟩
  nodup := hnodup
  listed := hlisted
  holds := hholds
  count := hcount
  owned u hu := by
    have hsame : ((s.goto t x).pc u).owned = (s.pc u).owned := goto_same Pc.owned howned u
    have hu' : (s.pc u).owned ≠ 0 := by
      rw [← hsame]
      exact hu
    show Function.update s.heap s.attrOpen _ ((s.goto t x).pc u).owned = _ ∧ _
    rw [hsame, Function.update_of_ne (h.owned u hu').2]
    refine ⟨(h.owned u hu').1, ?_⟩
    show ((s.goto t x).pc u).owned ≠ s.attrOpen
    rw [hsame]
    exact (h.owned u hu').2
  distinct := (h.goto_owned howned).2
  live q hq := by
    by_cases hqon : q = s.attrOpen
    · exact Or.inl hqon
    · have hq' : s.heap q ≠ none := by
        have hkeep : (s.write s.attrOpen node').heap q = s.heap q := Function.update_of_ne hqon ..
        rw [← hkeep]
        exact hq
      exact (h.goto_owned howned).1 q hq'
  pointer := h.pointer_goto hpointer

/-- The thread installs its node, and puts its file on the list. -/
theorem install (h : Refs s node D) (hpc : s.pc t = .getting p) (hp0 : p ≠ 0) (hnone : s.attrOpen = 0) :
    Refs (({ s with attrOpen := p }.write p ⟨1, [t]⟩).goto t (.gotten 0)) ⟨1, [t]⟩ D := by
  obtain ⟨rfl, rfl⟩ := h.empty hnone
  have howned : (s.pc t).owned = p := by rw [hpc]; rfl
  have hother : ∀ u, u ≠ t → (s.pc u).owned ≠ 0 → (s.pc u).owned ≠ p := fun u hut hu heq =>
    hut (h.distinct u t hu (heq.trans howned.symm))
  refine ⟨?_, Or.inr ⟨hp0, Function.update_self .., one_pos⟩, List.nodup_singleton t, fun u => ?_,
    h.holds_goto (x := .gotten 0) (by rw [hpc]; rfl), rfl, fun u hu => ?_, fun u v hu huv => ?_,
    fun q hq => ?_, fun u w hw => ?_⟩
  · show Function.update s.heap p _ 0 = none
    rw [Function.update_of_ne (Ne.symm hp0), h.null]
  · rw [goto_pc, List.mem_singleton]
    by_cases hut : u = t
    · rw [if_pos hut]
      exact iff_of_true hut rfl
    · rw [if_neg hut]
      exact iff_of_false hut fun hu => List.not_mem_nil ((h.listed u).mpr hu)
  · show Function.update s.heap p _ _ = _ ∧ _ ≠ p
    by_cases hut : u = t
    · rw [hut, goto_self] at hu
      exact absurd rfl hu
    · rw [goto_ne _ _ hut] at hu ⊢
      have hne := hother u hut hu
      exact ⟨(Function.update_of_ne hne ..).trans (h.owned u hu).1, hne⟩
  · by_cases hut : u = t
    · rw [hut, goto_self] at hu
      exact absurd rfl hu
    · rw [goto_ne _ _ hut] at hu huv
      by_cases hvt : v = t
      · rw [hvt, goto_self] at huv
        exact absurd huv hu
      · rw [goto_ne _ _ hvt] at huv
        exact h.distinct u v hu huv
  · by_cases hqp : q = p
    · exact Or.inl hqp
    · have hq' : s.heap q ≠ none := by
        have hkeep : (s.write p ⟨1, [t]⟩).heap q = s.heap q := Function.update_of_ne hqp ..
        rw [← hkeep]
        exact hq
      rcases h.live q hq' with rfl | ⟨u, hu⟩
      · rw [hnone] at hq'
        exact absurd h.null hq'
      · have hut : u ≠ t := by
          rintro rfl
          exact hqp (hu.symm.trans howned)
        exact Or.inr ⟨u, by rw [goto_ne _ _ hut]; exact hu⟩
  · by_cases hut : u = t
    · rw [hut, goto_self] at hw
      cases hw
    · -- without a node no thread has read one
      rw [goto_ne _ _ hut] at hw
      exact absurd hnone (h.attached (Pc.attached_of_pointer _ hw)).1

/-- The last reference is dropped: the node belongs to the thread. -/
theorem uninstall (h : Refs s node D) {caller : Caller} (hopen : s.attrOpen ≠ 0)
    (howned : (s.pc t).owned = 0) (hfiles : ∀ u, u ≠ t → (s.pc u).listed = false)
    (hholds : ∀ u, u ≠ t → (s.pc u).holds = false) :
    Refs ({ s.write s.attrOpen ⟨0, []⟩ with attrOpen := 0 }.goto t (.putFree caller s.attrOpen)) ⟨0, []⟩ ∅ := by
  refine ⟨?_, Or.inl ⟨rfl, rfl⟩, List.nodup_nil, fun u => ?_, fun u => ?_, rfl, fun u hu => ?_,
    fun u v hu huv => ?_, fun q hq => ?_, fun u w hw => ?_⟩
  · show Function.update s.heap s.attrOpen _ 0 = none
    rw [Function.update_of_ne (Ne.symm hopen), h.null]
  · rw [goto_pc]
    refine iff_of_false List.not_mem_nil ?_
    by_cases hut : u = t
    · rw [if_pos hut]
      exact Bool.false_ne_true
    · rw [if_neg hut]
      exact Bool.eq_false_iff.mp (hfiles u hut)
  · rw [goto_pc]
    refine iff_of_false (Finset.notMem_empty u) ?_
    by_cases hut : u = t
    · rw [if_pos hut]
      exact Bool.false_ne_true
    · rw [if_neg hut]
      exact Bool.eq_false_iff.mp (hholds u hut)
  · show Function.update s.heap s.attrOpen _ _ = _ ∧ _ ≠ 0
    refine ⟨?_, hu⟩
    by_cases hut : u = t
    · rw [hut, goto_self]
      exact Function.update_self ..
    · rw [goto_ne _ _ hut] at hu ⊢
      exact (Function.update_of_ne (h.owned u hu).2 ..).trans (h.owned u hu).1
  · by_cases hut : u = t
    · by_cases hvt : v = t
      · rw [hut, hvt]
      · rw [hut, goto_self, goto_ne _ _ hvt] at huv
        have hv : (s.pc v).owned = s.attrOpen := huv.symm
        exact absurd hv (h.owned v (hv ▸ hopen)).2
    · rw [goto_ne _ _ hut] at hu huv
      by_cases hvt : v = t
      · rw [hvt, goto_self] at huv
        exact absurd huv (h.owned u hu).2
      · rw [goto_ne _ _ hvt] at huv
        exact h.distinct u v hu huv
  · by_cases hqon : q = s.attrOpen
    · exact Or.inr ⟨t, by rw [goto_self, hqon]; rfl⟩
    · have hq' : s.heap q ≠ none := by
        have hkeep : (s.write s.attrOpen ⟨0, []⟩).heap q = s.heap q := Function.update_of_ne hqon ..
        rw [← hkeep]
        exact hq
      rcases h.live q hq' with rfl | ⟨u, hu⟩
      · exact absurd rfl hqon
      · have hut : u ≠ t := by
          rintro rfl
          rw [← hu, howned] at hq'
          exact hq' h.null
        exact Or.inr ⟨u, by rw [goto_ne _ _ hut]; exact hu⟩
  · by_cases hut : u = t
    · rw [hut, goto_self] at hw
      cases hw
    · rw [goto_ne _ _ hut] at hw
      rcases Pc.attached_of_pointer _ hw with hl | hh
      · exact absurd ((hfiles u hut).symm.trans hl) Bool.false_ne_true
      · exact absurd ((hholds u hut).symm.trans hh) Bool.false_ne_true

end Refs

/-! ### The critical sections -/

/-- A step of a thread that leaves the active count and the marks as they are. -/
structure Quiet (t : ℕ) (s s' : State) : Prop where
  others : ∀ u ≠ t, s'.pc u = s.pc u
  inside : ∀ u, (s'.pc u).inside = (s.pc u).inside
  active : s'.active = s.active
  base : s'.base = s.base
  released : s'.released = s.released
  releases : s'.releases = s.releases

theorem Quiet.active_of (h : Quiet t s s') (ha : Active s A) : Active s' A where
  inside u := by rw [h.inside, ha.inside]
  count := by rw [h.active, h.base, ha.count]

theorem Quiet.marked (h : Quiet t s s') (hm : Marked s) : Marked s' := by
  intro u
  rw [h.releases, h.released, hm u]

theorem quiet_of_pc (hinside : x.inside = (s.pc t).inside) (hpc : s'.pc = Function.update s.pc t x)
    (hactive : s'.active = s.active) (hbase : s'.base = s.base) (hreleased : s'.released = s.released)
    (hreleases : s'.releases = s.releases) : Quiet t s s' where
  others u hu := by rw [hpc, Function.update_of_ne hu]
  inside u := by
    rw [hpc]
    exact goto_same Pc.inside hinside u
  active := hactive
  base := hbase
  released := hreleased
  releases := hreleases

theorem quiet_goto (h : x.inside = (s.pc t).inside) : Quiet t s (s.goto t x) :=
  quiet_of_pc h rfl rfl rfl rfl rfl

theorem kfree_spec (h : Refs s node D) (howned : (s.pc t).owned = p) (hlisted : x.listed = (s.pc t).listed)
    (hholds : x.holds = (s.pc t).holds) (hzero : x.owned = 0) (hpointer : x.pointer = none)
    (hinside : x.inside = (s.pc t).inside) :
    ∃ s', (do let s ← kfree s p; some (s.goto t x)) = some s' ∧ Refs s' node D ∧ Quiet t s s' := by
  unfold kfree
  by_cases hp0 : p = 0
  · rw [if_pos hp0]
    exact ⟨_, rfl, h.goto hlisted hholds (by rw [hzero, howned, hp0]) (by simp [hpointer]), quiet_goto hinside⟩
  · have hheap := (h.owned t (by rwa [howned])).1
    rw [howned] at hheap
    rw [if_neg hp0, hheap]
    exact ⟨_, rfl, h.free howned hp0 hlisted hholds hzero hpointer, quiet_of_pc hinside rfl rfl rfl rfl rfl⟩

/-- The other files are on the list as before. -/
def SameRest (t : ℕ) (node node' : OpenNode) : Prop :=
  node'.files.filter (· ≠ t) = node.files.filter (· ≠ t)

theorem sameRest_append (node : OpenNode) (refcnt : ℤ) : SameRest t node ⟨refcnt, node.files ++ [t]⟩ := by
  unfold SameRest
  rw [List.filter_append]
  simp

theorem sameRest_erase (node : OpenNode) (refcnt : ℤ) (h : node.files.Nodup) :
    SameRest t node ⟨refcnt, node.files.erase t⟩ := by
  unfold SameRest
  rw [h.erase_eq_filter, List.filter_filter]
  refine List.filter_congr fun u _ => ?_
  simp

/-- **The critical section of `bsfs_get_open_node`.** -/
theorem getOpenNode_spec (h : Refs s node D) (hpc : s.pc t = .getting p) :
    ∃ s' node', getOpenNode s t p = some s' ∧ Refs s' node' D ∧ Quiet t s s' ∧ SameRest t node node' := by
  have hnot : t ∉ node.files := by
    rw [h.listed, hpc]
    exact Bool.false_ne_true
  have hinside : ∀ q, (Pc.gotten q).inside = (s.pc t).inside := by
    rw [hpc]
    exact fun _ => rfl
  unfold getOpenNode
  by_cases hopen : s.attrOpen = 0
  · by_cases hp0 : p = 0
    · rw [hp0] at hpc ⊢
      simp only [ne_eq, not_true_eq_false, and_false, if_false, hopen]
      exact ⟨_, node, rfl, h.goto (by rw [hpc]; rfl) (by rw [hpc]; rfl) (by rw [hpc]; rfl) (by simp [Pc.pointer]),
        quiet_goto (by rw [hpc]; rfl), rfl⟩
    · have hheap := (h.owned t (by rw [hpc]; exact hp0)).1
      rw [hpc] at hheap
      simp only [hopen, ne_eq, hp0, not_false_eq_true, and_self, if_true]
      rw [show s.heap p = some ⟨0, []⟩ from hheap]
      exact ⟨_, _, rfl, h.install hpc hp0 hopen, quiet_of_pc (hinside _) rfl rfl rfl rfl rfl,
        by rw [(h.empty hopen).1]; exact sameRest_append ⟨0, []⟩ 1⟩
  · obtain ⟨-, hheap, hpos⟩ := h.installed.resolve_left fun hnone => hopen hnone.1
    simp only [hopen, ne_eq, false_and, if_false, not_false_eq_true, if_true]
    rw [hheap]
    refine ⟨_, _, rfl, h.write (x := .gotten p) hopen ?_ ?_ (fun u => ?_) ?_ ?_ (by rw [hpc]; rfl)
      (by simp [Pc.pointer]), quiet_of_pc (hinside _) rfl rfl rfl rfl rfl, sameRest_append node _⟩
    · show 0 < node.refcnt + 1
      omega
    · exact List.Nodup.append h.nodup (List.nodup_singleton t) (List.disjoint_singleton.mpr hnot)
    · rw [goto_pc, List.mem_append, List.mem_singleton]
      by_cases hut : u = t
      · rw [if_pos hut]
        exact iff_of_true (Or.inr hut) rfl
      · rw [if_neg hut, or_iff_left hut]
        exact h.listed u
    · exact h.holds_goto (by rw [hpc]; rfl)
    · show node.refcnt + 1 = ((node.files ++ [t]).length : ℤ) + _
      rw [List.length_append, h.count]
      push_cast
      rw [List.length_singleton]
      omega

/-- **The first critical section of `bsfs_drain_open_files`.** -/
theorem drainOpenFiles_spec (h : Refs s node D) (hpc : s.pc t = .idle) :
    ∃ s' node' D', drainOpenFiles s t = some s' ∧ Refs s' node' D' ∧ Quiet t s s' ∧
      SameRest t node node' := by
  have hnot : t ∉ D := by
    rw [h.holds, hpc]
    exact Bool.false_ne_true
  have hinside : (Pc.draining s.attrOpen).inside = (s.pc t).inside := by
    rw [hpc]
    rfl
  unfold drainOpenFiles
  by_cases hopen : s.attrOpen = 0
  · simp only [hopen, ne_eq, not_true_eq_false, if_false]
    exact ⟨_, node, D, rfl, h.goto (by rw [hpc]; rfl) (by rw [hpc]; rfl) (by rw [hpc]; rfl) (by simp [Pc.pointer]),
      quiet_goto (by rw [hpc]; rfl), rfl⟩
  · obtain ⟨-, hheap, hpos⟩ := h.installed.resolve_left fun hnone => hopen hnone.1
    simp only [hopen, ne_eq, not_false_eq_true, if_true]
    rw [hheap]
    refine ⟨_, _, insert t D, rfl, h.write (x := .draining s.attrOpen) hopen ?_ h.nodup ?_ (fun u => ?_) ?_
      (by rw [hpc]; rfl) ?_, quiet_of_pc hinside rfl rfl rfl rfl rfl, rfl⟩
    · show 0 < node.refcnt + 1
      omega
    · exact h.listed_goto (by rw [hpc]; rfl)
    · rw [goto_pc, Finset.mem_insert]
      by_cases hut : u = t
      · rw [if_pos hut]
        exact iff_of_true (Or.inl hut) rfl
      · rw [if_neg hut, or_iff_right hut]
        exact h.holds u
    · show node.refcnt + 1 = (node.files.length : ℤ) + _
      rw [Finset.card_insert_of_notMem hnot, h.count]
      push_cast
      omega
    · intro on hon
      exact (Option.some.inj hon).symm

/-- What the critical section of `bsfs_put_open_node` makes of the list and of the drains. -/
theorem dropped (h : Refs s node D) {caller : Caller} (hpc : s.pc t = .putLocked caller on) :
    ¬ (caller ≠ .drained ∧ t ∉ node.files) ∧ ∃ (files : List ℕ) (D' : Finset ℕ),
      (if caller ≠ .drained then node.files.erase t else node.files) = files ∧ files.Nodup ∧
      (∀ u, u ∈ files ↔ u ≠ t ∧ (s.pc u).listed) ∧ (∀ u, u ∈ D' ↔ u ≠ t ∧ (s.pc u).holds) ∧
      node.refcnt - 1 = (files.length : ℤ) + D'.card := by
  have hlisted := h.listed t
  have hholds := h.holds t
  have hcount := h.count
  rw [hpc] at hlisted hholds
  by_cases hc : caller = .drained
  · -- a drain has no file
    have hmem : t ∈ D := hholds.mpr (by rw [hc]; rfl)
    have hnot : t ∉ node.files := fun hmem => by
      have := hlisted.mp hmem
      rw [hc] at this
      cases this
    refine ⟨fun hcon => hcon.1 hc, node.files, D.erase t, if_neg (not_not.mpr hc), h.nodup, fun u => ?_,
      fun u => ?_, ?_⟩
    · rw [h.listed]
      refine ⟨fun hu => ⟨fun hut => hnot ?_, hu⟩, fun hu => hu.2⟩
      rw [← hut, h.listed]
      exact hu
    · rw [Finset.mem_erase, h.holds]
    · have := Finset.card_erase_add_one hmem
      omega
  · have hmem : t ∈ node.files := hlisted.mpr (decide_eq_true hc)
    have hnot : t ∉ D := fun hmem => hc (of_decide_eq_true (hholds.mp hmem))
    refine ⟨fun hcon => hcon.2 hmem, node.files.erase t, D, if_pos hc, h.nodup.erase t, fun u => ?_,
      fun u => ?_, ?_⟩
    · rw [h.nodup.mem_erase_iff, h.listed]
    · rw [h.holds]
      refine ⟨fun hu => ⟨fun hut => hnot ?_, hu⟩, fun hu => hu.2⟩
      rw [← hut, h.holds]
      exact hu
    · have hlen := List.length_erase_of_mem hmem
      have hpos := List.length_pos_of_mem hmem
      omega

/-- **The critical section of `bsfs_put_open_node`.** -/
theorem putOpenNode_spec (h : Refs s node D) {caller : Caller} (hpc : s.pc t = .putLocked caller on) :
    ∃ s' node' D', putOpenNode s t caller on = some s' ∧ Refs s' node' D' ∧ Quiet t s s' ∧
      SameRest t node node' := by
  obtain rfl : on = s.attrOpen := h.pointer t on (by rw [hpc]; rfl)
  have hattached : (s.pc t).listed ∨ (s.pc t).holds :=
    @Pc.attached_of_pointer s.attrOpen _ (by rw [hpc]; rfl)
  obtain ⟨hopen, hheap, hpos⟩ := h.attached hattached
  obtain ⟨hmem, files, D', hfiles, hnodup, hlisted, hholds, hcount⟩ := dropped h hpc
  have hinside : ∀ p, (Pc.putFree caller p).inside = (s.pc t).inside := by
    rw [hpc]
    exact fun _ => rfl
  have hrest : ∀ refcnt, SameRest t node ⟨refcnt, files⟩ := by
    intro refcnt
    rw [← hfiles]
    split_ifs
    · exact sameRest_erase node refcnt h.nodup
    · rfl
  unfold putOpenNode
  rw [hheap]
  simp only [Option.bind_eq_bind, Option.bind_some, if_neg hmem, hfiles]
  by_cases hzero : node.refcnt - 1 = 0
  · rw [if_pos hzero, hzero]
    rw [hzero] at hcount
    have hnil : files = [] := List.length_eq_zero_iff.mp (by omega)
    have hempty : D' = ∅ := Finset.card_eq_zero.mp (by omega)
    rw [hnil]
    refine ⟨_, _, _, rfl, h.uninstall hopen (by rw [hpc]; rfl) (fun u hut => ?_) fun u hut => ?_,
      quiet_of_pc (hinside _) rfl rfl rfl rfl rfl, by rw [← hnil]; exact hrest 0⟩
    · refine Bool.eq_false_iff.mpr fun hu => ?_
      have := (hlisted u).mpr ⟨hut, hu⟩
      rw [hnil] at this
      exact List.not_mem_nil this
    · refine Bool.eq_false_iff.mpr fun hu => ?_
      have := (hholds u).mpr ⟨hut, hu⟩
      rw [hempty] at this
      exact Finset.notMem_empty u this
  · rw [if_neg hzero]
    refine ⟨_, _, D', rfl, h.write (x := .putFree caller 0) hopen ?_ hnodup (fun u => ?_) (fun u => ?_)
      hcount (by rw [hpc]; rfl) (by simp [Pc.pointer]), quiet_of_pc (hinside _) rfl rfl rfl rfl rfl, hrest _⟩
    · show 0 < node.refcnt - 1
      omega
    · rw [hlisted, goto_pc]
      by_cases hut : u = t
      · rw [if_pos hut]
        exact iff_of_false (fun hu => hu.1 hut) Bool.false_ne_true
      · rw [if_neg hut]
        exact and_iff_right hut
    · rw [hholds, goto_pc]
      by_cases hut : u = t
      · rw [if_pos hut]
        exact iff_of_false (fun hu => hu.1 hut) Bool.false_ne_true
      · rw [if_neg hut]
        exact and_iff_right hut

/-! ### The marks -/

/-- `ops->release` is called, and nothing else changes. -/
structure Releases (s s' : State) : Prop where
  heap : s'.heap = s.heap
  attrOpen : s'.attrOpen = s.attrOpen
  pc : s'.pc = s.pc
  active : s'.active = s.active
  base : s'.base = s.base
  marked : Marked s'

theorem releaseFile_spec (hm : Marked s) (ht : (s.pc t).hasFile) :
    ∃ s', releaseFile s t = some s' ∧ Releases s s' := by
  unfold releaseFile
  rw [if_pos ht]
  by_cases hr : s.released t
  · rw [if_pos hr]
    exact ⟨s, rfl, rfl, rfl, rfl, rfl, rfl, hm⟩
  · rw [if_neg hr]
    refine ⟨_, rfl, rfl, rfl, rfl, rfl, rfl, fun u => ?_⟩
    show Function.update s.releases t (s.releases t + 1) u = (Function.update s.released t true u).toNat
    by_cases hut : u = t
    · rw [hut, Function.update_self, Function.update_self, hm t, Bool.eq_false_iff.mpr hr]
      rfl
    · rw [Function.update_of_ne hut, Function.update_of_ne hut, hm u]

/-- **The walk of a drain** over the list. -/
theorem releaseFiles_spec : ∀ (files : List ℕ) {s : State}, Marked s → (∀ t ∈ files, (s.pc t).hasFile) →
    ∃ s', files.foldlM releaseFile s = some s' ∧ Releases s s'
  | [], s, hm, _ => ⟨s, rfl, rfl, rfl, rfl, rfl, rfl, hm⟩
  | t :: files, s, hm, hfiles => by
    obtain ⟨s₁, hrun, h₁⟩ := releaseFile_spec hm (hfiles t List.mem_cons_self)
    obtain ⟨s₂, hrest, h₂⟩ := releaseFiles_spec files h₁.marked fun u hu => by
      rw [h₁.pc]
      exact hfiles u (List.mem_cons_of_mem _ hu)
    refine ⟨s₂, ?_, by rw [h₂.heap, h₁.heap], by rw [h₂.attrOpen, h₁.attrOpen], by rw [h₂.pc, h₁.pc],
      by rw [h₂.active, h₁.active], by rw [h₂.base, h₁.base], h₂.marked⟩
    rw [List.foldlM_cons, hrun]
    exact hrest

theorem Pc.hasFile_of_listed : ∀ (x : Pc), x.listed = true → x.hasFile = true
  | .gotten _, _ | .calling, _ | .finishing true, _ | .isOpen, _ => rfl
  | .putting .failed, _ | .putting .released, _ => rfl
  | .putLocked .failed _, _ | .putLocked .released _, _ => rfl

/-! ### Steps -/

/-- **The invariant**, with the node at `kn->attr.open`. -/
def Inv (s : State) (node : OpenNode) : Prop := ∃ D A, Refs s node D ∧ Active s A ∧ Marked s

/-- A thread changes its own references only. -/
structure Own (t : ℕ) (s s' : State) (node node' : OpenNode) : Prop where
  others : ∀ u ≠ t, s'.pc u = s.pc u
  base : s'.base = s.base
  files : SameRest t node node'

theorem Quiet.own {node' : OpenNode} (h : Quiet t s s') (hrest : SameRest t node node') :
    Own t s s' node node' := ⟨h.others, h.base, hrest⟩

theorem Inv.quiet {node' : OpenNode} {D' : Finset ℕ} (h : Inv s node) (hrefs : Refs s' node' D')
    (hquiet : Quiet t s s') : Inv s' node' := by
  obtain ⟨-, A, -, hactive, hmarked⟩ := h
  exact ⟨D', A, hrefs, hquiet.active_of hactive, hquiet.marked hmarked⟩

/-- A step of a thread that does not touch the nodes. -/
theorem Inv.goto (h : Inv s node) (hlisted : x.listed = (s.pc t).listed) (hholds : x.holds = (s.pc t).holds)
    (howned : x.owned = (s.pc t).owned) (hpointer : ∀ on, x.pointer = some on → on = s.attrOpen)
    (hinside : x.inside = (s.pc t).inside) :
    Inv (s.goto t x) node ∧ Own t s (s.goto t x) node node := by
  obtain ⟨D, A, hrefs, hactive, hmarked⟩ := h
  exact ⟨⟨D, A, hrefs.goto hlisted hholds howned hpointer,
    (quiet_goto hinside).active_of hactive, (quiet_goto hinside).marked hmarked⟩,
    (quiet_goto hinside).own rfl⟩

/-- `bsfs_get_active`. -/
theorem Inv.enter (h : Inv s node) (hpc : s.pc t = .idle) :
    Inv ({ s with active := s.active + 1 }.goto t .opening) node := by
  obtain ⟨D, A, hrefs, hactive, hmarked⟩ := h
  have hnot : t ∉ A := by
    rw [hactive.inside, hpc]
    exact Bool.false_ne_true
  refine ⟨D, insert t A, (hrefs.goto (t := t) (x := .opening) (by rw [hpc]; rfl) (by rw [hpc]; rfl)
    (by rw [hpc]; rfl) (by simp [Pc.pointer])).congr rfl rfl rfl, ⟨fun u => ?_, ?_⟩, hmarked⟩
  · rw [goto_pc, Finset.mem_insert]
    by_cases hut : u = t
    · rw [if_pos hut]
      exact iff_of_true (Or.inl hut) rfl
    · rw [if_neg hut, or_iff_right hut]
      exact hactive.inside u
  · show s.active + 1 = s.base + _
    rw [Finset.card_insert_of_notMem hnot, hactive.count]
    push_cast
    omega

/-- `bsfs_put_active`. -/
theorem Inv.leave (h : Inv s node) {ok : Bool} (hpc : s.pc t = .finishing ok) :
    Inv ({ s with active := s.active - 1 }.goto t (if ok then .isOpen else .closed)) node := by
  obtain ⟨D, A, hrefs, hactive, hmarked⟩ := h
  have hmem : t ∈ A := by
    rw [hactive.inside, hpc]
    rfl
  refine ⟨D, A.erase t, (hrefs.goto (t := t) (x := if ok then .isOpen else .closed) ?_ ?_ ?_ ?_).congr
    rfl rfl rfl, ⟨fun u => ?_, ?_⟩, hmarked⟩
  · rw [hpc]
    cases ok <;> rfl
  · rw [hpc]
    cases ok <;> rfl
  · rw [hpc]
    cases ok <;> rfl
  · cases ok <;> simp [Pc.pointer]
  · rw [goto_pc, Finset.mem_erase]
    by_cases hut : u = t
    · rw [if_pos hut]
      refine iff_of_false (fun hu => hu.1 hut) ?_
      cases ok <;> exact Bool.false_ne_true
    · rw [if_neg hut, and_iff_right hut]
      exact hactive.inside u
  · have := Finset.card_erase_add_one hmem
    have hcount := hactive.count
    show s.active - 1 = s.base + _
    omega

/-- `ops->release`, and a step of the thread. -/
theorem Inv.release (h : Inv s node) (hr : Releases s s') (hlisted : x.listed = (s.pc t).listed)
    (hholds : x.holds = (s.pc t).holds) (howned : x.owned = (s.pc t).owned) (hpointer : x.pointer = none)
    (hinside : x.inside = (s.pc t).inside) :
    Inv (s'.goto t x) node ∧ Own t s (s'.goto t x) node node := by
  obtain ⟨D, A, hrefs, hactive, -⟩ := h
  have hinv : Inv s' node := ⟨D, A, hrefs.congr hr.heap hr.attrOpen hr.pc,
    ⟨fun u => by rw [hr.pc]; exact hactive.inside u, by rw [hr.active, hr.base]; exact hactive.count⟩,
    hr.marked⟩
  obtain ⟨hgoto, -⟩ := hinv.goto (t := t) (by rw [hr.pc, hlisted]) (by rw [hr.pc, hholds])
    (by rw [hr.pc, howned]) (by simp [hpointer]) (by rw [hr.pc, hinside])
  exact ⟨hgoto, fun u hu => by rw [goto_ne _ _ hu, hr.pc], hr.base, rfl⟩

/-- **A step of a thread** has a result, keeps the invariant and changes the thread's references only. -/
theorem act_inv (h : Inv s node) (t : ℕ) (answer : Answer) :
    ∃ s' node', act s t (s.pc t) answer = some s' ∧ Inv s' node' ∧ Own t s s' node node' := by
  obtain ⟨D, A, hrefs, hactive, hmarked⟩ := id h
  -- a step that does not touch the nodes
  have hgoto : ∀ {x y : Pc}, s.pc t = y → x.listed = y.listed → x.holds = y.holds → x.owned = y.owned →
      x.pointer = none → x.inside = y.inside →
      ∃ s' node', some (s.goto t x) = some s' ∧ Inv s' node' ∧ Own t s s' node node' := by
    rintro x y rfl hlisted hholds howned hpointer hinside
    exact ⟨_, node, rfl, h.goto hlisted hholds howned (by simp [hpointer]) hinside⟩
  unfold act
  split
  next hpc =>
    split_ifs
    · exact ⟨_, node, rfl, h.enter hpc, fun u hu => goto_ne _ _ hu, rfl, rfl⟩
    · exact hgoto hpc rfl rfl rfl rfl rfl
  next hpc => exact hgoto hpc rfl rfl rfl rfl rfl
  next hpc => exact hgoto hpc rfl rfl rfl rfl rfl
  next newOn hpc =>
    obtain ⟨s', node', hrun, hrefs', hquiet, hrest⟩ := getOpenNode_spec hrefs hpc
    exact ⟨s', node', hrun, h.quiet hrefs' hquiet, hquiet.own hrest⟩
  next p hpc =>
    split_ifs with hp
    · have hquiet : Quiet t s ((s.write p ⟨0, []⟩).goto t (.getting p)) :=
        quiet_of_pc (x := .getting p) (by rw [hpc]; rfl) rfl rfl rfl rfl rfl
      exact ⟨_, node, rfl, h.quiet (hrefs.alloc hpc hp.1 hp.2) hquiet, hquiet.own rfl⟩
    · exact ⟨s, node, rfl, h, fun _ _ => rfl, rfl, rfl⟩
  next hpc => exact hgoto hpc rfl rfl rfl rfl rfl
  next newOn hpc =>
    obtain ⟨s', hrun, hrefs', hquiet⟩ := kfree_spec (t := t) (p := newOn) (x := .calling) hrefs
      (by rw [hpc]; rfl) (by rw [hpc]; rfl) (by rw [hpc]; rfl) rfl rfl (by rw [hpc]; rfl)
    exact ⟨s', node, hrun, h.quiet hrefs' hquiet, hquiet.own rfl⟩
  next hpc => exact hgoto hpc rfl rfl rfl rfl rfl
  next hpc => exact hgoto hpc rfl rfl rfl rfl rfl
  next ok hpc => exact ⟨_, node, rfl, h.leave hpc, fun u hu => goto_ne _ _ hu, rfl, rfl⟩
  next hpc =>
    obtain ⟨s', hrun, hr⟩ := releaseFile_spec (t := t) hmarked (by rw [hpc]; rfl)
    rw [hrun]
    exact ⟨_, node, rfl, h.release hr (by rw [hpc]; rfl) (by rw [hpc]; rfl) (by rw [hpc]; rfl) rfl
      (by rw [hpc]; rfl)⟩
  next hpc =>
    obtain ⟨s', node', D', hrun, hrefs', hquiet, hrest⟩ := drainOpenFiles_spec hrefs hpc
    exact ⟨s', node', hrun, h.quiet hrefs' hquiet, hquiet.own hrest⟩
  next on hpc =>
    obtain rfl : on = s.attrOpen := hrefs.pointer t on (by rw [hpc]; rfl)
    obtain ⟨-, hheap, -⟩ := hrefs.attached (t := t) (Or.inr (by rw [hpc]; rfl))
    obtain ⟨s', hrun, hr⟩ := releaseFiles_spec node.files hmarked fun u hu =>
      Pc.hasFile_of_listed _ ((hrefs.listed u).mp hu)
    rw [hheap, Option.bind_eq_bind, Option.bind_some, hrun]
    exact ⟨_, node, rfl, h.release hr (by rw [hpc]; rfl) (by rw [hpc]; rfl) (by rw [hpc]; rfl) rfl
      (by rw [hpc]; rfl)⟩
  next caller hpc =>
    refine ⟨_, node, rfl, h.goto (by rw [hpc]; rfl) (by rw [hpc]; rfl) (by rw [hpc]; rfl) ?_ (by rw [hpc]; rfl)⟩
    exact fun on hon => (Option.some.inj hon).symm
  next caller on hpc =>
    obtain ⟨s', node', D', hrun, hrefs', hquiet, hrest⟩ := putOpenNode_spec hrefs hpc
    exact ⟨s', node', hrun, h.quiet hrefs' hquiet, hquiet.own hrest⟩
  next caller on hpc =>
    obtain ⟨s', hrun, hrefs', hquiet⟩ := kfree_spec (t := t) (p := on)
      (x := if caller = .failed then .finishing false else .closed) hrefs (by rw [hpc]; rfl)
      (by rw [hpc]; cases caller <;> rfl) (by rw [hpc]; cases caller <;> rfl) (by cases caller <;> rfl)
      (by cases caller <;> rfl) (by rw [hpc]; cases caller <;> rfl)
    exact ⟨s', node, hrun, h.quiet hrefs' hquiet, hquiet.own rfl⟩
  next => exact ⟨s, node, rfl, h, fun _ _ => rfl, rfl, rfl⟩

/-! ### Runs -/

/-- The node at `kn->attr.open`, an empty one if there is none. -/
def current (s : State) : OpenNode :=
  if s.attrOpen = 0 then ⟨0, []⟩ else (s.heap s.attrOpen).getD ⟨0, []⟩

/-- What the steps of a thread add to a number, over a run. -/
def changes (f : State → ℤ) (t : ℕ) : State → List Event → ℤ
  | _, [] => 0
  | s, e :: es =>
    match exec s e with
    | none => 0
    | some s' => (match e with
      | .thread u _ => if u = t then f s' - f s else 0
      | .deactivate => 0) + changes f t s' es

/-- The bookkeeping of the open files, by the points where the threads are. A live node is the one at
`kn->attr.open`, or it has no references and there is one thread that is to install or to free it. -/
structure Bookkeeping (s : State) : Prop where
  refcnt : s.attrOpen = 0 ∨ ∃ node, s.heap s.attrOpen = some node ∧ ∃ D : Finset ℕ,
    (∀ t, t ∈ D ↔ (s.pc t).holds) ∧ node.refcnt = node.files.length + D.card
  listed : ∀ t, (current s).files.count t = if (s.pc t).listed then 1 else 0
  owner : ∀ p, s.heap p ≠ none → p = s.attrOpen ∨ s.heap p = some ⟨0, []⟩ ∧ ∃! t, (s.pc t).owned = p
  gone : (∀ t, s.pc t = .idle ∨ s.pc t = .closed) → ∀ p, s.heap p = none
  releases : ∀ t, s.releases t ≤ 1

theorem Inv.current (h : Inv s node) : current s = node := by
  obtain ⟨D, A, hrefs, -⟩ := h
  unfold Open.current
  by_cases hopen : s.attrOpen = 0
  · rw [if_pos hopen, (hrefs.empty hopen).1]
  · obtain ⟨-, hheap, -⟩ := hrefs.installed.resolve_left fun hnone => hopen hnone.1
    rw [if_neg hopen, hheap]
    rfl

theorem Inv.bookkeeping (h : Inv s node) : Bookkeeping s := by
  have hcurrent := h.current
  obtain ⟨D, A, hrefs, -, hmarked⟩ := h
  refine ⟨hrefs.installed.imp (fun hnone => hnone.1) fun ⟨_, hheap, _⟩ => ⟨node, hheap, D, hrefs.holds, hrefs.count⟩,
    fun t => ?_, fun p hp => ?_, fun hidle p => ?_, fun t => ?_⟩
  · rw [hcurrent, List.Nodup.count hrefs.nodup]
    simp only [hrefs.listed]
  · refine (hrefs.live p hp).imp_right fun ⟨t, ht⟩ => ?_
    have hp0 : p ≠ 0 := by
      rintro rfl
      exact hp hrefs.null
    rw [← ht]
    refine ⟨(hrefs.owned t (by rwa [ht])).1, t, rfl, fun u hu => ?_⟩
    exact (hrefs.distinct t u (by rwa [ht]) hu.symm).symm
  · by_contra hp
    have hnone : s.attrOpen = 0 := by
      by_contra hopen
      obtain ⟨-, -, hpos⟩ := hrefs.installed.resolve_left fun hnone => hopen hnone.1
      have hfiles : node.files = [] := List.eq_nil_iff_forall_not_mem.mpr fun t ht => by
        have := (hrefs.listed t).mp ht
        rcases hidle t with hpc | hpc <;> rw [hpc] at this <;> cases this
      have hD : D = ∅ := Finset.eq_empty_of_forall_notMem fun t ht => by
        have := (hrefs.holds t).mp ht
        rcases hidle t with hpc | hpc <;> rw [hpc] at this <;> cases this
      rw [hrefs.count, hfiles, hD] at hpos
      exact absurd hpos (by decide)
    have hzero : p = 0 := by
      rcases hrefs.live p hp with rfl | ⟨t, ht⟩
      · exact hnone
      · rcases hidle t with hpc | hpc <;> rw [hpc] at ht <;> exact ht.symm
    rw [hzero] at hp
    exact hp hrefs.null
  · rw [hmarked t]
    exact Bool.toNat_le _

theorem init_inv (active : ℤ) : Inv (init active) ⟨0, []⟩ := by
  refine ⟨∅, ∅, ⟨rfl, Or.inl ⟨rfl, rfl⟩, List.nodup_nil, fun t => ?_, fun t => ?_, rfl, fun t ht => ?_,
    fun t u ht => ?_, fun p hp => ?_, fun t on hon => ?_⟩, ⟨fun t => ?_, ?_⟩, fun t => rfl⟩
  · exact iff_of_false List.not_mem_nil Bool.false_ne_true
  · exact iff_of_false (Finset.notMem_empty t) Bool.false_ne_true
  · exact absurd rfl ht
  · exact absurd rfl ht
  · exact absurd rfl hp
  · cases hon
  · exact iff_of_false (Finset.notMem_empty t) Bool.false_ne_true
  · exact (add_zero active).symm

/-- An event has a result and keeps the invariant; a step of a thread changes its own references only. -/
theorem exec_inv (h : Inv s node) (e : Event) : ∃ s' node', exec s e = some s' ∧ Inv s' node' ∧
    match e with
    | .thread t _ => Own t s s' node node'
    | .deactivate => s'.pc = s.pc := by
  cases e with
  | thread t answer => exact act_inv h t answer
  | deactivate =>
    unfold exec
    dsimp only
    split_ifs
    · obtain ⟨D, A, hrefs, ⟨hinside, hcount⟩, hmarked⟩ := h
      refine ⟨_, node, rfl, ⟨D, A, hrefs.congr rfl rfl rfl, ⟨hinside, ?_⟩, hmarked⟩, rfl⟩
      show s.active + _ = s.base + _ + _
      rw [hcount]
      omega
    · exact ⟨s, node, rfl, h, rfl⟩

theorem run_inv : ∀ (events : List Event) {s : State} {node : OpenNode}, Inv s node →
    ∃ s' node', run s events = some s' ∧ Inv s' node'
  | [], s, node, h => ⟨s, node, rfl, h⟩
  | e :: events, s, node, h => by
    obtain ⟨s₁, node₁, hexec, h₁, -⟩ := exec_inv h e
    obtain ⟨s₂, node₂, hrun, h₂⟩ := run_inv events h₁
    refine ⟨s₂, node₂, ?_, h₂⟩
    unfold run
    rw [List.foldlM_cons, hexec]
    exact hrun

/-! ### What a thread leaves behind -/

/-- A set that changes at one place only. -/
theorem card_sub_card {S S' : Finset ℕ} (h : ∀ u ≠ t, u ∈ S' ↔ u ∈ S) :
    (S'.card : ℤ) - S.card = (if t ∈ S' then 1 else 0) - if t ∈ S then 1 else 0 := by
  have herase : S'.erase t = S.erase t := by
    ext u
    rw [Finset.mem_erase, Finset.mem_erase]
    exact and_congr_right fun hu => h u hu
  have hcard := congrArg Finset.card herase
  by_cases hS : t ∈ S
  · by_cases hS' : t ∈ S'
    · have h1 := Finset.card_erase_add_one hS
      have h2 := Finset.card_erase_add_one hS'
      rw [if_pos hS, if_pos hS']
      omega
    · have h1 := Finset.card_erase_add_one hS
      rw [Finset.erase_eq_of_notMem hS'] at hcard
      rw [if_pos hS, if_neg hS']
      omega
  · rw [Finset.erase_eq_of_notMem hS] at hcard
    by_cases hS' : t ∈ S'
    · have h2 := Finset.card_erase_add_one hS'
      rw [if_neg hS, if_pos hS']
      omega
    · rw [Finset.erase_eq_of_notMem hS'] at hcard
      rw [if_neg hS, if_neg hS']
      omega

/-- The references of a thread at a point. -/
def Pc.refs (x : Pc) : ℤ := (if x.listed then 1 else 0) + if x.holds then 1 else 0

def Pc.actives (x : Pc) : ℤ := if x.inside then 1 else 0

/-- A step changes the numbers by the references that the thread takes or drops. -/
theorem own_changes {node' : OpenNode} (h : Inv s node) (h' : Inv s' node') (hown : Own t s s' node node') :
    node'.refcnt - node.refcnt = (s'.pc t).refs - (s.pc t).refs ∧
      s'.active - s.active = (s'.pc t).actives - (s.pc t).actives := by
  obtain ⟨D, A, hrefs, hactive, -⟩ := h
  obtain ⟨D', A', hrefs', hactive', -⟩ := h'
  have hfiles := @card_sub_card t node.files.toFinset node'.files.toFinset fun u hu => by
    rw [List.mem_toFinset, List.mem_toFinset, hrefs'.listed, hrefs.listed, hown.others u hu]
  have hdrains := @card_sub_card t D D' fun u hu => by
    rw [hrefs'.holds, hrefs.holds, hown.others u hu]
  have hopens := @card_sub_card t A A' fun u hu => by
    rw [hactive'.inside, hactive.inside, hown.others u hu]
  rw [List.toFinset_card_of_nodup hrefs.nodup, List.toFinset_card_of_nodup hrefs'.nodup] at hfiles
  simp only [List.mem_toFinset, hrefs.listed, hrefs'.listed] at hfiles
  simp only [hrefs.holds, hrefs'.holds] at hdrains
  simp only [hactive.inside, hactive'.inside] at hopens
  unfold Pc.refs Pc.actives
  constructor
  · rw [hrefs.count, hrefs'.count]
    omega
  · rw [hactive.count, hactive'.count, hown.base]
    omega

/-- **Over a run** the steps of a thread add to the reference count and to the active count what the
thread has in the end and had not at the beginning. -/
theorem changes_eq : ∀ (events : List Event) {s s' : State} {node : OpenNode}, Inv s node →
    run s events = some s' → ∀ t,
      changes (fun s => (current s).refcnt) t s events = (s'.pc t).refs - (s.pc t).refs ∧
      changes State.active t s events = (s'.pc t).actives - (s.pc t).actives
  | [], s, s', node, h, hrun, t => by
    cases hrun
    exact ⟨(sub_self _).symm, (sub_self _).symm⟩
  | e :: events, s, s', node, h, hrun, t => by
    obtain ⟨s₁, node₁, hexec, h₁, hown⟩ := exec_inv h e
    unfold run at hrun
    rw [List.foldlM_cons, hexec] at hrun
    obtain ⟨hrefs, hactives⟩ := changes_eq events h₁ hrun t
    unfold changes
    rw [hexec]
    dsimp only
    rw [hrefs, hactives]
    cases e with
    | deactivate =>
      have hpc : s₁.pc t = s.pc t := congrFun hown t
      dsimp only
      rw [hpc]
      omega
    | thread u answer =>
      dsimp only
      by_cases hut : u = t
      · subst hut
        obtain ⟨hn, ha⟩ := own_changes h h₁ hown
        rw [if_pos rfl, if_pos rfl, h.current, h₁.current]
        omega
      · have hpc : s₁.pc t = s.pc t := hown.others t (Ne.symm hut)
        rw [if_neg hut, if_neg hut, hpc]
        omega

/-- **Open files.** Every run of opens, releases and drains, in any interleaving, ends without touching
memory that is not allocated, and the bookkeeping is right in the state it ends in. A call that has come
to an end, such as a failing open, has left the reference count and the active count as they were, its
file is not on the list, and no step of a thread has moved the other files. -/
theorem openFiles (active : ℤ) (events : List Event) :
    ∃ s, run (init active) events = some s ∧ Bookkeeping s ∧
      (∀ t later s', s.pc t = .idle → run s later = some s' → s'.pc t = .closed →
        changes (fun s => (current s).refcnt) t s later = 0 ∧ changes State.active t s later = 0 ∧
          t ∉ (current s').files) ∧
      ∀ t answer s', act s t (s.pc t) answer = some s' →
        (current s').files.filter (· ≠ t) = (current s).files.filter (· ≠ t) := by
  obtain ⟨s, node, hrun, h⟩ := run_inv events (init_inv active)
  refine ⟨s, hrun, h.bookkeeping, fun t later s' hidle hlater hclosed => ?_, fun t answer s' hact => ?_⟩
  · obtain ⟨hrefs, hactives⟩ := changes_eq later h hlater t
    obtain ⟨s'', node', hlater', h'⟩ := run_inv later h
    obtain rfl : s' = s'' := Option.some.inj (hlater.symm.trans hlater')
    rw [hidle, hclosed] at hrefs hactives
    refine ⟨hrefs, hactives, fun hmem => ?_⟩
    have hcount : (current s').files.count t = 0 := by
      rw [h'.bookkeeping.listed t, hclosed]
      rfl
    exact absurd (List.count_pos_iff.mpr hmem) (by omega)
  · obtain ⟨s'', node', hact', h', hown⟩ := act_inv h t answer
    obtain rfl : s' = s'' := Option.some.inj (hact.symm.trans hact')
    rw [h.current, h'.current]
    exact hown.files

/-- Two opens on their way at once: the second one finds the node of the first, and frees its own. -/
example : (run (init 0) [.thread 1 .open, .thread 2 .open, .thread 1 .ok, .thread 2 .ok, .thread 1 .ok,
    .thread 2 .ok, .thread 1 (.node 8), .thread 2 (.node 16), .thread 1 .ok, .thread 2 .ok,
    .thread 2 .ok]).map (fun s => (s.attrOpen, s.heap 8, s.heap 16)) =
      some (8, some ⟨2, [1, 2]⟩, none) := by decide

end HardStack.Bsfs.Open
