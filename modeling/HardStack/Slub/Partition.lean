import HardStack.Slub.Layout

/-! # The partition of the objects, along every run

Every call of `kmem_cache_alloc` and `kfree` keeps the invariant of `Slub.Layout`. The slow path asks
the page allocator only when no page of the partial list has a free object; whether another page of the
cache has one depends on where the frees went (`Keeps`). -/

namespace HardStack.Slub.Partition

open HardStack.Lib.LinkedList HardStack.Slub.Model HardStack.Slub.Layout

variable {c : Cache} {s s' : State} {held : List ℕ} {L : ℕ → List ℕ} {cl : List ℕ} {p q x : ℕ}
  {g : Grant}

/-- The free objects are where an allocation looks for them: a page that is not the cpu slab has one
only if it is on the partial list, and the pages of this list have one (the first slab of
`kmem_cache_node` may have none, as long as it is the only one). -/
structure Findable (s : State) (L : ℕ → List ℕ) : Prop where
  listed : ∀ p ∈ s.slabs, L p ≠ [] → p ∈ s.node.partialList
  nonempty : (∀ p ∈ s.node.partialList, L p ≠ []) ∨ s.slabs.length ≤ 1

/-! ### Allocating -/

/-- What a call of the slow path leads to: the object, and the lists; `asked` tells whether the page
allocator was called, and then nothing was to be found. -/
structure Served (c : Cache) (s s' : State) (held : List ℕ) (L : ℕ → List ℕ) (x : ℕ) (asked : Bool) :
    Prop where
  inv : ∃ L' cl', Inv c s' (if x = 0 then held else x :: held) L' cl' ∧
    (Findable s L → Findable s' L')
  asked : asked = true → Findable s L → ∀ p ∈ s.slabs, L p = []

/-- The first partial page is taken over, if there is one. -/
theorem getPartialNode_cases (h : Inv c s held L []) :
    (s.node.partialList = [] ∧ getPartialNode s = (s, 0)) ∨
      ∃ p rest, s.node.partialList = p :: rest ∧
        (((s.page p).freelist = 0 ∧ getPartialNode s = ((acquireSlab s p true).1, 0)) ∨
          ((s.page p).freelist ≠ 0 ∧ getPartialNode s =
            ({ (acquireSlab s p true).1 with cpu := { s.cpu with page := p } },
              (s.page p).freelist))) := by
  have hnr := h.core.nr
  unfold getPartialNode
  cases hl : s.node.partialList with
  | nil =>
    rw [hl] at hnr
    left
    rw [if_pos (show s.node.nrPartial = 0 from hnr)]
    exact ⟨rfl, rfl⟩
  | cons p rest =>
    rw [hl, List.length_cons] at hnr
    right
    refine ⟨p, rest, rfl, ?_⟩
    rw [if_neg (by omega)]
    by_cases hz : (s.page p).freelist = 0
    · exact Or.inl ⟨hz, if_pos hz⟩
    · exact Or.inr ⟨hz, if_neg hz⟩

/-- The cpu slab is used up and left to itself. -/
theorem detach_inv (h : Inv c s held L []) :
    Inv c { s with cpu := { s.cpu with page := 0 } } held L [] := by
  refine ⟨h.core.move ⟨rfl, fun _ => rfl, fun _ => rfl⟩ h.core.chain h.core.cpuChain (fun q hq => ?_)
    h.core.inuse (fun _ => rfl) (fun hne => absurd rfl hne) (fun q hq => ?_) h.core.listed_nodup
    h.core.nr fun y hy => Or.inl hy, fun hne => absurd rfl hne⟩
  · unfold cpuOf
    rw [ite_self, ite_self]
  · obtain ⟨h1, -⟩ := h.core.listed q hq
    refine ⟨h1, ?_⟩
    have := h.core.pos q h1
    show q ≠ 0
    omega

/-- The object that `load_freelist` takes from a new cpu slab. -/
theorem loaded {t : State} {a : ℕ} {M : List ℕ} (h : Inv c { t with cpu := ⟨a, p⟩ } held L M)
    (ha : a ≠ 0) : ∃ cl', Inv c { t with cpu := ⟨getFreepointer c t a, p⟩ }
      (if a = 0 then held else a :: held) L cl' := by
  obtain ⟨cl', -, hcore⟩ := h.core.pop ha
  rw [if_neg ha]
  exact ⟨cl', hcore, h.cpu_empty⟩

theorem Findable.singleton (h : Inv c s held L []) (hf : Findable s L) {rest : List ℕ}
    (hl : s.node.partialList = p :: rest) (hz : (s.page p).freelist = 0) :
    s.slabs = [p] ∧ rest = [] ∧ L p = [] := by
  have hmem : p ∈ s.node.partialList := hl ▸ List.mem_cons_self
  have hp := (h.core.listed p hmem).1
  have hLp : L p = [] := (FreeChain.zero_iff (h.core.chain p hp)).mp hz
  have hlen : s.slabs.length ≤ 1 := by
    rcases hf.nonempty with hne | hlen
    · exact absurd hLp (hne p hmem)
    · exact hlen
  have hslabs : s.slabs = [p] := by
    cases hs : s.slabs with
    | nil =>
      rw [hs] at hp
      exact absurd hp List.not_mem_nil
    | cons q tl =>
      rw [hs, List.length_cons] at hlen
      have htl : tl = [] := List.length_eq_zero_iff.mp (by omega)
      rw [hs, htl, List.mem_singleton] at hp
      rw [hp, htl]
  refine ⟨hslabs, List.eq_nil_iff_forall_not_mem.mpr fun q hq => ?_, hLp⟩
  have hq' : q ∈ s.node.partialList := hl ▸ List.mem_cons_of_mem _ hq
  have hqs := (h.core.listed q hq').1
  rw [hslabs, List.mem_singleton] at hqs
  have hnd := h.core.listed_nodup
  rw [hl] at hnd
  exact (List.nodup_cons.mp hnd).1 (hqs ▸ hq)

/-- The cpu slab after a new page has been set up. -/
def grown (c : Cache) (t : State) (p order : ℕ) : State :=
  { (setupSlab c t p order).setPage p { (setupSlab c t p order).page p with freelist := 0 } with
    cpu := ⟨getFreepointer c (setupSlab c t p order) p, p⟩ }

theorem newSlabLabel_granted {t : State} {order : ℕ} (hget : getPartialNode s = (t, 0))
    (hcpu : t.cpu = ⟨0, 0⟩) (hp : p ≠ 0) (hslab : allocateSlab c t g = (setupSlab c t p order, p)) :
    newSlabLabel c s g = (grown c t p order, p, true) := by
  obtain ⟨m, heq⟩ := setupSlab_eq c t p order
  have hfree : ((setupSlab c t p order).page p).freelist = p := by
    rw [heq]
    dsimp only
    rw [Function.update_self]
  have hflush : flushCpuSlab c (setupSlab c t p order) = setupSlab c t p order := by
    unfold flushCpuSlab
    rw [if_neg]
    rw [heq]
    dsimp only
    rw [hcpu]
    exact not_not.mpr rfl
  unfold newSlabLabel newSlabObjects
  rw [hget]
  dsimp only
  rw [if_neg (not_not.mpr rfl), hslab]
  dsimp only
  rw [if_pos hp, hflush, hfree]
  dsimp only
  rw [if_neg hp]
  rfl

/-- What `new_slab` comes to when the partial list has given nothing. -/
theorem newSlabLabel_asked {t : State} (hget : getPartialNode s = (t, 0)) (hcpu : t.cpu = ⟨0, 0⟩)
    (hg : g.Valid c t) :
    newSlabLabel c s g = (t, 0, true) ∨ ∃ p order, FreshBlock t p order ∧
      0 < orderObjects order c.size ∧ newSlabLabel c s g = (grown c t p order, p, true) := by
  have hne : ∀ {p order : ℕ}, FreshBlock t p order → p ≠ 0 := fun hf => by
    have := hf.1
    omega
  cases h1 : g.first with
  | some p =>
    have hf := hg.1 p h1
    exact Or.inr ⟨p, c.order, hf, c.oo_pos, newSlabLabel_granted hget hcpu (hne hf)
      (by unfold allocateSlab; rw [h1])⟩
  | none =>
    cases h2 : g.second with
    | some p =>
      have hf := hg.2 p h1 h2
      exact Or.inr ⟨p, c.minOrder, hf, c.min_pos, newSlabLabel_granted hget hcpu (hne hf)
        (by unfold allocateSlab; rw [h1]; dsimp only; rw [h2])⟩
    | none =>
      left
      unfold newSlabLabel newSlabObjects allocateSlab
      rw [hget]
      dsimp only
      rw [if_neg (not_not.mpr rfl), h1]
      dsimp only
      rw [h2]
      dsimp only
      rw [if_neg (not_not.mpr rfl), if_pos rfl]

theorem grown_inv {t : State} {order : ℕ} (h : Inv c t held L []) (hf : FreshBlock t p order)
    (hpos : 0 < orderObjects order c.size) :
    ∃ cl', Inv c (grown c t p order) (if p = 0 then held else p :: held) (Function.update L p []) cl' :=
  loaded (h.grow hf hpos) (by have := hf.1; omega)

/-- The state from which the page allocator is asked has the same pages. -/
theorem asked_served {t : State} (h : Inv c t held L []) (hcpu : t.cpu = ⟨0, 0⟩) (hg : g.Valid c t)
    (hget : getPartialNode s = (t, 0)) (hslabs : t.slabs = s.slabs)
    (hfind : Findable s L → t.node.partialList = [] ∧ ∀ p ∈ s.slabs, L p = []) :
    Served c s (newSlabLabel c s g).1 held L (newSlabLabel c s g).2.1 (newSlabLabel c s g).2.2 := by
  rcases newSlabLabel_asked hget hcpu hg with heq | ⟨p, order, hf, hpos, heq⟩
  · rw [heq]
    refine ⟨⟨L, [], by rw [if_pos rfl]; exact h, fun hF => ?_⟩, fun _ hF => (hfind hF).2⟩
    obtain ⟨h1, h2⟩ := hfind hF
    refine ⟨fun q hq hne => absurd (h2 q (hslabs ▸ hq)) hne, Or.inl fun q hq => ?_⟩
    rw [h1] at hq
    exact absurd hq List.not_mem_nil
  · rw [heq]
    obtain ⟨cl', hinv⟩ := grown_inv h hf hpos
    obtain ⟨m, hset⟩ := setupSlab_eq c t p order
    have hs : (grown c t p order).slabs = p :: t.slabs ∧ (grown c t p order).node = t.node := by
      unfold grown State.setPage
      dsimp only
      rw [hset]
      exact ⟨rfl, rfl⟩
    refine ⟨⟨_, cl', hinv, fun hF => ?_⟩, fun _ hF => (hfind hF).2⟩
    obtain ⟨h1, h2⟩ := hfind hF
    refine ⟨fun q hq hne => ?_, Or.inl fun q hq => ?_⟩
    · rw [hs.1] at hq
      rcases List.mem_cons.mp hq with rfl | hq
      · exact absurd (Function.update_self _ _ _) hne
      · rw [Function.update_of_ne (fresh_ne hf hq)] at hne
        exact absurd (h2 q (hslabs ▸ hq)) hne
    · rw [hs.2, h1] at hq
      exact absurd hq List.not_mem_nil

theorem valid_congr (hs : SameShape s s') (hg : g.Valid c s) : g.Valid c s' := by
  have hfresh : ∀ {p order : ℕ}, FreshBlock s p order → FreshBlock s' p order := by
    intro p order hf
    refine ⟨hf.1, fun q hq => ?_⟩
    rw [hs.order q]
    exact hf.2 q (hs.slabs ▸ hq)
  exact ⟨fun p h1 => hfresh (hg.1 p h1), fun p h1 h2 => hfresh (hg.2 p h1 h2)⟩

/-- **The label `new_slab`**, when there is no cpu slab. -/
theorem newSlabLabel_served (h : Inv c s held L []) (hcpu : s.cpu = ⟨0, 0⟩) (hg : g.Valid c s) :
    Served c s (newSlabLabel c s g).1 held L (newSlabLabel c s g).2.1 (newSlabLabel c s g).2.2 := by
  have h0 : s.cpu.page = 0 := by rw [hcpu]
  rcases getPartialNode_cases h with ⟨hl, hget⟩ | ⟨p, rest, hl, ⟨hz, hget⟩ | ⟨hne, hget⟩⟩
  · refine asked_served h hcpu hg hget rfl fun hF => ⟨hl, fun p hp => ?_⟩
    by_contra hne
    have := hF.listed p hp hne
    rw [hl] at this
    exact List.not_mem_nil this
  · -- the only slab is on the list and has no free object
    have hmem : p ∈ s.node.partialList := hl ▸ List.mem_cons_self
    have hg' := valid_congr (acquireSlab_shape s p) hg
    refine asked_served ((h.acquire h0 hmem).2.1 hz) hcpu hg' hget rfl fun hF => ?_
    obtain ⟨hs, hrest, hLp⟩ := Findable.singleton h hF hl hz
    refine ⟨?_, fun q hq => ?_⟩
    · show s.node.partialList.erase p = []
      rw [hl, List.erase_cons_head, hrest]
    · rw [hs, List.mem_singleton] at hq
      rw [hq, hLp]
  · have hmem : p ∈ s.node.partialList := hl ▸ List.mem_cons_self
    have hinv := (h.acquire h0 hmem).2.2 hne
    have heq : newSlabLabel c s g = ({ (acquireSlab s p true).1 with
        cpu := ⟨getFreepointer c (acquireSlab s p true).1 (s.page p).freelist, p⟩ },
        (s.page p).freelist, false) := by
      unfold newSlabLabel newSlabObjects
      rw [hget]
      dsimp only
      rw [if_pos hne]
      dsimp only
      rw [if_neg hne]
      rfl
    rw [heq]
    obtain ⟨cl', hinv'⟩ := loaded hinv hne
    refine ⟨⟨_, cl', hinv', fun hF => ?_⟩, fun hf => absurd hf Bool.false_ne_true⟩
    have hlist : s.node.partialList.erase p = rest := by rw [hl, List.erase_cons_head]
    have hnd := h.core.listed_nodup
    rw [hl] at hnd
    have hpr := (List.nodup_cons.mp hnd).1
    refine ⟨fun q hq hLq => ?_, ?_⟩
    · show q ∈ s.node.partialList.erase p
      have hqp : q ≠ p := fun hqp => hLq (hqp ▸ Function.update_self _ _ _)
      rw [Function.update_of_ne hqp] at hLq
      have := hF.listed q hq hLq
      exact (List.mem_erase_of_ne hqp).mpr this
    · refine hF.nonempty.imp (fun hall q hq => ?_) fun hlen => hlen
      have hq' : q ∈ rest := hlist ▸ hq
      have hqp : q ≠ p := fun hqp => hpr (hqp ▸ hq')
      rw [Function.update_of_ne hqp]
      exact hall q (hl ▸ List.mem_cons_of_mem _ hq')

/-- **`kmem_cache_alloc`**. -/
theorem kmemCacheAlloc_served (h : Inv c s held L cl) (hg : g.Valid c s) :
    Served c s (kmemCacheAlloc c s g).1 held L (kmemCacheAlloc c s g).2.1 (kmemCacheAlloc c s g).2.2 ∧
      ((kmemCacheAlloc c s g).2.2 = true → s.cpu.freelist = 0) := by
  unfold kmemCacheAlloc
  by_cases hz : s.cpu.freelist = 0
  · rw [if_pos hz]
    refine ⟨?_, fun _ => hz⟩
    have hcl : cl = [] := (FreeChain.zero_iff h.core.cpuChain).mp hz
    subst hcl
    unfold slabAllocSlow
    by_cases h0 : s.cpu.page = 0
    · rw [if_pos h0]
      refine newSlabLabel_served h ?_ hg
      cases hc : s.cpu with
      | mk f p =>
        rw [hc] at hz h0
        dsimp only at hz h0
        rw [hz, h0]
    · -- the cpu slab has no freelist of its own either
      have hfree : getFreelist s s.cpu.page = 0 :=
        (FreeChain.zero_iff (h.core.chain _ (h.core.cpu_mem h0))).mpr (h.cpu_empty h0)
      rw [if_neg h0, if_neg (not_not.mpr hz)]
      dsimp only
      rw [if_pos hfree]
      have hserved := newSlabLabel_served (detach_inv h) (by dsimp only; rw [hz])
        (valid_congr ⟨rfl, fun _ => rfl, fun _ => rfl⟩ hg)
      obtain ⟨⟨L', cl', h', hfind⟩, hask⟩ := hserved
      exact ⟨⟨L', cl', h', fun hF => hfind ⟨hF.listed, hF.nonempty⟩⟩,
        fun ha hF => hask ha ⟨hF.listed, hF.nonempty⟩⟩
  · rw [if_neg hz]
    dsimp only
    refine ⟨⟨?_, fun hf => absurd hf Bool.false_ne_true⟩, fun hf => absurd hf Bool.false_ne_true⟩
    obtain ⟨cl', -, hcore⟩ := h.core.pop hz
    rw [if_neg hz]
    exact ⟨L, cl', ⟨hcore, h.cpu_empty⟩, fun hF => ⟨hF.listed, hF.nonempty⟩⟩

/-! ### Freeing and flushing -/

/-- The object goes to the cpu slab or to a page of the partial list; a flush does not discard. -/
def Keeps (c : Cache) (s : State) : Act → Prop
  | .free x => ∀ p, virtToHeadPage s x = some p → p = s.cpu.page ∨ p ∈ s.node.partialList
  | .flush => s.node.nrPartial < c.minPartial
  | _ => True

/-- **`kfree`** of an object that is held. -/
theorem kfree_inv (h : Inv c s held L cl) (hx : x ∈ held) :
    ∃ L' cl', Inv c (kfree c s x) (held.erase x) L' cl' ∧
      (Keeps c s (.free x) → Findable s L → Findable (kfree c s x) L') := by
  obtain ⟨p, hp, hslot⟩ := h.core.homes x hx
  have hpos : ¬ x ≤ ZERO_SIZE_PTR := by
    have := h.core.pos p hp
    have := (slot_lt hslot).1
    omega
  have hpage := h.core.virtToHeadPage_eq hp hslot
  unfold kfree
  rw [if_neg hpos, hpage]
  dsimp only
  unfold doSlabFree
  by_cases hc : p = s.cpu.page
  · subst hc
    rw [if_pos rfl]
    exact ⟨L, x :: cl, ⟨h.core.pushCpu hx hslot hp, h.cpu_empty⟩,
      fun _ hF => ⟨hF.listed, hF.nonempty⟩⟩
  · rw [if_neg hc]
    refine ⟨_, cl, ⟨h.core.pushPage hx hp hslot, fun hne => ?_⟩, fun hk hF => ⟨fun q hq hLq => ?_, ?_⟩⟩
    · show Function.update L p _ s.cpu.page = []
      rw [Function.update_of_ne (Ne.symm hc)]
      exact h.cpu_empty hne
    · by_cases hqp : q = p
      · subst hqp
        exact (hk q hpage).resolve_left hc
      · rw [Function.update_of_ne hqp] at hLq
        exact hF.listed q hq hLq
    · refine hF.nonempty.imp (fun hall q hq => ?_) fun hlen => hlen
      by_cases hqp : q = p
      · subst hqp
        rw [Function.update_self]
        exact List.cons_ne_nil _ _
      · rw [Function.update_of_ne hqp]
        exact hall q hq

/-- A write of a caller into an object that it holds. -/
theorem write_inv {v : ℕ} (h : Inv c s held L cl) (hx : x ∈ held) :
    Inv c (setFreepointer c s x v) held L cl := by
  obtain ⟨hfree, hcpu⟩ := h.core.held_free hx
  exact ⟨h.core.move ⟨rfl, fun _ => rfl, fun _ => rfl⟩
    (fun p hp => FreeChain.set (h.core.chain p hp) (hfree p hp)) (FreeChain.set h.core.cpuChain hcpu)
    (fun _ _ => List.Perm.refl _) h.core.inuse h.core.idle h.core.cpu_mem h.core.listed
    h.core.listed_nodup h.core.nr fun _ hy => Or.inl hy, h.cpu_empty⟩

/-- **`__flush_cpu_slab`**. -/
theorem flushCpuSlab_inv (h : Inv c s held L cl) :
    ∃ L' cl', Inv c (flushCpuSlab c s) held L' cl' ∧
      (Keeps c s .flush → Findable s L → Findable (flushCpuSlab c s) L') := by
  unfold flushCpuSlab
  by_cases h0 : s.cpu.page = 0
  · rw [if_neg (not_not.mpr h0)]
    exact ⟨L, cl, h, fun _ hF => hF⟩
  rw [if_pos h0]
  obtain ⟨L', hinv, hslabs, hother, hR⟩ := h.core.flush h0
  refine ⟨L', [], hinv, fun hk hF => ⟨fun q hq hLq => ?_, ?_⟩⟩
  · by_cases hqc : q = s.cpu.page
    · subst hqc
      exact hR.listed hk hLq
    · rw [hother q hqc] at hLq
      exact hR.kept q (hF.listed q (hslabs ▸ hq) hLq)
  · rw [hslabs]
    refine hF.nonempty.imp (fun hall q hq => ?_) fun hlen => hlen
    rcases hR.new q hq with hq | ⟨rfl, hne⟩
    · rw [hother q (h.core.listed q hq).2]
      exact hall q hq
    · exact hne

/-! ### Runs -/

/-- There are lists of free objects with the invariant. -/
def Sound (c : Cache) (t : System) : Prop := ∃ L cl, Inv c t.st t.held L cl

/-- The lists are findable as well. -/
def Tidy (c : Cache) (t : System) : Prop := ∃ L cl, Inv c t.st t.held L cl ∧ Findable t.st L

theorem step_sound {P : State → Act → Prop} {t t' : System} (h : Sound c t) (hst : Step c P t t') :
    Sound c t' := by
  obtain ⟨L, cl, hinv⟩ := h
  obtain ⟨act, hv, -, rfl⟩ := hst
  cases act with
  | alloc g =>
    obtain ⟨⟨L', cl', h', -⟩, -⟩ := (kmemCacheAlloc_served hinv hv).1
    exact ⟨L', cl', h'⟩
  | free x =>
    obtain ⟨L', cl', h', -⟩ := kfree_inv hinv hv
    exact ⟨L', cl', h'⟩
  | write x v => exact ⟨L, cl, write_inv hinv hv⟩
  | flush =>
    obtain ⟨L', cl', h', -⟩ := flushCpuSlab_inv hinv
    exact ⟨L', cl', h'⟩

theorem step_tidy {t t' : System} (h : Tidy c t) (hst : Step c (Keeps c) t t') : Tidy c t' := by
  obtain ⟨L, cl, hinv, hF⟩ := h
  obtain ⟨act, hv, hk, rfl⟩ := hst
  cases act with
  | alloc g =>
    obtain ⟨⟨L', cl', h', hfind⟩, -⟩ := (kmemCacheAlloc_served hinv hv).1
    exact ⟨L', cl', h', hfind hF⟩
  | free x =>
    obtain ⟨L', cl', h', hfind⟩ := kfree_inv hinv hv
    exact ⟨L', cl', h', hfind hk hF⟩
  | write x v => exact ⟨L, cl, write_inv hinv hv, hF.listed, hF.nonempty⟩
  | flush =>
    obtain ⟨L', cl', h', hfind⟩ := flushCpuSlab_inv hinv
    exact ⟨L', cl', h', hfind hk hF⟩

theorem fresh_inv (mem : ℕ → ℕ) (page : ℕ → Page) :
    Inv c (fresh mem page) [] (fun _ => []) [] := by
  have hno : ∀ q, q ∉ (fresh mem page).slabs := fun q => List.not_mem_nil
  exact ⟨⟨fun q hq => absurd hq (hno q), List.Pairwise.nil, fun q hq => absurd hq (hno q),
    fun q hq => absurd hq (hno q), rfl, fun q hq => absurd hq (hno q), fun q hq => absurd hq (hno q),
    fun _ => rfl, fun hne => absurd rfl hne, fun q hq => absurd hq List.not_mem_nil, List.nodup_nil, rfl,
    fun x hx => absurd hx List.not_mem_nil⟩, fun hne => absurd rfl hne⟩

/-- The first slab of `kmem_cache_node`, whose first object is the node. -/
def earlySlab (c : Cache) (s : State) (p order : ℕ) : State :=
  { (setupSlab c s p order).setPage p { (setupSlab c s p order).page p with
      freelist := getFreepointer c (setupSlab c s p order) p, inuse := 1, frozen := false } with
    node := ⟨1, [p]⟩ }

theorem early_eq {n : ℕ} (hg : g.Valid c s) (he : earlyKmemCacheNodeAlloc c s g = some (s', n)) :
    ∃ order, FreshBlock s n order ∧ 0 < orderObjects order c.size ∧ s' = earlySlab c s n order := by
  have hslab : ∀ {p order : ℕ}, FreshBlock s p order → 0 < orderObjects order c.size →
      allocateSlab c s g = (setupSlab c s p order, p) → ∃ order, FreshBlock s n order ∧
        0 < orderObjects order c.size ∧ s' = earlySlab c s n order := by
    intro p order hf hpos hs
    obtain ⟨m, heq⟩ := setupSlab_eq c s p order
    have hfree : ((setupSlab c s p order).page p).freelist = p := by
      rw [heq]
      dsimp only
      rw [Function.update_self]
    have hp : p ≠ 0 := by
      have := hf.1
      omega
    unfold earlyKmemCacheNodeAlloc at he
    rw [hs] at he
    dsimp only at he
    rw [if_neg hp, hfree] at he
    cases he
    exact ⟨order, hf, hpos, rfl⟩
  cases h1 : g.first with
  | some p => exact hslab (hg.1 p h1) c.oo_pos (by unfold allocateSlab; rw [h1])
  | none =>
    cases h2 : g.second with
    | some p => exact hslab (hg.2 p h1 h2) c.min_pos (by unfold allocateSlab; rw [h1]; dsimp only; rw [h2])
    | none =>
      unfold earlyKmemCacheNodeAlloc allocateSlab at he
      rw [h1] at he
      dsimp only at he
      rw [h2] at he
      dsimp only at he
      rw [if_pos rfl] at he
      cases he

theorem early_tidy {mem : ℕ → ℕ} {page : ℕ → Page} {n : ℕ} (hg : g.Valid c (fresh mem page))
    (he : earlyKmemCacheNodeAlloc c (fresh mem page) g = some (s, n)) : Tidy c ⟨s, [n]⟩ := by
  obtain ⟨order, hf, hpos, rfl⟩ := early_eq hg he
  have hn : n ≠ 0 := by
    have := hf.1
    omega
  obtain ⟨hlinks, hother⟩ := setupSlab_links (c := c) (s := fresh mem page) hn hpos
  obtain ⟨M, hM, hchain⟩ := Chain.pop hlinks hn
  have hlen : M.length + 1 = orderObjects order c.size := by
    have := congrArg List.length hM
    rw [List.length_map, List.length_range, List.length_cons] at this
    omega
  obtain ⟨m, heq⟩ := setupSlab_eq c (fresh mem page) n order
  unfold earlySlab
  rw [heq] at hchain hother ⊢
  unfold State.setPage
  dsimp only at hchain ⊢
  rw [Function.update_self, Function.update_idem]
  dsimp only
  generalize hfl : getFreepointer c _ n = fl at hchain ⊢
  refine ⟨Function.update (fun _ => []) n M, [], ⟨(fresh_inv mem page).core.extend
    ⟨order, fl, 1, orderObjects order c.size, false⟩ hf rfl rfl rfl rfl hother
    (FreeChain.congr_mem hchain rfl) rfl ?_ (fun q hq => absurd hq List.not_mem_nil)
    (by dsimp only; omega) (fun _ => rfl) (fun hne => absurd rfl hne) (fun q hq => ?_)
    (List.nodup_singleton _) rfl fun x hx => Or.inr ?_, fun hne => absurd rfl hne⟩, ?_⟩
  · have hslots : ∀ u : State, (u.page n).objects = orderObjects order c.size →
        slots c u n = n :: M := fun u hu => by
      rw [← hM, slots, hu]
    have hobj := hslots _ (show ((State.mk m (Function.update (fresh mem page).page n
      ⟨order, fl, 1, orderObjects order c.size, false⟩) (n :: (fresh mem page).slabs) (fresh mem page).cpu
      ⟨1, [n]⟩).page n).objects = _ by dsimp only; rw [Function.update_self])
    rw [heldOf_cons_self (by rw [hobj]; exact List.mem_cons_self), hobj]
    unfold cpuOf heldOf
    rw [ite_self, List.nil_append, List.filter_nil]
    exact List.perm_append_singleton n M
  · rw [List.mem_singleton.mp hq]
    exact ⟨List.mem_cons_self, hn⟩
  · rw [List.mem_singleton.mp hx]
    refine mem_slots.mpr ⟨0, ?_, by simp⟩
    dsimp only
    rw [Function.update_self]
    exact hpos
  · refine ⟨fun q hq hne => ?_, Or.inr le_rfl⟩
    exact hq

theorem start_tidy {t : System} (h : Start c t) : Tidy c t := by
  cases h with
  | fresh mem page =>
    exact ⟨_, _, fresh_inv mem page, fun q hq => absurd hq List.not_mem_nil, Or.inr (Nat.zero_le 1)⟩
  | early hg he => exact early_tidy hg he

/-- Two objects do not overlap. -/
def Apart (c : Cache) (x y : ℕ) : Prop := x + c.size ≤ y ∨ y + c.size ≤ x

/-- **The partition of the slots.** `cl` is the cpu freelist; the freelists are finite chains that end
at `NULL`, without a repetition. -/
def Partitioned (c : Cache) (t : System) : Prop :=
  ∃ cl, FreeChain c t.st t.st.cpu.freelist cl ∧ cl.Nodup ∧
    (∀ x ∈ cl, t.st.cpu.page ∈ t.st.slabs ∧ x ∈ slots c t.st t.st.cpu.page) ∧
    ∀ p ∈ t.st.slabs, ∃ fl, FreeChain c t.st (t.st.page p).freelist fl ∧ fl.Nodup ∧
      (fl ++ ((if t.st.cpu.page = p then cl else []) ++ t.held.filter (· ∈ slots c t.st p))).Perm
        (slots c t.st p) ∧
      (t.st.page p).inuse + fl.length = (t.st.page p).objects

theorem Core.held_apart (h : Core c s held L cl) : held.Pairwise (Apart c) := by
  refine h.nodup_held.pairwise_of_forall_ne fun x hx y hy hne => ?_
  obtain ⟨p, hp, hxp⟩ := h.homes x hx
  obtain ⟨q, hq, hyq⟩ := h.homes y hy
  exact h.slots_apart hp hq hxp hyq hne

theorem Sound.partitioned {t : System} (h : Sound c t) : Partitioned c t := by
  obtain ⟨L, cl, hinv⟩ := h
  refine ⟨cl, hinv.core.cpuChain, hinv.core.nodup_cpu, fun x hx => hinv.core.mem_of_cpu hx,
    fun p hp => ⟨L p, hinv.core.chain p hp, ?_, hinv.core.perm p hp, hinv.core.inuse p hp⟩⟩
  have hnd := ((hinv.core.perm p hp).nodup_iff).mpr (nodup_slots c t.st p)
  exact (List.nodup_append.mp hnd).1

/-- **Every object is in one place.** In every state that a run reaches, the slots of each slab page are
its freelist, the cpu freelist if the page is the cpu slab, and the objects that are held; no two held
objects overlap, and an object that `kmem_cache_alloc` returns overlaps none of them. -/
theorem reachable_partitioned {t₀ t : System} (h0 : Start c t₀)
    (hrun : Relation.ReflTransGen (Step c fun _ _ => True) t₀ t) :
    Partitioned c t ∧ t.held.Pairwise (Apart c) ∧
      ∀ g : Grant, g.Valid c t.st → (kmemCacheAlloc c t.st g).2.1 ≠ 0 →
        ∀ x ∈ t.held, x ≠ (kmemCacheAlloc c t.st g).2.1 ∧ Apart c (kmemCacheAlloc c t.st g).2.1 x := by
  have hstart : Sound c t₀ := by
    obtain ⟨L, cl, hinv, -⟩ := start_tidy h0
    exact ⟨L, cl, hinv⟩
  have h : Sound c t := Lib.Run.invariant hstart (fun _ _ h hst => step_sound h hst) hrun
  refine ⟨h.partitioned, ?_, fun g hg hne x hx => ?_⟩
  · obtain ⟨L, cl, hinv⟩ := h
    exact Core.held_apart hinv.core
  · obtain ⟨L, cl, hinv⟩ := h
    obtain ⟨⟨L', cl', h', -⟩, -⟩ := (kmemCacheAlloc_served hinv hg).1
    rw [if_neg hne] at h'
    have hap := (List.pairwise_cons.mp (Core.held_apart h'.core)).1 x hx
    have hnd := (List.nodup_cons.mp h'.core.nodup_held).1
    exact ⟨fun he => hnd (he ▸ hx), hap⟩

/-- A cache with two objects to a page. -/
def twoObjects : Cache where
  size := 2048
  offset := 0
  order := 0
  minOrder := 0
  minPartial := 5
  offset_lt := by decide
  oo_pos := by decide
  min_pos := by decide

/-- `twoObjects` before its first allocation. -/
def twoFresh : System := ⟨fresh (fun _ => 0) fun _ => ⟨0, 0, 0, 0, false⟩, []⟩

theorem valid_first {page : ℕ} (hf : FreshBlock s page c.order) :
    Grant.Valid c s ⟨some page, none⟩ :=
  ⟨fun _ h => by cases h; exact hf, fun _ h => by cases h⟩

instance (s : State) (page order : ℕ) : Decidable (FreshBlock s page order) :=
  inferInstanceAs (Decidable (_ ∧ _))

theorem reachable_partitioned_twoObjects :
    (perform twoObjects twoFresh (.alloc ⟨some 4096, none⟩)).held = [4096] ∧
      Partitioned twoObjects (perform twoObjects twoFresh (.alloc ⟨some 4096, none⟩)) := by
  have hst : Step twoObjects (fun _ _ => True) twoFresh
      (perform twoObjects twoFresh (.alloc ⟨some 4096, none⟩)) :=
    ⟨.alloc ⟨some 4096, none⟩, valid_first (by decide), trivial, rfl⟩
  exact ⟨by decide, (reachable_partitioned (.fresh _ _) (.single hst)).1⟩

/-! ### Growing -/

/-- The page allocator is asked only when no page of the cache has a free object. -/
def AsksWhenFull (c : Cache) (t : System) : Prop :=
  ∀ g : Grant, g.Valid c t.st → (kmemCacheAlloc c t.st g).2.2 = true →
    t.st.cpu.freelist = 0 ∧ ∀ p ∈ t.st.slabs, (t.st.page p).freelist = 0

/-- **No freed object is lost** in a run in which each free goes to the cpu slab or to a page of the
partial list. -/
theorem reachable_asksWhenFull {t₀ t : System} (h0 : Start c t₀)
    (hrun : Relation.ReflTransGen (Step c (Keeps c)) t₀ t) : AsksWhenFull c t := by
  obtain ⟨L, cl, hinv, hF⟩ : Tidy c t :=
    Lib.Run.invariant (start_tidy h0) (fun _ _ h hst => step_tidy h hst) hrun
  intro g hg hasked
  obtain ⟨hserved, hcpu⟩ := kmemCacheAlloc_served hinv hg
  refine ⟨hcpu hasked, fun p hp => ?_⟩
  exact (FreeChain.zero_iff (hinv.core.chain p hp)).mpr (hserved.asked hasked hF p hp)

theorem reachable_asksWhenFull_twoObjects :
    AsksWhenFull twoObjects (perform twoObjects (perform twoObjects twoFresh
      (.alloc ⟨some 4096, none⟩)) (.free 4096)) := by
  have hst : Step twoObjects (Keeps twoObjects) twoFresh
      (perform twoObjects twoFresh (.alloc ⟨some 4096, none⟩)) :=
    ⟨.alloc ⟨some 4096, none⟩, valid_first (by decide), trivial, rfl⟩
  have hfree : Step twoObjects (Keeps twoObjects)
      (perform twoObjects twoFresh (.alloc ⟨some 4096, none⟩)) (perform twoObjects
        (perform twoObjects twoFresh (.alloc ⟨some 4096, none⟩)) (.free 4096)) := by
    refine ⟨.free 4096, show 4096 ∈ _ by decide, fun p hp => Or.inl ?_, rfl⟩
    have heq : virtToHeadPage (perform twoObjects twoFresh (.alloc ⟨some 4096, none⟩)).st 4096 =
      some 4096 := by decide
    rw [heq] at hp
    cases hp
    decide
  exact reachable_asksWhenFull (.fresh _ _) (.tail (.single hst) hfree)

/-- The first slab is used up, the second becomes the cpu slab, an object of the first is freed, and
the second is used up. -/
def lostObject : List Act :=
  [.alloc ⟨some 4096, none⟩, .alloc ⟨none, none⟩, .alloc ⟨some 8192, none⟩, .free 4096,
    .alloc ⟨none, none⟩]

def performAll (c : Cache) : List Act → System → System
  | [], t => t
  | act :: acts, t => performAll c acts (perform c t act)

theorem not_asksWhenFull_lostObject :
    ¬ ∀ (c : Cache) (t₀ t : System), Start c t₀ →
      Relation.ReflTransGen (Step c fun _ _ => True) t₀ t → AsksWhenFull c t := by
  intro hall
  have hnone : ∀ s : State, Grant.Valid twoObjects s ⟨none, none⟩ :=
    fun s => ⟨fun _ h => (by cases h), fun _ _ h => (by cases h)⟩
  have hrun : Relation.ReflTransGen (Step twoObjects fun _ _ => True) twoFresh
      (performAll twoObjects lostObject twoFresh) := by
    refine .head ⟨.alloc ⟨some 4096, none⟩, valid_first (by decide), trivial, rfl⟩ ?_
    refine .head ⟨.alloc ⟨none, none⟩, hnone _, trivial, rfl⟩ ?_
    refine .head ⟨.alloc ⟨some 8192, none⟩, valid_first (by decide), trivial, rfl⟩ ?_
    refine .head ⟨.free 4096, show 4096 ∈ _ by decide, trivial, rfl⟩ ?_
    refine .head ⟨.alloc ⟨none, none⟩, hnone _, trivial, rfl⟩ ?_
    exact .refl
  have hfull := hall twoObjects _ _ (.fresh _ _) hrun ⟨none, none⟩ (hnone _) (by decide)
  exact absurd (hfull.2 4096 (by decide)) (by decide)

end HardStack.Slub.Partition
