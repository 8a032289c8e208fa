import Mathlib

/-! # Pagers that are shared by mappings

A driver maps pages of areas and evicts them to a store of its own, where it finds them again by a
pointer to the area and an address; pointers are used again after an area is unmapped. `Ledger` is
what the events alone say of every page. A driver that keeps the laws shows each mapping what the
ledger says, as long as no record and no entry of an unmapped area is used; so what a mapping sees
does not depend on the data stored through other mappings. -/

namespace HardStack.Lib.Pager

variable {M V A F C W σ R E : Type*}

/-! ### Events and the ledger -/

/-- What has become of a mapping; `v` is the pointer to its area. -/
inductive Area (V : Type*)
  | unborn
  | live (v : V)
  | gone

/-- What is known of a page: it has never been touched, it is in memory or it is out. -/
inductive Cell (C : Type*)
  | absent
  | mapped (c : C)
  | out (c : C)

/-- A fault comes with the frame that is allocated and what the frame holds. -/
inductive Event (M V A F C W : Type*)
  | map (m : M) (v : V)
  | unmap (m : M)
  | store (m : M) (a : A) (w : W)
  | fault (m : M) (a : A) (f : F) (c : C)
  | evict

/-- `dirty`: an area has been unmapped with a page in memory; `left`: the pages that were out when
their area was unmapped. -/
structure Ledger (M V A C : Type*) where
  area : M → Area V
  cell : V → A → Cell C
  dirty : Prop
  left : V → A → Prop

def Ledger.init : Ledger M V A C where
  area := fun _ => .unborn
  cell := fun _ _ => .absent
  dirty := False
  left := fun _ _ => False

def Cell.store (c : C → C) : Cell C → Cell C
  | .absent => .absent
  | .mapped x => .mapped (c x)
  | .out x => .out x

def Cell.fault (c : C) : Cell C → Cell C
  | .absent => .mapped c
  | .mapped x => .mapped x
  | .out x => .mapped x

def Cell.evict : Cell C → Cell C
  | .absent => .absent
  | .mapped x => .out x
  | .out x => .out x

/-- One page of the ledger changes. -/
def Ledger.change [DecidableEq V] [DecidableEq A] (l : Ledger M V A C) (v : V) (a : A)
    (g : Cell C → Cell C) : Ledger M V A C :=
  { l with cell := fun v' a' => if v' = v ∧ a' = a then g (l.cell v' a') else l.cell v' a' }

def Ledger.step [DecidableEq M] [DecidableEq V] [DecidableEq A] (write : W → C → C)
    (l : Ledger M V A C) : Event M V A F C W → Ledger M V A C
  | .map m v => { l with area := Function.update l.area m (.live v) }
  | .unmap m =>
    match l.area m with
    | .live v =>
      { area := Function.update l.area m .gone
        cell := fun v' a => if v' = v then .absent else l.cell v' a
        dirty := l.dirty ∨ ∃ a c, l.cell v a = .mapped c
        left := fun v' a => l.left v' a ∨ v' = v ∧ ∃ c, l.cell v a = .out c }
    | _ => l
  | .store m a w =>
    match l.area m with
    | .live v => l.change v a (Cell.store (write w))
    | _ => l
  | .fault m a _ c =>
    match l.area m with
    | .live v => l.change v a (Cell.fault c)
    | _ => l
  | .evict => { l with cell := fun v a => (l.cell v a).evict }

/-! ### Drivers -/

/-- What a driver does. Its records are of the pages in memory, its entries of the pages that are
out; `found` is the entry that a fault uses. -/
structure Driver (V A F C W σ R E : Type*) where
  Init : σ → Prop
  pte : σ → V → A → Option F
  mem : σ → F → C
  records : σ → List R
  recordOf : R → V × A
  frameOf : R → F
  entries : σ → List E
  entryOf : E → V × A
  found : σ → V → A → Option E
  write : W → C → C
  store : σ → F → W → σ
  fault : σ → V → A → F → C → σ
  evict : σ → σ → Prop
  unmap : σ → V → σ
  Ready : σ → Prop

/-- The driver, the ledger, and the records and entries of unmapped areas. -/
structure System (M V A C σ R E : Type*) where
  st : σ
  ledger : Ledger M V A C
  staleRecords : Set R
  staleEntries : Set E

/-- A frame that is allocated is neither mapped nor held by a record. -/
def Driver.Fresh (d : Driver V A F C W σ R E) (s : σ) (f : F) : Prop :=
  (∀ v a, d.pte s v a ≠ some f) ∧ ∀ r ∈ d.records s, d.frameOf r ≠ f

section Run

variable [DecidableEq M] [DecidableEq V] [DecidableEq A] (d : Driver V A F C W σ R E)

/-- The steps: a new mapping whose area is at a pointer that no area is at, a mapping that goes, and
a store, a fault or an eviction. -/
inductive Step : Event M V A F C W → System M V A C σ R E → System M V A C σ R E → Prop
  | map {s : σ} {l : Ledger M V A C} {sr : Set R} {se : Set E} {m : M} {v : V}
      (hm : l.area m = .unborn) (hv : ∀ k, l.area k ≠ .live v) :
      Step (.map m v) ⟨s, l, sr, se⟩ ⟨s, l.step d.write (F := F) (.map m v), sr, se⟩
  | unmap {s : σ} {l : Ledger M V A C} {sr : Set R} {se : Set E} {m : M} {v : V}
      (hm : l.area m = .live v) :
      Step (.unmap m) ⟨s, l, sr, se⟩ ⟨d.unmap s v, l.step d.write (F := F) (.unmap m),
        sr ∪ { r | r ∈ d.records s ∧ (d.recordOf r).1 = v },
        se ∪ { e | e ∈ d.entries s ∧ (d.entryOf e).1 = v }⟩
  | store {s : σ} {l : Ledger M V A C} {sr : Set R} {se : Set E} {m : M} {v : V} {a : A} {f : F}
      (w : W) (hm : l.area m = .live v) (hp : d.pte s v a = some f) :
      Step (.store m a w) ⟨s, l, sr, se⟩
        ⟨d.store s f w, l.step d.write (F := F) (.store m a w), sr, se⟩
  | fault {s : σ} {l : Ledger M V A C} {sr : Set R} {se : Set E} {m : M} {v : V} {a : A} {f : F}
      (c : C) (hm : l.area m = .live v) (hf : d.Fresh s f) :
      Step (.fault m a f c) ⟨s, l, sr, se⟩
        ⟨d.fault s v a f c, l.step d.write (.fault m a f c), sr, se⟩
  | evict {s s' : σ} {l : Ledger M V A C} {sr : Set R} {se : Set E} (hs : d.evict s s') :
      Step .evict ⟨s, l, sr, se⟩ ⟨s', l.step d.write (F := F) .evict, sr, se⟩

/-- Runs whose steps meet a condition; the latest event comes first. -/
inductive Run (P : System M V A C σ R E → Event M V A F C W → Prop) :
    List (Event M V A F C W) → System M V A C σ R E → Prop
  | init {s : σ} (hs : d.Init s) : Run P [] ⟨s, Ledger.init, ∅, ∅⟩
  | step {es : List (Event M V A F C W)} {ev : Event M V A F C W} {t t' : System M V A C σ R E}
      (hr : Run P es t) (hst : Step d ev t t') (hp : P t ev) : Run P (ev :: es) t'

/-- What a mapping sees at an address. -/
def seen (t : System M V A C σ R E) (m : M) (a : A) : Option C :=
  match t.ledger.area m with
  | .live v => (d.pte t.st v a).map (d.mem t.st)
  | _ => none

/-- The event uses a record or an entry of an unmapped area. -/
def Uses (t : System M V A C σ R E) : Event M V A F C W → Prop
  | .evict => ∃ r ∈ d.records t.st, r ∈ t.staleRecords
  | .fault m a _ _ => ∃ v, t.ledger.area m = .live v ∧ ∃ e, d.found t.st v a = some e ∧
      e ∈ t.staleEntries
  | _ => False

/-- No page is evicted once an area has been unmapped with a page in memory, and no page is touched
whose place was that of a page which was out when its area was unmapped. -/
def Clean (t : System M V A C σ R E) : Event M V A F C W → Prop
  | .evict => ¬ t.ledger.dirty
  | .fault m a _ _ => ∀ v, t.ledger.area m = .live v → ¬ t.ledger.left v a
  | _ => True

/-- Moreover the driver is ready for an eviction. -/
def Careful (t : System M V A C σ R E) (ev : Event M V A F C W) : Prop :=
  Clean t ev ∧ (ev = .evict → d.Ready t.st)

end Run

/-! ### Laws -/

/-- What an eviction saves. -/
def evicted (d : Driver V A F C W σ R E) (s : σ) (saved : V → A → Option C) : V → A → Option C :=
  fun v a => match d.pte s v a with
    | some f => some (d.mem s f)
    | none => saved v a

theorem evicted_some {d : Driver V A F C W σ R E} {s : σ} {v : V} {a : A} {f : F}
    (hp : d.pte s v a = some f) (saved : V → A → Option C) :
    evicted d s saved v a = some (d.mem s f) := by
  unfold evicted
  rw [hp]

theorem evicted_none {d : Driver V A F C W σ R E} {s : σ} {v : V} {a : A}
    (hp : d.pte s v a = none) (saved : V → A → Option C) : evicted d s saved v a = saved v a := by
  unfold evicted
  rw [hp]

/-- One page is not saved any more. -/
def restored [DecidableEq V] [DecidableEq A] (saved : V → A → Option C) (v : V) (a : A) :
    V → A → Option C :=
  fun v' a' => if v' = v ∧ a' = a then none else saved v' a'

/-- The laws of a driver. `Inv` is its invariant, up to the stale records; `saved` is what is stored
for the pages that are out. -/
structure Lawful [DecidableEq V] [DecidableEq A] (d : Driver V A F C W σ R E)
    (Inv : Set R → σ → (V → A → Option C) → Prop) : Prop where
  init : ∀ {s}, d.Init s → Inv ∅ s fun _ _ => none
  init_records : ∀ {s}, d.Init s → d.records s = []
  mapped : ∀ {sr s saved v a}, Inv sr s saved →
    (d.pte s v a ≠ none ↔ ∃ r ∈ d.records s, r ∉ sr ∧ d.recordOf r = (v, a))
  entries : ∀ {sr s saved v a}, Inv sr s saved →
    (saved v a ≠ none ↔ ∃ e ∈ d.entries s, d.entryOf e = (v, a))
  apart : ∀ {sr s saved v a}, Inv sr s saved → saved v a ≠ none → d.pte s v a = none
  found_some : ∀ {s v a e}, d.found s v a = some e →
    d.pte s v a = none ∧ e ∈ d.entries s ∧ d.entryOf e = (v, a)
  found_none : ∀ {s v a}, d.found s v a = none → d.pte s v a = none →
    ∀ e ∈ d.entries s, d.entryOf e ≠ (v, a)
  store_inv : ∀ {sr s saved} (f w), Inv sr s saved → Inv sr (d.store s f w) saved
  store_pte : ∀ s f w, d.pte (d.store s f w) = d.pte s
  store_mem : ∀ s f w, d.mem (d.store s f w) f = d.write w (d.mem s f)
  store_other : ∀ s f w g, g ≠ f → d.mem (d.store s f w) g = d.mem s g
  store_records : ∀ s f w, d.records (d.store s f w) = d.records s
  store_entries : ∀ s f w, d.entries (d.store s f w) = d.entries s
  fault_other : ∀ s v a f c g, g ≠ f → d.mem (d.fault s v a f c) g = d.mem s g
  touch_inv : ∀ {sr s saved v a} (f c), Inv sr s saved → d.pte s v a ≠ none →
    Inv sr (d.fault s v a f c) saved
  touch_pte : ∀ {s v a} (f c), d.pte s v a ≠ none → d.pte (d.fault s v a f c) = d.pte s
  touch_entries : ∀ {s v a} (f c), d.pte s v a ≠ none → d.entries (d.fault s v a f c) = d.entries s
  fault_inv : ∀ {sr s saved v a f} (c), Inv sr s saved → (∀ r ∈ sr, r ∈ d.records s) →
    d.Fresh s f → d.pte s v a = none → Inv sr (d.fault s v a f c) (restored saved v a)
  fault_pte : ∀ {s v a} (f c), d.pte s v a = none → d.pte (d.fault s v a f c) = fun v' a' =>
    if v' = v ∧ a' = a then some f else d.pte s v' a'
  fault_mem : ∀ {sr s saved v a} (f c), Inv sr s saved → d.pte s v a = none →
    d.mem (d.fault s v a f c) f = (saved v a).getD c
  fault_records : ∀ {s v a r} (f c), r ∈ d.records s → r ∈ d.records (d.fault s v a f c)
  fault_entries : ∀ {sr s saved v a e} (f c), Inv sr s saved → d.pte s v a = none →
    (e ∈ d.entries (d.fault s v a f c) ↔ e ∈ d.entries s ∧ d.entryOf e ≠ (v, a))
  evict_inv : ∀ {sr s s' saved}, Inv sr s saved → (∀ r ∈ d.records s, r ∉ sr) → d.evict s s' →
    d.Ready s → Inv sr s' (evicted d s saved)
  evict_pte : ∀ {sr s s' saved}, Inv sr s saved → (∀ r ∈ d.records s, r ∉ sr) → d.evict s s' →
    ∀ v a, d.pte s' v a = none
  evict_records : ∀ {s s'}, d.evict s s' → d.records s' = []
  evict_entries : ∀ {s s' e}, d.evict s s' → e ∈ d.entries s → e ∈ d.entries s'
  evict_new : ∀ {sr s s' saved e}, Inv sr s saved → (∀ r ∈ d.records s, r ∉ sr) → d.evict s s' →
    e ∈ d.entries s' → e ∈ d.entries s ∨ d.pte s (d.entryOf e).1 (d.entryOf e).2 ≠ none
  unmap_inv : ∀ {sr s saved} (v), Inv sr s saved →
    Inv (sr ∪ { r | r ∈ d.records s ∧ (d.recordOf r).1 = v }) (d.unmap s v) saved
  unmap_pte : ∀ s v, d.pte (d.unmap s v) = fun v' a => if v' = v then none else d.pte s v' a
  unmap_mem : ∀ s v, d.mem (d.unmap s v) = d.mem s
  unmap_records : ∀ s v, d.records (d.unmap s v) = d.records s
  unmap_entries : ∀ s v, d.entries (d.unmap s v) = d.entries s

open Classical in
/-- The records that are not stale. -/
noncomputable def live (sr : Set R) (records : List R) : List R := records.filter fun r => r ∉ sr

theorem mem_live {sr : Set R} {records : List R} {r : R} :
    r ∈ live sr records ↔ r ∈ records ∧ r ∉ sr := by
  simp only [live, List.mem_filter, decide_eq_true_eq]

theorem live_all {sr : Set R} {records : List R} (h : ∀ r ∈ records, r ∉ sr) :
    live sr records = records :=
  List.filter_eq_self.mpr fun r hr => by simpa only [decide_eq_true_eq] using h r hr

theorem live_cons {sr : Set R} {records : List R} {r : R} (h : r ∉ sr) :
    live sr (r :: records) = r :: live sr records :=
  List.filter_cons_of_pos (by simpa only [decide_eq_true_eq] using h)

theorem live_sublist {sr sr' : Set R} (h : sr ⊆ sr') (records : List R) :
    (live sr' records).Sublist (live sr records) := by
  refine List.monotone_filter_right _ fun r hr => ?_
  simp only [decide_eq_true_eq] at hr ⊢
  exact fun hsr => hr (h hsr)

/-- With no record, nothing is mapped and every frame is free. -/
theorem Lawful.pte_of_nil [DecidableEq V] [DecidableEq A] {d : Driver V A F C W σ R E}
    {Inv : Set R → σ → (V → A → Option C) → Prop} (hd : Lawful d Inv) {sr : Set R} {s : σ}
    {saved : V → A → Option C} (hi : Inv sr s saved) (hr : d.records s = []) (v : V) (a : A) :
    d.pte s v a = none := by
  by_contra hne
  obtain ⟨r, hr', -⟩ := (hd.mapped hi).mp hne
  rw [hr] at hr'
  exact absurd hr' List.not_mem_nil

theorem Lawful.fresh_of_nil [DecidableEq V] [DecidableEq A] {d : Driver V A F C W σ R E}
    {Inv : Set R → σ → (V → A → Option C) → Prop} (hd : Lawful d Inv) {sr : Set R} {s : σ}
    {saved : V → A → Option C} (hi : Inv sr s saved) (hr : d.records s = []) (f : F) :
    d.Fresh s f := by
  refine ⟨fun v a => ?_, ?_⟩
  · rw [hd.pte_of_nil hi hr]
    exact (Option.some_ne_none f).symm
  · rw [hr]
    exact fun r hr => absurd hr List.not_mem_nil

/-! ### What the driver shows is what the ledger says -/

/-- The driver against the ledger. -/
structure Sim (d : Driver V A F C W σ R E) (Inv : Set R → σ → (V → A → Option C) → Prop)
    (t : System M V A C σ R E) (saved : V → A → Option C) : Prop where
  inv : Inv t.staleRecords t.st saved
  areas : ∀ {m k v}, t.ledger.area m = .live v → t.ledger.area k = .live v → m = k
  mapped : ∀ {v a f}, d.pte t.st v a = some f → t.ledger.cell v a = .mapped (d.mem t.st f)
  unmapped : ∀ {v a c}, t.ledger.cell v a = .mapped c → d.pte t.st v a ≠ none
  frames : ∀ {v a v' a' f}, d.pte t.st v a = some f → d.pte t.st v' a' = some f → v' = v ∧ a' = a
  out : ∀ {v a c}, t.ledger.cell v a = .out c → saved v a = some c
  kept : ∀ {v a c}, saved v a = some c → t.ledger.cell v a = .out c ∨ t.ledger.left v a
  left : ∀ {v a}, t.ledger.left v a → t.ledger.cell v a = .absent ∧ saved v a ≠ none
  records : t.staleRecords ⊆ { r | r ∈ d.records t.st }
  dirty : t.ledger.dirty ↔ t.staleRecords.Nonempty
  entries : t.staleEntries ⊆ { e | e ∈ d.entries t.st }
  stale : ∀ {e}, e ∈ d.entries t.st →
    (e ∈ t.staleEntries ↔ t.ledger.left (d.entryOf e).1 (d.entryOf e).2)

section Sim

variable [DecidableEq M] [DecidableEq V] [DecidableEq A] {d : Driver V A F C W σ R E}
  {Inv : Set R → σ → (V → A → Option C) → Prop} {s s' : σ} {l : Ledger M V A C} {sr : Set R}
  {se : Set E} {saved : V → A → Option C} {m : M} {v : V} {a : A} {f : F}

theorem sim_map (h : Sim d Inv ⟨s, l, sr, se⟩ saved) (hv : ∀ k, l.area k ≠ .live v) :
    Sim d Inv ⟨s, l.step d.write (F := F) (.map m v), sr, se⟩ saved := by
  refine ⟨h.inv, fun {m' k v'} h1 h2 => ?_, h.mapped, h.unmapped, h.frames, h.out, h.kept, h.left,
    h.records, h.dirty, h.entries, h.stale⟩
  have hupd : ∀ x, Function.update l.area m (.live v) x = .live v' →
      x = m ∧ v' = v ∨ x ≠ m ∧ l.area x = .live v' := by
    intro x hx
    by_cases hxm : x = m
    · rw [hxm, Function.update_self] at hx
      exact Or.inl ⟨hxm, (Area.live.inj hx).symm⟩
    · rw [Function.update_of_ne hxm] at hx
      exact Or.inr ⟨hxm, hx⟩
  rcases hupd m' h1 with ⟨rfl, rfl⟩ | ⟨-, h1'⟩
  · rcases hupd k h2 with ⟨rfl, -⟩ | ⟨-, h2'⟩
    · rfl
    · exact absurd h2' (hv k)
  · rcases hupd k h2 with ⟨rfl, rfl⟩ | ⟨-, h2'⟩
    · exact absurd h1' (hv m')
    · exact h.areas h1' h2'

theorem sim_store (hd : Lawful d Inv) (h : Sim d Inv ⟨s, l, sr, se⟩ saved) (w : W)
    (hm : l.area m = .live v) (hp : d.pte s v a = some f) :
    Sim d Inv ⟨d.store s f w, l.step d.write (F := F) (.store m a w), sr, se⟩ saved := by
  have hl : l.step d.write (F := F) (.store m a w) = l.change v a (Cell.store (d.write w)) := by
    simp only [Ledger.step, hm]
  rw [hl]
  have hcell : ∀ v' a', ¬ (v' = v ∧ a' = a) →
      (l.change v a (Cell.store (d.write w))).cell v' a' = l.cell v' a' := fun v' a' hne => if_neg hne
  have hself : (l.change v a (Cell.store (d.write w))).cell v a = .mapped (d.write w (d.mem s f)) := by
    show (if v = v ∧ a = a then Cell.store (d.write w) (l.cell v a) else _) = _
    rw [if_pos ⟨rfl, rfl⟩, show l.cell v a = _ from h.mapped hp]
    rfl
  have hpte := hd.store_pte s f w
  refine ⟨hd.store_inv f w h.inv, h.areas, fun {v' a' f'} h1 => ?_, fun {v' a' c} h1 => ?_,
    fun {v₁ a₁ v₂ a₂ f'} h1 h2 => ?_, fun {v' a' c} h1 => ?_, fun {v' a' c} h1 => ?_,
    fun {v' a'} h1 => ?_, ?_, h.dirty, ?_, fun {e} he => ?_⟩
  · have hp' : d.pte s v' a' = some f' := hpte ▸ h1
    by_cases hva : v' = v ∧ a' = a
    · obtain ⟨rfl, rfl⟩ := hva
      obtain rfl := Option.some.inj (hp.symm.trans hp')
      show _ = Cell.mapped (d.mem (d.store s f w) f)
      rw [hd.store_mem, hself]
    · have hne : f' ≠ f := fun heq => hva (h.frames hp (heq ▸ hp'))
      show _ = Cell.mapped (d.mem (d.store s f w) f')
      rw [hd.store_other s f w f' hne, hcell v' a' hva]
      exact h.mapped hp'
  · show d.pte (d.store s f w) v' a' ≠ none
    rw [hpte]
    by_cases hva : v' = v ∧ a' = a
    · rw [hva.1, hva.2, hp]
      exact Option.some_ne_none _
    · exact h.unmapped ((hcell v' a' hva).symm.trans h1)
  · exact h.frames (hpte ▸ h1) (hpte ▸ h2)
  · by_cases hva : v' = v ∧ a' = a
    · obtain ⟨rfl, rfl⟩ := hva
      cases hself.symm.trans h1
    · exact h.out ((hcell v' a' hva).symm.trans h1)
  · by_cases hva : v' = v ∧ a' = a
    · obtain ⟨rfl, rfl⟩ := hva
      have := hd.apart h.inv (Option.ne_none_iff_exists'.mpr ⟨c, h1⟩)
      cases hp.symm.trans this
    · rw [show _ = _ from hcell v' a' hva]
      exact h.kept h1
  · have hleft := h.left h1
    refine ⟨?_, hleft.2⟩
    by_cases hva : v' = v ∧ a' = a
    · obtain ⟨rfl, rfl⟩ := hva
      cases (h.mapped hp).symm.trans hleft.1
    · exact (hcell v' a' hva).trans hleft.1
  · show sr ⊆ { r | r ∈ d.records (d.store s f w) }
    rw [hd.store_records]
    exact h.records
  · show se ⊆ { e | e ∈ d.entries (d.store s f w) }
    rw [hd.store_entries]
    exact h.entries
  · exact h.stale (hd.store_entries s f w ▸ he)

/-- A fault at a page that is mapped: only the frame that is not used changes. -/
theorem sim_touch (hd : Lawful d Inv) (h : Sim d Inv ⟨s, l, sr, se⟩ saved) (c : C)
    (hm : l.area m = .live v) (hf : d.Fresh s f) (hp : d.pte s v a ≠ none) :
    Sim d Inv ⟨d.fault s v a f c, l.step d.write (.fault m a f c), sr, se⟩ saved := by
  obtain ⟨g, hg⟩ := Option.ne_none_iff_exists'.mp hp
  have hl : l.step d.write (.fault m a f c) = l := by
    have hcell : ∀ v' a', (if v' = v ∧ a' = a then Cell.fault c (l.cell v' a') else l.cell v' a') =
        l.cell v' a' := by
      intro v' a'
      by_cases hva : v' = v ∧ a' = a
      · rw [if_pos hva, hva.1, hva.2, show l.cell v a = _ from h.mapped hg]
        rfl
      · exact if_neg hva
    simp only [Ledger.step, hm, Ledger.change, hcell]
  have hpte := hd.touch_pte f c hp
  rw [hl]
  refine ⟨hd.touch_inv f c h.inv hp, h.areas, fun {v' a' f'} h1 => ?_, fun {v' a' c'} h1 => ?_,
    fun {v₁ a₁ v₂ a₂ f'} h1 h2 => h.frames (hpte ▸ h1) (hpte ▸ h2), h.out, h.kept, h.left,
    fun r hr => hd.fault_records f c (h.records hr), h.dirty, ?_, fun {e} he => ?_⟩
  · have hp' : d.pte s v' a' = some f' := hpte ▸ h1
    have hne : f' ≠ f := fun heq => hf.1 v' a' (heq ▸ hp')
    show _ = Cell.mapped (d.mem (d.fault s v a f c) f')
    rw [hd.fault_other s v a f c f' hne]
    exact h.mapped hp'
  · show d.pte (d.fault s v a f c) v' a' ≠ none
    rw [hpte]
    exact h.unmapped h1
  · show se ⊆ { e | e ∈ d.entries (d.fault s v a f c) }
    rw [hd.touch_entries f c hp]
    exact h.entries
  · exact h.stale (hd.touch_entries f c hp ▸ he)

/-- A fault at a page that is not mapped, and that is not one that was left behind. -/
theorem sim_fault (hd : Lawful d Inv) (h : Sim d Inv ⟨s, l, sr, se⟩ saved) (c : C)
    (hm : l.area m = .live v) (hf : d.Fresh s f) (hp : d.pte s v a = none) (hleft : ¬ l.left v a) :
    Sim d Inv ⟨d.fault s v a f c, l.step d.write (.fault m a f c), sr, se⟩ (restored saved v a) := by
  have hl : l.step d.write (.fault m a f c) = l.change v a (Cell.fault c) := by
    simp only [Ledger.step, hm]
  rw [hl]
  have hcell : ∀ v' a', ¬ (v' = v ∧ a' = a) →
      (l.change v a (Cell.fault c)).cell v' a' = l.cell v' a' := fun v' a' hne => if_neg hne
  have hres : ∀ v' a', ¬ (v' = v ∧ a' = a) → restored saved v a v' a' = saved v' a' :=
    fun v' a' hne => if_neg hne
  have hgone : restored saved v a v a = none := if_pos ⟨rfl, rfl⟩
  -- the page holds what was saved of it, or else what the frame held
  have hself : (l.change v a (Cell.fault c)).cell v a = .mapped ((saved v a).getD c) := by
    show (if v = v ∧ a = a then Cell.fault c (l.cell v a) else _) = _
    rw [if_pos ⟨rfl, rfl⟩]
    cases hsv : saved v a with
    | some x =>
      rcases h.kept hsv with hout | hl
      · rw [show l.cell v a = _ from hout]
        rfl
      · exact absurd hl hleft
    | none =>
      cases hc : l.cell v a with
      | absent => rfl
      | mapped x => exact absurd hp (h.unmapped hc)
      | out x => cases hsv.symm.trans (h.out hc)
  have hpte : ∀ v' a', d.pte (d.fault s v a f c) v' a' =
      if v' = v ∧ a' = a then some f else d.pte s v' a' := fun v' a' => by
    rw [hd.fault_pte f c hp]
  refine ⟨hd.fault_inv c h.inv h.records hf hp, h.areas, fun {v' a' f'} h1 => ?_,
    fun {v' a' c'} h1 => ?_, fun {v₁ a₁ v₂ a₂ f'} h1 h2 => ?_, fun {v' a' c'} h1 => ?_,
    fun {v' a' c'} h1 => ?_, fun {v' a'} h1 => ?_, fun r hr => hd.fault_records f c (h.records hr),
    h.dirty, fun e he => ?_, fun {e} he => ?_⟩
  · have hp' := (hpte v' a').symm.trans h1
    by_cases hva : v' = v ∧ a' = a
    · obtain ⟨rfl, rfl⟩ := hva
      rw [if_pos ⟨rfl, rfl⟩] at hp'
      obtain rfl := Option.some.inj hp'
      show _ = Cell.mapped (d.mem (d.fault s _ _ f c) f)
      rw [hd.fault_mem f c h.inv hp, hself]
    · rw [if_neg hva] at hp'
      have hne : f' ≠ f := fun heq => hf.1 v' a' (heq ▸ hp')
      show _ = Cell.mapped (d.mem (d.fault s v a f c) f')
      rw [hd.fault_other s v a f c f' hne, hcell v' a' hva]
      exact h.mapped hp'
  · show d.pte (d.fault s v a f c) v' a' ≠ none
    rw [hpte]
    by_cases hva : v' = v ∧ a' = a
    · rw [if_pos hva]
      exact Option.some_ne_none _
    · rw [if_neg hva]
      exact h.unmapped ((hcell v' a' hva).symm.trans h1)
  · have h1' := (hpte v₁ a₁).symm.trans h1
    have h2' := (hpte v₂ a₂).symm.trans h2
    by_cases hva₁ : v₁ = v ∧ a₁ = a
    · by_cases hva₂ : v₂ = v ∧ a₂ = a
      · exact ⟨hva₂.1.trans hva₁.1.symm, hva₂.2.trans hva₁.2.symm⟩
      · rw [if_pos hva₁] at h1'
        rw [if_neg hva₂, ← h1'] at h2'
        exact absurd h2' (hf.1 v₂ a₂)
    · rw [if_neg hva₁] at h1'
      by_cases hva₂ : v₂ = v ∧ a₂ = a
      · rw [if_pos hva₂] at h2'
        exact absurd (h1'.trans h2'.symm) (hf.1 v₁ a₁)
      · rw [if_neg hva₂] at h2'
        exact h.frames h1' h2'
  · by_cases hva : v' = v ∧ a' = a
    · obtain ⟨rfl, rfl⟩ := hva
      cases hself.symm.trans h1
    · rw [hres v' a' hva]
      exact h.out ((hcell v' a' hva).symm.trans h1)
  · by_cases hva : v' = v ∧ a' = a
    · obtain ⟨rfl, rfl⟩ := hva
      cases hgone.symm.trans h1
    · rw [show _ = _ from hcell v' a' hva]
      exact h.kept ((hres v' a' hva).symm.trans h1)
  · have hva : ¬ (v' = v ∧ a' = a) := fun hva => hleft (hva.1 ▸ hva.2 ▸ h1)
    rw [hres v' a' hva, show _ = _ from hcell v' a' hva]
    exact h.left h1
  · refine (hd.fault_entries f c h.inv hp).mpr ⟨h.entries he, fun heq => hleft ?_⟩
    have := (h.stale (h.entries he)).mp he
    rwa [heq] at this
  · exact h.stale ((hd.fault_entries f c h.inv hp).mp he).1

theorem sim_evict (hd : Lawful d Inv) (h : Sim d Inv ⟨s, l, sr, se⟩ saved) (hs : d.evict s s')
    (hdirty : ¬ l.dirty) (hready : d.Ready s) :
    Sim d Inv ⟨s', l.step d.write (F := F) .evict, sr, se⟩ (evicted d s saved) := by
  have hempty : ∀ r, r ∉ sr := fun r hr => hdirty (h.dirty.mpr ⟨r, hr⟩)
  have hclean : ∀ r ∈ d.records s, r ∉ sr := fun r _ => hempty r
  have hpte := hd.evict_pte h.inv hclean hs
  have hcell : ∀ v a, (l.step d.write (F := F) .evict).cell v a = (l.cell v a).evict :=
    fun _ _ => rfl
  refine ⟨hd.evict_inv h.inv hclean hs hready, h.areas, fun {v a f} h1 => ?_, fun {v a c} h1 => ?_,
    fun {v₁ a₁ v₂ a₂ f} h1 _ => ?_, fun {v a c} h1 => ?_, fun {v a c} h1 => ?_, fun {v a} h1 => ?_,
    fun r hr => absurd hr (hempty r), h.dirty, fun e he => hd.evict_entries hs (h.entries he),
    fun {e} he => ?_⟩
  · cases (hpte v a).symm.trans h1
  · have h1 : (l.cell v a).evict = .mapped c := h1
    cases hc : l.cell v a <;> rw [hc] at h1 <;> cases h1
  · cases (hpte v₁ a₁).symm.trans h1
  · have h1 : (l.cell v a).evict = .out c := h1
    cases hp : d.pte s v a with
    | some f =>
      rw [show l.cell v a = _ from h.mapped hp] at h1
      exact (evicted_some hp saved).trans (congrArg some (Cell.out.inj h1))
    | none =>
      rw [evicted_none hp]
      cases hc : l.cell v a with
      | absent =>
        rw [hc] at h1
        cases h1
      | mapped x => exact absurd hp (h.unmapped hc)
      | out x =>
        rw [hc] at h1
        obtain rfl := Cell.out.inj h1
        exact h.out hc
  · show (l.cell v a).evict = .out c ∨ l.left v a
    cases hp : d.pte s v a with
    | some f =>
      rw [show l.cell v a = _ from h.mapped hp]
      rw [evicted_some hp] at h1
      exact Or.inl (congrArg Cell.out (Option.some.inj h1))
    | none =>
      rw [evicted_none hp] at h1
      rcases h.kept h1 with hout | hleft
      · rw [show l.cell v a = _ from hout]
        exact Or.inl rfl
      · exact Or.inr hleft
  · obtain ⟨hab, hsv⟩ := h.left h1
    refine ⟨?_, ?_⟩
    · show (l.cell v a).evict = .absent
      rw [show l.cell v a = _ from hab]
      rfl
    · rw [evicted_none (hd.apart h.inv hsv)]
      exact hsv
  · by_cases hold : e ∈ d.entries s
    · exact h.stale hold
    · refine iff_of_false (fun hse => hold (h.entries hse)) fun hleft => ?_
      rcases hd.evict_new h.inv hclean hs he with hin | hp
      · exact hold hin
      · exact hp (hd.apart h.inv (h.left hleft).2)

theorem sim_unmap (hd : Lawful d Inv) (h : Sim d Inv ⟨s, l, sr, se⟩ saved)
    (hm : l.area m = .live v) :
    Sim d Inv ⟨d.unmap s v, l.step d.write (F := F) (.unmap m),
      sr ∪ { r | r ∈ d.records s ∧ (d.recordOf r).1 = v },
      se ∪ { e | e ∈ d.entries s ∧ (d.entryOf e).1 = v }⟩ saved := by
  have hl : l.step d.write (F := F) (.unmap m) =
      { area := Function.update l.area m .gone
        cell := fun v' a => if v' = v then .absent else l.cell v' a
        dirty := l.dirty ∨ ∃ a c, l.cell v a = .mapped c
        left := fun v' a => l.left v' a ∨ v' = v ∧ ∃ c, l.cell v a = .out c } := by
    simp only [Ledger.step, hm]
  rw [hl]
  have hpte : ∀ v' a', d.pte (d.unmap s v) v' a' = if v' = v then none else d.pte s v' a' :=
    fun v' a' => by rw [hd.unmap_pte]
  have harea : ∀ {x v'}, Function.update l.area m .gone x = .live v' → l.area x = .live v' := by
    intro x v' hx
    by_cases hxm : x = m
    · rw [hxm, Function.update_self] at hx
      cases hx
    · rwa [Function.update_of_ne hxm] at hx
  have hsome : ∀ {v' a' f'}, d.pte (d.unmap s v) v' a' = some f' →
      v' ≠ v ∧ d.pte s v' a' = some f' := by
    intro v' a' f' hx
    rw [hpte] at hx
    by_cases hv : v' = v
    · rw [if_pos hv] at hx
      cases hx
    · rw [if_neg hv] at hx
      exact ⟨hv, hx⟩
  refine ⟨hd.unmap_inv v h.inv, fun h1 h2 => h.areas (harea h1) (harea h2),
    fun {v' a' f'} h1 => ?_, fun {v' a' c} h1 => ?_,
    fun h1 h2 => h.frames (hsome h1).2 (hsome h2).2, fun {v' a' c} h1 => ?_,
    fun {v' a' c} h1 => ?_, fun {v' a'} h1 => ?_, ?_, ?_, ?_, fun {e} he => ?_⟩
  · obtain ⟨hv, h1⟩ := hsome h1
    show (if v' = v then _ else l.cell v' a') = Cell.mapped (d.mem (d.unmap s v) f')
    rw [hd.unmap_mem, if_neg hv]
    exact h.mapped h1
  · have h1 : (if v' = v then Cell.absent else l.cell v' a') = .mapped c := h1
    show d.pte (d.unmap s v) v' a' ≠ none
    rw [hpte]
    by_cases hv : v' = v
    · rw [if_pos hv] at h1
      cases h1
    · rw [if_neg hv] at h1 ⊢
      exact h.unmapped h1
  · have h1 : (if v' = v then Cell.absent else l.cell v' a') = .out c := h1
    by_cases hv : v' = v
    · rw [if_pos hv] at h1
      cases h1
    · rw [if_neg hv] at h1
      exact h.out h1
  · show (if v' = v then Cell.absent else l.cell v' a') = .out c ∨
      l.left v' a' ∨ v' = v ∧ ∃ c, l.cell v a' = .out c
    rcases h.kept h1 with hout | hleft
    · by_cases hv : v' = v
      · exact Or.inr (Or.inr ⟨hv, c, hv ▸ hout⟩)
      · rw [if_neg hv]
        exact Or.inl hout
    · exact Or.inr (Or.inl hleft)
  · show (if v' = v then Cell.absent else l.cell v' a') = .absent ∧ saved v' a' ≠ none
    rcases h1 with hleft | ⟨rfl, c, hc⟩
    · obtain ⟨hab, hsv⟩ := h.left hleft
      refine ⟨?_, hsv⟩
      by_cases hv : v' = v
      · exact if_pos hv
      · rw [if_neg hv]
        exact hab
    · refine ⟨if_pos rfl, ?_⟩
      rw [h.out hc]
      exact Option.some_ne_none _
  · show _ ⊆ { r | r ∈ d.records (d.unmap s v) }
    rw [hd.unmap_records]
    exact Set.union_subset h.records fun r hr => hr.1
  · constructor
    · rintro (hdirty | ⟨a, c, hc⟩)
      · exact (h.dirty.mp hdirty).mono Set.subset_union_left
      · obtain ⟨r, hr, -, hra⟩ := (hd.mapped h.inv).mp (h.unmapped hc)
        exact ⟨r, Or.inr ⟨hr, by rw [hra]⟩⟩
    · rintro ⟨r, hr | ⟨hr, rfl⟩⟩
      · exact Or.inl (h.dirty.mpr ⟨r, hr⟩)
      · by_cases hsr : r ∈ sr
        · exact Or.inl (h.dirty.mpr ⟨r, hsr⟩)
        · have hp := (hd.mapped (v := (d.recordOf r).1) (a := (d.recordOf r).2) h.inv).mpr
            ⟨r, hr, hsr, rfl⟩
          obtain ⟨f, hf⟩ := Option.ne_none_iff_exists'.mp hp
          exact Or.inr ⟨_, _, h.mapped hf⟩
  · show _ ⊆ { e | e ∈ d.entries (d.unmap s v) }
    rw [hd.unmap_entries]
    exact Set.union_subset h.entries fun e he => he.1
  · have he : e ∈ d.entries s := hd.unmap_entries s v ▸ he
    show e ∈ se ∨ e ∈ d.entries s ∧ (d.entryOf e).1 = v ↔
      l.left (d.entryOf e).1 (d.entryOf e).2 ∨
        (d.entryOf e).1 = v ∧ ∃ c, l.cell v (d.entryOf e).2 = .out c
    rw [h.stale he]
    constructor
    · rintro (hleft | ⟨-, hv⟩)
      · exact Or.inl hleft
      · have hsv := (hd.entries (v := (d.entryOf e).1) (a := (d.entryOf e).2) h.inv).mpr
          ⟨e, he, rfl⟩
        obtain ⟨c, hc⟩ := Option.ne_none_iff_exists'.mp hsv
        rcases h.kept hc with hout | hleft
        · exact Or.inr ⟨hv, c, hv ▸ hout⟩
        · exact Or.inl hleft
    · rintro (hleft | ⟨hv, -⟩)
      · exact Or.inl hleft
      · exact Or.inr ⟨he, hv⟩

omit [DecidableEq M] in
theorem sim_init (hd : Lawful d Inv) (hs : d.Init s) :
    Sim d Inv (⟨s, Ledger.init, ∅, ∅⟩ : System M V A C σ R E) fun _ _ => none := by
  have hi := hd.init hs
  have hpte := hd.pte_of_nil hi (hd.init_records hs)
  refine ⟨hi, fun h => (by cases h), fun h => ?_, fun h => (by cases h), fun h => ?_,
    fun h => (by cases h), fun h => (by cases h), fun h => h.elim, Set.empty_subset _,
    iff_of_false id Set.not_nonempty_empty, Set.empty_subset _, fun {e} he => ?_⟩
  · cases (hpte _ _).symm.trans h
  · cases (hpte _ _).symm.trans h
  · exact absurd rfl ((hd.entries (v := (d.entryOf e).1) (a := (d.entryOf e).2) hi).mpr ⟨e, he, rfl⟩)

theorem sim_step (hd : Lawful d Inv) {ev : Event M V A F C W} {t t' : System M V A C σ R E}
    (h : Sim d Inv t saved) (hst : Step d ev t t') (hc : Careful d t ev) :
    ∃ saved', Sim d Inv t' saved' := by
  cases hst with
  | map hm hv => exact ⟨_, sim_map h hv⟩
  | unmap hm => exact ⟨_, sim_unmap hd h hm⟩
  | store w hm hp => exact ⟨_, sim_store hd h w hm hp⟩
  | @fault s l sr se m v a f c hm hf =>
    by_cases hp : d.pte s v a = none
    · exact ⟨_, sim_fault hd h c hm hf hp (hc.1 v hm)⟩
    · exact ⟨_, sim_touch hd h c hm hf hp⟩
  | evict hs => exact ⟨_, sim_evict hd h hs hc.1 (hc.2 rfl)⟩

/-- **The driver follows the ledger** along every careful run. -/
theorem Run.sim (hd : Lawful d Inv) {es : List (Event M V A F C W)} {t : System M V A C σ R E}
    (hr : Run d (Careful d) es t) : ∃ saved, Sim d Inv t saved := by
  induction hr with
  | init hs => exact ⟨_, sim_init hd hs⟩
  | step _ hst hc ih =>
    obtain ⟨saved, h⟩ := ih
    exact sim_step hd h hst hc

/-- What a page of the ledger shows. -/
def Cell.shown : Cell C → Option C
  | .mapped c => some c
  | _ => none

omit [DecidableEq M] [DecidableEq V] [DecidableEq A] in
theorem Sim.seen_eq {t : System M V A C σ R E} (h : Sim d Inv t saved)
    (hm : t.ledger.area m = .live v) (a : A) : seen d t m a = (t.ledger.cell v a).shown := by
  unfold seen
  simp only [hm]
  cases hp : d.pte t.st v a with
  | some f =>
    rw [h.mapped hp]
    rfl
  | none =>
    cases hc : t.ledger.cell v a with
    | absent => rfl
    | mapped c => exact absurd hp (h.unmapped hc)
    | out c => rfl

omit [DecidableEq M] in
/-- The clean events are those that use nothing of an unmapped area. -/
theorem Sim.uses_iff (hd : Lawful d Inv) {t : System M V A C σ R E} (h : Sim d Inv t saved)
    (ev : Event M V A F C W) : Uses d t ev ↔ ¬ Clean t ev := by
  cases ev with
  | evict =>
    show (∃ r ∈ d.records t.st, r ∈ t.staleRecords) ↔ ¬ ¬ t.ledger.dirty
    rw [not_not, h.dirty]
    constructor
    · rintro ⟨r, -, hr⟩
      exact ⟨r, hr⟩
    · rintro ⟨r, hr⟩
      exact ⟨r, h.records hr, hr⟩
  | fault m a f c =>
    show (∃ v, t.ledger.area m = .live v ∧ ∃ e, d.found t.st v a = some e ∧ e ∈ t.staleEntries) ↔
      ¬ ∀ v, t.ledger.area m = .live v → ¬ t.ledger.left v a
    push Not
    refine exists_congr fun v => and_congr_right fun hm => ?_
    constructor
    · rintro ⟨e, he, hse⟩
      obtain ⟨-, hin, hea⟩ := hd.found_some he
      have := (h.stale hin).mp hse
      rwa [hea] at this
    · intro hleft
      have hsv := (h.left hleft).2
      have hp := hd.apart h.inv hsv
      obtain ⟨e₀, he₀, hea₀⟩ := (hd.entries h.inv).mp hsv
      cases hf : d.found t.st v a with
      | none => exact absurd hea₀ (hd.found_none hf hp e₀ he₀)
      | some e =>
        obtain ⟨-, hin, hea⟩ := hd.found_some hf
        exact ⟨e, rfl, (h.stale hin).mpr (by rw [hea]; exact hleft)⟩
  | map m v => exact iff_of_false id (not_not_intro trivial)
  | unmap m => exact iff_of_false id (not_not_intro trivial)
  | store m a w => exact iff_of_false id (not_not_intro trivial)

end Sim

/-! ### Two runs -/

/-- Two events that differ at most in what is stored through another mapping than `m`. -/
inductive Agree (m : M) : Event M V A F C W → Event M V A F C W → Prop
  | same (ev : Event M V A F C W) : Agree m ev ev
  | store {k : M} (a : A) (w w' : W) (hk : k ≠ m) : Agree m (.store k a w) (.store k a w')

/-- The ledgers agree on the pages of `m`, and on the pages at pointers no area is at. -/
def SameFor (m : M) (l l' : Ledger M V A C) : Prop :=
  l.area = l'.area ∧ ∀ v a, (∀ k, l.area k = .live v → k = m) → l.cell v a = l'.cell v a

section Agree

variable [DecidableEq M] [DecidableEq V] [DecidableEq A] {m : M} {l l' : Ledger M V A C}

omit [DecidableEq M] in
/-- The same change of one page. -/
theorem SameFor.change (h : SameFor m l l') (v : V) (a : A) (g : Cell C → Cell C) :
    SameFor m (l.change v a g) (l'.change v a g) := by
  refine ⟨h.1, fun v' a' hk => ?_⟩
  show (if v' = v ∧ a' = a then g (l.cell v' a') else l.cell v' a') =
    if v' = v ∧ a' = a then g (l'.cell v' a') else l'.cell v' a'
  rw [h.2 v' a' hk]

omit [DecidableEq M] in
/-- A page of another mapping changes in two ways. -/
theorem SameFor.change_other (h : SameFor m l l') {k : M} {v : V} (hk : l.area k = .live v)
    (hne : k ≠ m) (a : A) (g g' : Cell C → Cell C) :
    SameFor m (l.change v a g) (l'.change v a g') := by
  refine ⟨h.1, fun v' a' hall => ?_⟩
  have hva : ¬ (v' = v ∧ a' = a) := fun hva => hne (hall k (hva.1 ▸ hk))
  show (if v' = v ∧ a' = a then g (l.cell v' a') else l.cell v' a') =
    if v' = v ∧ a' = a then g' (l'.cell v' a') else l'.cell v' a'
  rw [if_neg hva, if_neg hva, h.2 v' a' hall]

theorem SameFor.map (h : SameFor m l l') (write : W → C → C) {k : M} (v : V)
    (hk : l.area k = .unborn) :
    SameFor m (l.step (F := F) write (.map k v)) (l'.step (F := F) write (.map k v)) := by
  refine ⟨congrArg (Function.update · k _) h.1, fun v' a hall => h.2 v' a fun x hx => hall x ?_⟩
  have hne : x ≠ k := by
    rintro rfl
    cases hk.symm.trans hx
  exact (Function.update_of_ne hne _ _).trans hx

theorem SameFor.unmap (h : SameFor m l l') (write : W → C → C) {k : M} {v : V}
    (hk : l.area k = .live v) :
    SameFor m (l.step (F := F) write (.unmap k)) (l'.step (F := F) write (.unmap k)) := by
  have hk' : l'.area k = .live v := h.1 ▸ hk
  simp only [Ledger.step, hk, hk']
  refine ⟨congrArg (Function.update · k _) h.1, fun v' a hall => ?_⟩
  show (if v' = v then Cell.absent else l.cell v' a) = if v' = v then Cell.absent else l'.cell v' a
  by_cases hv : v' = v
  · rw [if_pos hv, if_pos hv]
  · rw [if_neg hv, if_neg hv]
    refine h.2 v' a fun x hx => hall x ?_
    have hne : x ≠ k := by
      rintro rfl
      exact hv (Area.live.inj (hx.symm.trans hk))
    exact (Function.update_of_ne hne _ _).trans hx

/-- **The same step**, up to the data of another mapping. -/
theorem SameFor.step {d : Driver V A F C W σ R E} {ev ev' : Event M V A F C W}
    {t t₁ u u₁ : System M V A C σ R E} (h : SameFor m t.ledger u.ledger) (hA : Agree m ev ev')
    (hst : Step d ev t t₁) (hsu : Step d ev' u u₁) : SameFor m t₁.ledger u₁.ledger := by
  obtain ⟨su, lu, sru, seu⟩ := u
  cases hst with
  | map hm hv =>
    cases hA
    cases hsu
    exact h.map (F := F) d.write _ hm
  | unmap hm =>
    cases hA
    cases hsu
    exact h.unmap (F := F) d.write hm
  | @store s l sr se k v a f w hm hp =>
    have hm' : lu.area k = .live v := h.1 ▸ hm
    cases hA with
    | same =>
      cases hsu with
      | store _ hu =>
        simp only [Ledger.step, hm, hm']
        exact h.change v a _
    | store a w w' hk =>
      cases hsu with
      | store _ hu =>
        simp only [Ledger.step, hm, hm']
        exact h.change_other hm hk a _ _
  | @fault s l sr se k v a f c hm hf =>
    have hm' : lu.area k = .live v := h.1 ▸ hm
    cases hA
    cases hsu
    simp only [Ledger.step, hm, hm']
    exact h.change v a _
  | evict hs =>
    cases hA
    cases hsu
    exact ⟨h.1, fun v a hall => congrArg Cell.evict (h.2 v a hall)⟩

theorem Run.sameFor {d : Driver V A F C W σ R E} {P : System M V A C σ R E → Event M V A F C W → Prop}
    {es es' : List (Event M V A F C W)} {t u : System M V A C σ R E} (ht : Run d P es t)
    (hu : Run d P es' u) (hA : List.Forall₂ (Agree m) es es') : SameFor m t.ledger u.ledger := by
  induction ht generalizing es' u with
  | init hs =>
    cases hA
    cases hu
    exact ⟨rfl, fun _ _ _ => rfl⟩
  | step hr hst hp ih =>
    cases hA with
    | cons hev hes =>
      cases hu with
      | step hru hsu hpu => exact (ih hru hes).step hev hst hsu

/-- Nothing leaks: two runs that differ in what other mappings store show `m` the same, and no step
uses a record or an entry of an unmapped area. -/
def NoLeak (M : Type*) [DecidableEq M] (d : Driver V A F C W σ R E)
    (P : System M V A C σ R E → Event M V A F C W → Prop) : Prop :=
  (∀ (m : M) es es' t u, Run d P es t → Run d P es' u → List.Forall₂ (Agree m) es es' →
    ∀ a, seen d t m a = seen d u m a) ∧
  ∀ es t ev t', Run d P es t → Step d ev t t' → P t ev → ¬ Uses d t ev

/-- In careful runs the events that use something of an unmapped area are those that are not clean. -/
def UsesUnclean (M : Type*) [DecidableEq M] (d : Driver V A F C W σ R E) : Prop :=
  ∀ es (t : System M V A C σ R E), Run d (Careful d) es t → ∀ ev, Uses d t ev ↔ ¬ Clean t ev

theorem Lawful.usesUnclean {d : Driver V A F C W σ R E}
    {Inv : Set R → σ → (V → A → Option C) → Prop} (hd : Lawful d Inv) : UsesUnclean M d := by
  intro es t ht ev
  obtain ⟨_, hst⟩ := ht.sim hd
  exact hst.uses_iff hd ev

/-- **Careful runs do not leak.** -/
theorem Lawful.noLeak {d : Driver V A F C W σ R E}
    {Inv : Set R → σ → (V → A → Option C) → Prop} (hd : Lawful d Inv) :
    NoLeak M d (Careful d) := by
  refine ⟨fun m es es' t u ht hu hA a => ?_, fun es t ev t' ht _ hc huse => ?_⟩
  · have hsame := ht.sameFor hu hA
    obtain ⟨_, hst⟩ := ht.sim hd
    obtain ⟨_, hsu⟩ := hu.sim hd
    cases hm : t.ledger.area m with
    | live v =>
      rw [hst.seen_eq hm, hsu.seen_eq (hsame.1 ▸ hm),
        hsame.2 v a fun k hk => hst.areas hk hm]
    | unborn =>
      have hm' : u.ledger.area m = .unborn := hsame.1 ▸ hm
      simp only [seen, hm, hm']
    | gone =>
      have hm' : u.ledger.area m = .gone := hsame.1 ▸ hm
      simp only [seen, hm, hm']
  · obtain ⟨_, hst⟩ := ht.sim hd
    exact (hst.uses_iff hd ev).mp huse hc.1

/-! ### A leak -/

theorem Run.any {d : Driver V A F C W σ R E} {P : System M V A C σ R E → Event M V A F C W → Prop}
    {es : List (Event M V A F C W)} {t : System M V A C σ R E} (h : Run d P es t) :
    Run d (fun _ _ => True) es t := by
  induction h with
  | init hs => exact .init hs
  | step _ hst _ ih => exact ih.step hst trivial

theorem Ledger.area_fault (l : Ledger M V A C) (write : W → C → C) (a : A) (f : F) (c : C) :
    (l.step write (.fault m a f c)).area = l.area := by
  cases hm : l.area m <;> simp only [Ledger.step, hm, Ledger.change]

/-- What was out when its area was unmapped is seen through a new mapping at the same pointer. -/
theorem Lawful.leaks {d : Driver V A F C W σ R E} {Inv : Set R → σ → (V → A → Option C) → Prop}
    (hd : Lawful d Inv) {es : List (Event M V A F C W)} {t : System M V A C σ R E}
    (hr : Run d (Careful d) es t) {k : M} {v : V} {a : A} {x c : C} {f : F}
    (hm : t.ledger.area m = .live v) (hx : t.ledger.cell v a = .out x)
    (hk : t.ledger.area k = .unborn) (hf : d.Fresh t.st f) :
    ∃ u, Run d (fun _ _ => True) (.fault k a f c :: .map k v :: .unmap m :: es) u ∧
      seen d u k a = some x := by
  obtain ⟨saved, h⟩ := hr.sim hd
  obtain ⟨s, l, sr, se⟩ := t
  have hu := sim_unmap hd h hm
  have hl : l.step d.write (F := F) (.unmap m) =
      { area := Function.update l.area m .gone
        cell := fun v' a => if v' = v then .absent else l.cell v' a
        dirty := l.dirty ∨ ∃ a c, l.cell v a = .mapped c
        left := fun v' a => l.left v' a ∨ v' = v ∧ ∃ c, l.cell v a = .out c } := by
    simp only [Ledger.step, show l.area m = _ from hm]
  have hkm : k ≠ m := by
    rintro rfl
    cases hk.symm.trans hm
  have hk' : (l.step d.write (F := F) (.unmap m)).area k = .unborn := by
    rw [hl]
    exact (Function.update_of_ne hkm _ _).trans hk
  have hfree : ∀ x, (l.step d.write (F := F) (.unmap m)).area x ≠ .live v := by
    intro x hlive
    rw [hl] at hlive
    by_cases hxm : x = m
    · rw [hxm] at hlive
      cases (Function.update_self _ _ _).symm.trans hlive
    · exact hxm (h.areas ((Function.update_of_ne hxm _ _).symm.trans hlive) hm)
  have hpte : d.pte (d.unmap s v) v a = none := by
    rw [hd.unmap_pte]
    exact if_pos rfl
  have hfresh : d.Fresh (d.unmap s v) f := by
    refine ⟨fun v' a' => ?_, ?_⟩
    · rw [hd.unmap_pte]
      show (if v' = v then none else d.pte s v' a') ≠ some f
      by_cases hv : v' = v
      · rw [if_pos hv]
        exact (Option.some_ne_none f).symm
      · rw [if_neg hv]
        exact hf.1 v' a'
    · rw [hd.unmap_records]
      exact hf.2
  have hlive : ((l.step d.write (F := F) (.unmap m)).step d.write (F := F) (.map k v)).area k =
      .live v := Function.update_self _ _ _
  refine ⟨_, ((hr.any.step (.unmap hm) trivial).step (.map hk' hfree) trivial).step
    (.fault c hlive hfresh) trivial, ?_⟩
  have harea : (((l.step d.write (F := F) (.unmap m)).step d.write (F := F) (.map k v)).step d.write
      (.fault k a f c)).area k = .live v := by
    rw [Ledger.area_fault]
    exact hlive
  unfold seen
  simp only [harea, hd.fault_pte f c hpte, and_self, if_true, Option.map_some]
  rw [hd.fault_mem f c hu.inv hpte, h.out hx]
  rfl

/-- A driver that evicts a page is not without leaks: a page of a mapping is stored to, evicted and
left behind, and shows through a second mapping. -/
theorem Lawful.not_noLeak {d : Driver V A F C W σ R E}
    {Inv : Set R → σ → (V → A → Option C) → Prop} (hd : Lawful d Inv) {s : σ} (hs : d.Init s) (v : V)
    (a : A) (f : F) (c : C)
    (hev : ∀ w, ∃ s', d.evict (d.store (d.fault s v a f c) f w) s' ∧
      d.Ready (d.store (d.fault s v a f c) f w)) {w w' : W} (hne : d.write w c ≠ d.write w' c) :
    ¬ NoLeak ℕ d fun _ _ => True := by
  rintro ⟨hseen, -⟩
  have hrun : ∀ w, ∃ u, Run d (fun _ _ => True) [.fault 1 a f c, .map 1 v, .unmap 0, .evict,
      .store 0 a w, .fault 0 a f c, .map 0 v] u ∧ seen d u (1 : ℕ) a = some (d.write w c) := by
    intro w
    obtain ⟨s', hs', hready⟩ := hev w
    have hi := hd.init hs
    have hpte := hd.pte_of_nil hi (hd.init_records hs)
    have hfresh := hd.fresh_of_nil hi (hd.init_records hs) f
    have hp : d.pte (d.fault s v a f c) v a = some f := by
      rw [hd.fault_pte f c (hpte v a)]
      exact if_pos ⟨rfl, rfl⟩
    -- the ledger on the way: the page is mapped, holds `w`, and goes out
    have h1 : ((Ledger.init : Ledger ℕ V A C).step d.write (F := F) (.map 0 v)).area 0 =
      .live v := rfl
    have h2 : (((Ledger.init : Ledger ℕ V A C).step d.write (F := F) (.map 0 v)).step d.write
      (.fault 0 a f c)).area 0 = .live v := by
      rw [Ledger.area_fault]
      rfl
    have hr := ((((Run.init (P := Careful d) hs).step (.map rfl fun k hk => (by cases hk))
      ⟨trivial, fun h => (by cases h)⟩).step (.fault c h1 hfresh)
      ⟨fun _ _ => id, fun h => (by cases h)⟩).step (.store w h2 hp)
      ⟨trivial, fun h => (by cases h)⟩).step (.evict hs') ⟨id, fun _ => hready⟩
    obtain ⟨_, h⟩ := hr.sim hd
    refine hd.leaks hr ?_ ?_ ?_ (hd.fresh_of_nil h.inv (hd.evict_records hs') f)
    · simp [Ledger.step, Ledger.init, Ledger.change]
    · simp [Ledger.step, Ledger.init, Ledger.change, Cell.fault, Cell.store, Cell.evict]
    · simp [Ledger.step, Ledger.init, Ledger.change]
  obtain ⟨u, hu, hsu⟩ := hrun w
  obtain ⟨u', hu', hsu'⟩ := hrun w'
  have hA : List.Forall₂ (Agree 1) [.fault 1 a f c, .map 1 v, .unmap 0, .evict,
      .store 0 a w, .fault 0 a f c, .map 0 v] [.fault 1 a f c, .map 1 v, .unmap 0, .evict,
      .store 0 a w', .fault 0 a f c, (.map 0 v : Event ℕ V A F C W)] :=
    .cons (.same _) (.cons (.same _) (.cons (.same _) (.cons (.same _)
      (.cons (.store a w w' (by decide)) (.cons (.same _) (.cons (.same _) .nil))))))
  have := hseen 1 _ _ u u' hu hu' hA a
  rw [hsu, hsu'] at this
  exact hne (Option.some.inj this)

end Agree

end HardStack.Lib.Pager
