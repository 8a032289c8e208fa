import HardStack.Lib.Run
import HardStack.LcTrie.Delete

/-! # Runs of insertions and deletions

A call inserts a key that is not there or deletes a key. In every state reached the memory holds a
Patricia tree with the keys inserted and not deleted since. The deletion of the only key reads the word
in front of the trie; a run goes on from there only if this word is `NULL`. -/

namespace HardStack.LcTrie.Run

open HardStack.Lib.Patricia HardStack.LcTrie.Model HardStack.LcTrie.Layout HardStack.LcTrie.Lookup
open HardStack.LcTrie.Insert HardStack.LcTrie.Delete

variable {fuel t above key : ℕ}

/-- The memory, with the keys inserted and not deleted since. -/
structure System where
  st : State
  keys : Finset ℕ

inductive Call
  | insert (key new : ℕ) (c : Chunks)
  | delete (key : ℕ)

namespace Call

/-- A key has 32 bits and is inserted once. -/
def Allowed (σ : System) : Call → Prop
  | insert key _ c => key < 2 ^ 32 ∧ key ∉ σ.keys ∧ Fresh σ.st c
  | delete key => key < 2 ^ 32

def exec (fuel t : ℕ) (s : State) : Call → Except Fault State
  | insert key new c => leafInsert fuel t s c key new
  | delete key => leafDelete fuel t s key

end Call

/-- The keys after a call. -/
def keysAfter (K : Finset ℕ) : Call → Finset ℕ
  | .insert key _ _ => insert key K
  | .delete key => K.erase key

def Step (fuel t : ℕ) (call : Call) (σ τ : System) : Prop :=
  call.Allowed σ ∧ call.exec fuel t σ.st = .ok τ.st ∧ τ.keys = keysAfter σ.keys call

/-- After `b32t_trie_new`. -/
def initial (t above : ℕ) : System := ⟨trieNew t above, ∅⟩

/-- **The invariant.** -/
def Inv (t above : ℕ) (σ : System) : Prop := ∃ T, Stored t above σ.st T ∧ T.keys = σ.keys

theorem inv_initial (ht : t ≠ 0) : Inv t above (initial t above) := by
  refine ⟨.nil, ⟨ht, ?_, trivial, Multiset.nodup_singleton t, trivial, trivial⟩, rfl⟩
  refine ⟨⟨above, 0, B32T_KEYLENGTH, 0, [], fun _ => 0⟩, ?_, rfl, rfl, rfl, rfl, rfl⟩
  show Function.update (fun _ => (none : Option Node)) t _ t = _
  rw [Function.update_self]

/-- The call removes the last key. -/
def Call.Last (σ : System) (call : Call) : Prop := ∃ key, call = .delete key ∧ σ.keys = {key}

/-- **A call that does not remove the last key** keeps below the top. -/
theorem exec_spec {σ : System} {call : Call} (hfuel : 32 < fuel) (h : Inv t above σ)
    (hallowed : call.Allowed σ) (hlast : ¬ call.Last σ) : ∃ s', call.exec fuel t σ.st = .ok s' ∧
      s'.outside = σ.st.outside ∧ Inv t above ⟨s', keysAfter σ.keys call⟩ := by
  obtain ⟨T, hT, hkeys⟩ := h
  cases call with
  | insert key new c =>
    obtain ⟨hkey, hnew, hc⟩ := hallowed
    obtain ⟨s', T', hs', hout, hst, hT'⟩ :=
      leafInsert_spec hT hkey hfuel (by rw [hkeys]; exact hnew) hc new
    exact ⟨s', hs', hout, T', hst, by rw [hT', hkeys]; rfl⟩
  | delete key =>
    obtain ⟨habsent, hpresent, -⟩ := leafDelete_spec hT hallowed hfuel
    by_cases hmem : key ∈ T.keys
    · have hne : T.keys ≠ {key} := fun heq => hlast ⟨key, rfl, hkeys ▸ heq⟩
      obtain ⟨s', T', hs', hout, hst, hT'⟩ := hpresent hmem hne
      exact ⟨s', hs', hout, T', hst, by rw [hT', hkeys]; rfl⟩
    · refine ⟨σ.st, habsent hmem, rfl, T, hT, ?_⟩
      rw [hkeys] at hmem ⊢
      exact (Finset.erase_eq_of_notMem hmem).symm

/-- **The call that removes the last key** reads the word in front of the trie. -/
theorem exec_last {σ : System} {call : Call} (hfuel : 32 < fuel) (h : Inv t above σ)
    (hallowed : call.Allowed σ) (hlast : call.Last σ) :
    (∀ s', call.exec fuel t σ.st = .ok s' → s'.outside = true) ∧
      (above = 0 → ∃ s', call.exec fuel t σ.st = .ok s' ∧ Inv t above ⟨s', keysAfter σ.keys call⟩) := by
  obtain ⟨T, hT, hkeys⟩ := h
  obtain ⟨key, rfl, hkey⟩ := hlast
  obtain ⟨-, -, honly⟩ := leafDelete_spec hT hallowed hfuel
  obtain ⟨hout, hnull⟩ := honly (hkeys.trans hkey)
  refine ⟨hout, fun h0 => ?_⟩
  obtain ⟨s', hs', hst⟩ := hnull h0
  refine ⟨s', hs', .nil, hst, ?_⟩
  show ∅ = σ.keys.erase key
  rw [hkey, Finset.erase_singleton]

/-- **A step keeps the invariant**, unless it reads a word other than `NULL` in front of the trie. -/
theorem inv_step {σ τ : System} {call : Call} (hfuel : 32 < fuel) (h : Inv t above σ)
    (hst : Step fuel t call σ τ) (hnull : τ.st.outside = true → above = 0) : Inv t above τ := by
  obtain ⟨hallowed, hexec, hkeys⟩ := hst
  obtain ⟨s, K⟩ := τ
  dsimp only at hexec hkeys hnull
  subst hkeys
  by_cases hlast : call.Last σ
  · obtain ⟨hout, hrest⟩ := exec_last hfuel h hallowed hlast
    obtain ⟨s', hs', hinv⟩ := hrest (hnull (hout s hexec))
    obtain rfl : s = s' := Except.ok.inj (hexec.symm.trans hs')
    exact hinv
  · obtain ⟨s', hs', -, hinv⟩ := exec_spec hfuel h hallowed hlast
    obtain rfl : s = s' := Except.ok.inj (hexec.symm.trans hs')
    exact hinv

/-! ### Below the root -/

/-- The deletion of the key does not read the word in front of the trie. -/
def StaysInside (fuel t : ℕ) (s : State) (key : ℕ) : Prop :=
  ∃ s', leafDelete fuel t s key = .ok s' ∧ s'.outside = false

/-- **In every run** whose steps do not remove the last key the word in front of the trie is not read,
and the next deletion does not read it either exactly if its key is not the last one. -/
theorem staysInside_iff (ht : t ≠ 0) (hfuel : 32 < fuel) {σ : System}
    (hrun : Relation.ReflTransGen (fun σ τ => ∃ call, Step fuel t call σ τ ∧ ¬ call.Last σ)
      (initial t above) σ) :
    σ.st.outside = false ∧
      ∀ key < 2 ^ 32, StaysInside fuel t σ.st key ↔ σ.keys ≠ {key} := by
  obtain ⟨hinv, hout⟩ : Inv t above σ ∧ σ.st.outside = false := by
    refine Lib.Run.invariant (I := fun σ => Inv t above σ ∧ σ.st.outside = false)
      ⟨inv_initial ht, rfl⟩ ?_ hrun
    rintro σ ⟨s, K⟩ ⟨hinv, hout⟩ ⟨call, ⟨hallowed, hexec, hkeys⟩, hlast⟩
    obtain ⟨s', hs', hout', hinv'⟩ := exec_spec hfuel hinv hallowed hlast
    dsimp only at hexec hkeys
    obtain rfl : s = s' := Except.ok.inj (hexec.symm.trans hs')
    rw [hkeys]
    exact ⟨hinv', hout'.trans hout⟩
  refine ⟨hout, fun key hkey => ⟨?_, fun hne => ?_⟩⟩
  · rintro ⟨s', hs', hout'⟩ heq
    have hread := (@exec_last fuel t above σ (.delete key) hfuel hinv hkey ⟨key, rfl, heq⟩).1 s' hs'
    rw [hout'] at hread
    cases hread
  · have hlast : ¬ (Call.delete key).Last σ := by
      rintro ⟨k, hk, heq⟩
      cases hk
      exact hne heq
    obtain ⟨s', hs', hout', -⟩ := @exec_spec fuel t above σ (.delete key) hfuel hinv hkey hlast
    exact ⟨s', hs', hout'.trans hout⟩

/-- A trie at `1`, and memory for its first insertion. -/
def sample : Chunks := ⟨2, ⟨0, 0, 0, 0, [], fun _ => 0⟩, 3, ⟨0, 0, 0, 0, [], fun _ => 0⟩⟩

theorem sample_insert : ∃ s, leafInsert 33 1 (trieNew 1 0) sample 5 0 = .ok s ∧
    Step 33 1 (.insert 5 0 sample) (initial 1 0) ⟨s, {5}⟩ ∧ Inv 1 0 ⟨s, {5}⟩ := by
  have hfresh : Fresh (trieNew 1 0) sample := ⟨by decide, by decide, by decide, rfl, rfl⟩
  have hallowed : (Call.insert 5 0 sample).Allowed (initial 1 0) :=
    ⟨by decide, Finset.notMem_empty 5, hfresh⟩
  have hlast : ¬ (Call.insert 5 0 sample).Last (initial 1 0) := by
    rintro ⟨key, h, -⟩
    cases h
  obtain ⟨s, hs, -, hinv⟩ := @exec_spec 33 1 0 _ _ (by decide) (inv_initial (by decide)) hallowed hlast
  exact ⟨s, hs, ⟨hallowed, hs, rfl⟩, hinv⟩

theorem staysInside_iff_oneKey : ∃ s, leafInsert 33 1 (trieNew 1 0) sample 5 0 = .ok s ∧
    s.outside = false ∧ ∀ key < 2 ^ 32, StaysInside 33 1 s key ↔ ({5} : Finset ℕ) ≠ {key} := by
  obtain ⟨s, hs, hstep, -⟩ := sample_insert
  have hlast : ¬ (Call.insert 5 0 sample).Last (initial 1 0) := by
    rintro ⟨key, h, -⟩
    cases h
  exact ⟨s, hs, @staysInside_iff 33 1 0 (by decide) (by decide) ⟨s, {5}⟩ (.single ⟨_, hstep, hlast⟩)⟩

/-- The only key is inserted and deleted. -/
theorem not_staysInside_onlyKey : ∃ s, leafInsert 33 1 (trieNew 1 0) sample 5 0 = .ok s ∧
    ¬ StaysInside 33 1 s 5 := by
  obtain ⟨s, hs, -, hinv⟩ := sample_insert
  refine ⟨s, hs, ?_⟩
  rintro ⟨s', hs', hout⟩
  have h5 : 5 < 2 ^ 32 := by decide
  have hread := (@exec_last 33 1 0 ⟨s, {5}⟩ (.delete 5) (by decide) hinv h5
    ⟨5, rfl, rfl⟩).1 s' hs'
  rw [hout] at hread
  cases hread

/-! ### A key that is there -/

/-- The key is found. -/
def Found (fuel t : ℕ) (s : State) (key : ℕ) : Prop :=
  ∃ l v, findLeaf fuel t s key false = .ok (s, l) ∧ l ≠ 0 ∧ s.mem l = some v ∧ v.bits = 0 ∧ v.key = key

/-- The runs that do not read a word other than `NULL` in front of the trie. -/
def Reaches (fuel t above : ℕ) : System → System → Prop :=
  Relation.ReflTransGen fun σ τ => ∃ call, Step fuel t call σ τ ∧ (τ.st.outside = true → above = 0)

theorem inv_of_reaches (ht : t ≠ 0) (hfuel : 32 < fuel) {σ : System}
    (hrun : Reaches fuel t above (initial t above) σ) : Inv t above σ := by
  refine Lib.Run.invariant (inv_initial ht) ?_ hrun
  rintro σ τ hinv ⟨call, hst, hnull⟩
  exact inv_step hfuel hinv hst hnull

/-- The insertion is harmless. -/
def Harmless (fuel t above : ℕ) (s : State) (c : Chunks) (key new : ℕ) : Prop :=
  ∃ s' T', leafInsert fuel t s c key new = .ok s' ∧ Stored t above s' T' ∧
    ∀ k < 2 ^ 32, Found fuel t s' k ↔ Found fuel t s k

/-- **A key that is there** is never inserted harmlessly: the highest bit where it differs from itself
is asked for. -/
theorem leafInsert_present (ht : t ≠ 0) (hfuel : 32 < fuel) {σ : System}
    (hrun : Reaches fuel t above (initial t above) σ) (hkey : key ∈ σ.keys) {c : Chunks}
    (hc : Fresh σ.st c) (new : ℕ) : leafInsert fuel t σ.st c key new = .error .fls ∧
      ¬ Harmless fuel t above σ.st c key new := by
  obtain ⟨T, hT, hkeys⟩ := inv_of_reaches ht hfuel hrun
  rw [← hkeys] at hkey
  have hlt : key < 2 ^ 32 :=
    (Nat.div_eq_zero_iff.mp (hT.wf.div_eq key hkey)).resolve_left (by positivity)
  have herr := leafInsert_mem hT hlt hfuel hkey hc new
  refine ⟨herr, ?_⟩
  rintro ⟨s', T', hs', -⟩
  rw [herr] at hs'
  cases hs'

/-- Memory for the second insertion. -/
def sample' : Chunks := { sample with l := 4, tn := 6 }

theorem sample_fresh {s : State} (hs : leafInsert 33 1 (trieNew 1 0) sample 5 0 = .ok s) :
    Fresh s sample' := by
  obtain ⟨s', hs', h4, h6⟩ : ∃ s', leafInsert 33 1 (trieNew 1 0) sample 5 0 = .ok s' ∧
      s'.mem 4 = none ∧ s'.mem 6 = none := ⟨_, rfl, rfl, rfl⟩
  obtain rfl : s = s' := Except.ok.inj (hs.symm.trans hs')
  exact ⟨by decide, by decide, by decide, h4, h6⟩

theorem leafInsert_present_twice : ∃ s, leafInsert 33 1 (trieNew 1 0) sample 5 0 = .ok s ∧
    leafInsert 33 1 s sample' 5 0 = .error .fls ∧ ¬ Harmless 33 1 0 s sample' 5 0 := by
  obtain ⟨s, hs, hstep, -⟩ := sample_insert
  have hrun : Reaches 33 1 0 (initial 1 0) ⟨s, {5}⟩ := .single ⟨_, hstep, fun _ => rfl⟩
  exact ⟨s, hs, leafInsert_present (by decide) (by decide) hrun (Finset.mem_singleton_self 5)
    (sample_fresh hs) 0⟩

/-- A key is inserted twice. -/
theorem not_harmless_twice : ∃ s, leafInsert 33 1 (trieNew 1 0) sample 5 0 = .ok s ∧
    ¬ Harmless 33 1 0 s sample' 5 0 := by
  obtain ⟨s, hs, -, T, hT, hkeys⟩ := sample_insert
  refine ⟨s, hs, ?_⟩
  rintro ⟨s', T', hs', -⟩
  have hmem : 5 ∈ T.keys := by
    rw [hkeys]
    exact Finset.mem_singleton_self 5
  rw [leafInsert_mem hT (by decide) (by decide) hmem (sample_fresh hs) 0] at hs'
  cases hs'

/-! ### The finite map -/

/-- In every inner node the keys of a side have the bits of the node above its position and the bit of
the side there, and the positions become smaller downwards. -/
def Agrees : PTree ℕ → Prop
  | .node _ k pos l r => (∀ x ∈ l.keys, x / 2 ^ (pos + 1) = k / 2 ^ (pos + 1) ∧ x.testBit pos = false) ∧
      (∀ x ∈ r.keys, x / 2 ^ (pos + 1) = k / 2 ^ (pos + 1) ∧ x.testBit pos = true) ∧
      Below pos l ∧ Below pos r ∧ Agrees l ∧ Agrees r
  | _ => True
where
  /-- The topmost inner node tests a lower bit. -/
  Below (pos : ℕ) : PTree ℕ → Prop
    | .node _ _ pos' _ _ => pos' < pos
    | _ => True

theorem below_of_wf {C : PTree ℕ} {q d : ℕ} (h : C.Wf q d) : Agrees.Below d C := by
  cases C with
  | node p k pos l r => exact h.1
  | _ => trivial

/-- A number with the leading bits `2 * q + i` from bit `m` on. -/
theorem side_bits {x m q : ℕ} {i : Bool} (h : x / 2 ^ m = 2 * q + i.toNat) :
    x / 2 ^ (m + 1) = q ∧ x.testBit m = i := by
  have hx := div_two_pow_eq x m
  rw [h] at hx
  revert hx
  cases i <;> cases x.testBit m <;> simp <;> omega

theorem agrees_of_wf : ∀ {C : PTree ℕ} {q d : ℕ}, C.Wf q d → Agrees C
  | .nil, _, _, _ => trivial
  | .leaf _ _, _, _, _ => trivial
  | .node _ k pos l r, _, _, h => by
    obtain ⟨-, -, -, hl, hr⟩ := h
    exact ⟨fun x hx => side_bits (i := false) (hl.div_eq x hx),
      fun x hx => side_bits (i := true) (hr.div_eq x hx), below_of_wf hl, below_of_wf hr,
      agrees_of_wf hl, agrees_of_wf hr⟩

/-- **What the trie promises.** -/
structure IsMap (fuel t : ℕ) (σ : System) : Prop where
  found : ∀ key < 2 ^ 32, Found fuel t σ.st key ↔ key ∈ σ.keys
  absent : ∀ key < 2 ^ 32, key ∉ σ.keys → findLeaf fuel t σ.st key false = .ok (σ.st, 0)
  runs : ∀ call : Call, call.Allowed σ → ∃ s', call.exec fuel t σ.st = .ok s'
  shape : ∃ T, Stored t 0 σ.st T ∧ Agrees T

/-- **A finite map**, where the parent of the trie is `NULL`: a key is found iff it has been inserted
and not deleted since, and no call fails. -/
theorem isMap_of_run (ht : t ≠ 0) (hfuel : 32 < fuel) {σ : System}
    (hrun : Relation.ReflTransGen (fun σ τ => ∃ call, Step fuel t call σ τ) (initial t 0) σ) :
    IsMap fuel t σ := by
  have hinv : Inv t 0 σ := by
    refine Lib.Run.invariant (inv_initial ht) ?_ hrun
    rintro σ τ hinv ⟨call, hst⟩
    exact inv_step hfuel hinv hst fun _ => rfl
  obtain ⟨T, hT, hkeys⟩ := id hinv
  -- what the search returns
  have hfind : ∀ key < 2 ^ 32, (key ∈ σ.keys → Found fuel t σ.st key) ∧
      (key ∉ σ.keys → findLeaf fuel t σ.st key false = .ok (σ.st, 0)) := by
    intro key hkey
    obtain ⟨-, Z, C, ⟨rfl, hpre, hends⟩, hfind⟩ := find_spec hT hkey hfuel false
    obtain ⟨hwfZ, hwf⟩ := Ctx.wf_fill.mp hT.wf
    obtain ⟨-, hC⟩ := rep_fill.mp ⟨hT.root, hT.tree⟩
    unfold leafAt at hfind
    rw [if_neg fun h => Bool.false_ne_true h.1] at hfind
    rw [← hkeys, hwfZ.mem_fill hpre]
    constructor
    · intro hmem
      obtain rfl | hmiss | ⟨p, rfl⟩ := hends
      · exact absurd hmem (Finset.notMem_empty key)
      · exact absurd hmem (hmiss.notMem hwf)
      · obtain ⟨hp0, v, hv, -, hk, -, hbits⟩ := hC
        rw [hit, if_pos rfl] at hfind
        exact ⟨p, v, hfind, hp0, hv, hbits, hk⟩
    · intro hnot
      rw [hfind, not_not.mp (mt (hit_ne_zero hC hwf hends).mp hnot)]
  refine ⟨fun key hkey => ⟨?_, (hfind key hkey).1⟩, fun key hkey => (hfind key hkey).2, ?_,
    T, hT, agrees_of_wf hT.wf⟩
  · rintro ⟨l, v, hl, hl0, -⟩
    by_contra hnot
    have hpair := Except.ok.inj (hl.symm.trans ((hfind key hkey).2 hnot))
    exact hl0 (congrArg Prod.snd hpair)
  · intro call hallowed
    by_cases hlast : call.Last σ
    · obtain ⟨-, hnull⟩ := exec_last hfuel hinv hallowed hlast
      obtain ⟨s', hs', -⟩ := hnull rfl
      exact ⟨s', hs'⟩
    · obtain ⟨s', hs', -⟩ := exec_spec hfuel hinv hallowed hlast
      exact ⟨s', hs'⟩

theorem isMap_of_run_oneKey : ∃ s, leafInsert 33 1 (trieNew 1 0) sample 5 0 = .ok s ∧
    IsMap 33 1 ⟨s, {5}⟩ := by
  obtain ⟨s, hs, hstep, -⟩ := sample_insert
  exact ⟨s, hs, isMap_of_run (by decide) (by decide) (.single ⟨_, hstep⟩)⟩

end HardStack.LcTrie.Run
