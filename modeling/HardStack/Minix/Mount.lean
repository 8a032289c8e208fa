import HardStack.Minix.Model

/-! # What a mount holds

`Account` says what a state of the kernel holds more than the one before the mount: references to
buffers, allocations and inodes. Every service changes it by what it gives or takes, the labels of the
ladder give back what has been taken before the jump. -/

namespace HardStack.Minix.Mount

open HardStack.Minix.Model

variable {k₀ k : Kernel} {sbi : MinixSbInfo} {extra base : ℕ → ℕ} {bh n pos j r ino sbis maps inodes : ℕ}
  {map : List (Option ℕ)} {ret : ℤ}

/-- What is held since `k₀`. -/
structure Account (k₀ k : Kernel) (extra : ℕ → ℕ) (sbis maps inodes : ℕ) : Prop where
  refs : ∀ b, k.refs b = k₀.refs b + extra b
  sbis : k.sbis = k₀.sbis + sbis
  maps : k.maps = k₀.maps + maps
  inodes : k.inodes = k₀.inodes + inodes

theorem Account.next (h : Account k₀ k extra sbis maps inodes) :
    Account k₀ k.next extra sbis maps inodes := ⟨h.refs, h.sbis, h.maps, h.inodes⟩

theorem Account.congr {extra' : ℕ → ℕ} (h : Account k₀ k extra sbis maps inodes)
    (heq : ∀ b, extra b = extra' b) : Account k₀ k extra' sbis maps inodes :=
  ⟨fun b => (h.refs b).trans (by rw [heq b]), h.sbis, h.maps, h.inodes⟩

/-- One buffer more. -/
def plus (extra : ℕ → ℕ) (bh : ℕ) : ℕ → ℕ := fun b => extra b + if b = bh then 1 else 0

/-! ### The services -/

/-- Two states that differ in the references and the calls at most. -/
structure Same (k k' : Kernel) : Prop where
  disk : k'.disk = k.disk
  fails : k'.fails = k.fails
  sbis : k'.sbis = k.sbis
  maps : k'.maps = k.maps
  inodes : k'.inodes = k.inodes
  info : k'.s_fs_info = k.s_fs_info
  cache : k'.cache = k.cache

theorem Same.refl (k : Kernel) : Same k k := ⟨rfl, rfl, rfl, rfl, rfl, rfl, rfl⟩

theorem Same.trans {k₁ k₂ k₃ : Kernel} (h : Same k₁ k₂) (h' : Same k₂ k₃) : Same k₁ k₃ :=
  ⟨h'.disk.trans h.disk, h'.fails.trans h.fails, h'.sbis.trans h.sbis, h'.maps.trans h.maps,
    h'.inodes.trans h.inodes, h'.info.trans h.info, h'.cache.trans h.cache⟩

theorem Account.of_same {k' : Kernel} {extra' : ℕ → ℕ} (h : Account k₀ k extra sbis maps inodes)
    (hsame : Same k k') (hrefs : ∀ b, k'.refs b = k₀.refs b + extra' b) :
    Account k₀ k' extra' sbis maps inodes :=
  ⟨hrefs, hsame.sbis.trans h.sbis, hsame.maps.trans h.maps, hsame.inodes.trans h.inodes⟩

/-- A block is read, or not. -/
theorem sbBread_cases (k : Kernel) (block : ℕ) :
    (sbBread k block = (none, k.next)) ∨ ∃ k', sbBread k block = (some block, k') ∧ Same k k' ∧
      ∀ b, k'.refs b = plus k.refs block b := by
  unfold sbBread
  by_cases hfail : k.fails k.calls = true
  · rw [if_pos hfail]
    exact Or.inl rfl
  · rw [if_neg hfail]
    refine Or.inr ⟨_, rfl, ⟨rfl, rfl, rfl, rfl, rfl, rfl, rfl⟩, fun b => ?_⟩
    show Function.update k.refs block (k.refs block + 1) b = _
    unfold plus
    by_cases hb : b = block
    · rw [hb, Function.update_self, if_pos rfl]
    · rw [Function.update_of_ne hb, if_neg hb, Nat.add_zero]

theorem brelse_spec (hrefs : ∀ b, k.refs b = plus base bh b) : ∃ k', brelse k (some bh) = some k' ∧
    Same k k' ∧ ∀ b, k'.refs b = base b := by
  have hbh : k.refs bh = base bh + 1 := by
    rw [hrefs]
    unfold plus
    rw [if_pos rfl]
  unfold brelse
  dsimp only
  rw [if_neg (by omega)]
  refine ⟨_, rfl, ⟨rfl, rfl, rfl, rfl, rfl, rfl, rfl⟩, fun b => ?_⟩
  show Function.update k.refs bh (k.refs bh - 1) b = _
  by_cases hb : b = bh
  · rw [hb, Function.update_self]
    omega
  · rw [Function.update_of_ne hb, hrefs]
    unfold plus
    rw [if_neg hb, Nat.add_zero]

/-! ### The loops -/

/-- A map of which the first `j` blocks have been read. -/
def filled (j r : ℕ) : List (Option ℕ) := (List.range' 2 j).map some ++ List.replicate r none

theorem length_filled (j r : ℕ) : (filled j r).length = j + r := by
  unfold filled
  rw [List.length_append, List.length_map, List.length_range', List.length_replicate]

theorem set_filled (j r : ℕ) : (filled j (r + 1)).set j (some (2 + j)) = filled (j + 1) r := by
  unfold filled
  rw [List.set_append_right _ _ (by rw [List.length_map, List.length_range']), List.length_map,
    List.length_range', Nat.sub_self, List.replicate_succ, List.set_cons_zero, List.range'_1_concat,
    List.map_append, List.append_assoc]
  rfl

theorem set_filled_none (j r : ℕ) : (filled j (r + 1)).set j none = filled j (r + 1) := by
  unfold filled
  rw [List.set_append_right _ _ (by rw [List.length_map, List.length_range']), List.length_map,
    List.length_range', Nat.sub_self, List.replicate_succ, List.set_cons_zero]

/-- What a map holds of a block. -/
def heldBy (map : List (Option ℕ)) (b : ℕ) : ℕ := map.count (some b)

theorem heldBy_filled (j r b : ℕ) : heldBy (filled j r) b = (List.range' 2 j).count b := by
  unfold heldBy filled
  rw [List.count_append, List.count_replicate, if_neg (by simp), Nat.add_zero,
    List.count_map_of_injective _ _ (Option.some_injective ℕ)]

theorem heldBy_filled_succ (j r r' b : ℕ) :
    heldBy (filled (j + 1) r) b = plus (heldBy (filled j r')) (2 + j) b := by
  unfold plus
  rw [heldBy_filled, heldBy_filled, List.range'_1_concat, List.count_append, List.count_singleton]
  congr 1
  by_cases hb : b = 2 + j
  · rw [if_pos hb, hb, if_pos (beq_self_eq_true _)]
  · rw [if_neg hb, if_neg (by simpa using fun h => hb h.symm)]

/-- **The read loops** fill the map as far as the blocks can be read. -/
theorem readLoop_spec : ∀ (n j r : ℕ) {k : Kernel}, n ≤ r →
    (∀ b, k.refs b = base b + heldBy (filled j r) b) → ∃ i k', i ≤ n ∧
      readLoop n j (2 + j) (filled j r) k = (decide (i = n), filled (j + i) (r - i), k') ∧ Same k k' ∧
      ∀ b, k'.refs b = base b + heldBy (filled (j + i) (r - i)) b
  | 0, j, r, k, _, hrefs => ⟨0, k, le_rfl, rfl, Same.refl k, hrefs⟩
  | n + 1, j, r, k, hr, hrefs => by
    obtain ⟨r, rfl⟩ : ∃ r', r = r' + 1 := ⟨r - 1, by omega⟩
    rcases sbBread_cases k (2 + j) with hread | ⟨k₁, hread, hsame, hrefs₁⟩
    · refine ⟨0, k.next, Nat.zero_le _, ?_, ⟨rfl, rfl, rfl, rfl, rfl, rfl, rfl⟩, hrefs⟩
      rw [readLoop, hread]
      show (false, (filled j (r + 1)).set j none, k.next) = _
      rw [set_filled_none]
      rfl
    · have hrefs' : ∀ b, k₁.refs b = base b + heldBy (filled (j + 1) r) b := by
        intro b
        rw [hrefs₁, heldBy_filled_succ j r (r + 1)]
        unfold plus
        rw [hrefs, Nat.add_assoc]
      obtain ⟨i, k', hi, hrun, hsame', hrefs''⟩ := readLoop_spec n (j + 1) r (by omega) hrefs'
      refine ⟨i + 1, k', by omega, ?_, hsame.trans hsame', ?_⟩
      · rw [readLoop, hread]
        show readLoop n (j + 1) (2 + j + 1) ((filled j (r + 1)).set j (some (2 + j))) k₁ = _
        rw [set_filled, Nat.add_assoc 2, hrun, show j + 1 + i = j + (i + 1) by omega,
          show r + 1 - (i + 1) = r - i by omega]
        congr 1
        exact decide_eq_decide.mpr (by omega)
      · intro b
        rw [hrefs'' b, show j + 1 + i = j + (i + 1) by omega, show r + 1 - (i + 1) = r - i by omega]

/-- **The release loops** give back what the entries hold. -/
theorem releaseLoop_spec : ∀ (n pos : ℕ) {k : Kernel}, pos + n ≤ map.length →
    (∀ b, k.refs b = base b + heldBy ((map.drop pos).take n) b) → ∃ k',
      releaseLoop map n pos k = some k' ∧ Same k k' ∧ ∀ b, k'.refs b = base b
  | 0, pos, k, _, hrefs => ⟨k, rfl, Same.refl k, hrefs⟩
  | n + 1, pos, k, hlen, hrefs => by
    have hdrop : map.drop pos = map[pos] :: map.drop (pos + 1) := List.drop_eq_getElem_cons (by omega)
    have hget : map.getD pos none = map[pos] := List.getD_eq_getElem _ _ (by omega)
    rw [hdrop, List.take_succ_cons] at hrefs
    generalize map[pos] = entry at hget hrefs
    obtain ⟨k₁, hrel, hsame, hrefs₁⟩ : ∃ k₁, brelse k entry = some k₁ ∧ Same k k₁ ∧
        ∀ b, k₁.refs b = base b + heldBy ((map.drop (pos + 1)).take n) b := by
      cases entry with
      | none => exact ⟨k, rfl, Same.refl k, fun b => by rw [hrefs b]; rfl⟩
      | some bh =>
        refine brelse_spec fun b => ?_
        rw [hrefs b]
        unfold plus heldBy
        rw [List.count_cons, ← Nat.add_assoc]
        congr 1
        by_cases hb : b = bh
        · rw [hb, if_pos rfl, if_pos (beq_self_eq_true _)]
        · rw [if_neg hb, if_neg (by simpa using fun h => hb h.symm)]
    obtain ⟨k', hrun, hsame', hrefs'⟩ := releaseLoop_spec n (pos + 1) (by omega) hrefs₁
    refine ⟨k', ?_, hsame.trans hsame', hrefs'⟩
    rw [releaseLoop, hget, hrel]
    exact hrun

/-! ### The labels -/

theorem outLabel_spec (h : Account k₀ k (fun _ => 0) 1 0 0) : ∃ k', outLabel k ret = some (k', ret) ∧
    Account k₀ k' (fun _ => 0) 0 0 0 ∧ k'.s_fs_info = none := by
  have hpos : k.sbis ≠ 0 := by
    have := h.sbis
    omega
  refine ⟨{ k with s_fs_info := none, sbis := k.sbis - 1 }, ?_, ⟨h.refs, ?_, h.maps, h.inodes⟩, rfl⟩
  · unfold outLabel kfreeSbi
    dsimp only
    rw [if_neg hpos]
    rfl
  · have := h.sbis
    show k.sbis - 1 = k₀.sbis + 0
    omega

theorem outRelease_spec (h : Account k₀ k (plus (fun _ => 0) bh) 1 0 0) : ∃ k',
    outRelease k bh ret = some (k', ret) ∧ Account k₀ k' (fun _ => 0) 0 0 0 ∧ k'.s_fs_info = none := by
  obtain ⟨k₁, hrel, hsame, hrefs⟩ := @brelse_spec k k₀.refs bh fun b => by
    rw [h.refs]
    unfold plus
    rw [Nat.zero_add]
  have h₁ : Account k₀ k₁ (fun _ => 0) 1 0 0 := h.of_same hsame hrefs
  obtain ⟨k', hout, h', hnone⟩ := @outLabel_spec k₀ k₁ ret h₁
  refine ⟨k', ?_, h', hnone⟩
  unfold outRelease
  rw [hrel]
  exact hout

/-- What is held while the map is there. -/
def withMap (bh : ℕ) (map : List (Option ℕ)) (b : ℕ) : ℕ := plus (fun _ => 0) bh b + heldBy map b

/-- **The ladder** gives back all that has been taken. -/
theorem outFreemap_spec (h : Account k₀ k (withMap bh sbi.map) 1 1 0)
    (hlen : sbi.map.length = sbi.s_imap_blocks + sbi.s_zmap_blocks) : ∃ k',
    outFreemap k sbi bh ret = some (k', ret) ∧ Account k₀ k' (fun _ => 0) 0 0 0 ∧
      k'.s_fs_info = none := by
  -- the first loop gives back the entries of `s_imap`, the second those of `s_zmap`
  have hsplit : ∀ b, heldBy sbi.map b = heldBy ((sbi.map.drop sbi.s_imap_blocks).take sbi.s_zmap_blocks) b +
      heldBy ((sbi.map.drop 0).take sbi.s_imap_blocks) b := by
    intro b
    rw [List.drop_zero, List.take_of_length_le (by rw [List.length_drop]; omega)]
    unfold heldBy
    rw [Nat.add_comm, ← List.count_append, List.take_append_drop]
  obtain ⟨k₁, hrun₁, hsame₁, hrefs₁⟩ := @releaseLoop_spec (fun b => k₀.refs b +
    plus (fun _ => 0) bh b + heldBy ((sbi.map.drop sbi.s_imap_blocks).take sbi.s_zmap_blocks) b)
    sbi.map sbi.s_imap_blocks 0 k (by omega) fun b => by
      rw [h.refs]
      unfold withMap
      rw [hsplit]
      omega
  obtain ⟨k₂, hrun₂, hsame₂, hrefs₂⟩ := @releaseLoop_spec (fun b => k₀.refs b +
    plus (fun _ => 0) bh b) sbi.map sbi.s_zmap_blocks sbi.s_imap_blocks k₁ (by omega) hrefs₁
  have h₂ : Account k₀ k₂ (plus (fun _ => 0) bh) 1 1 0 := h.of_same (hsame₁.trans hsame₂) hrefs₂
  have hpos : k₂.maps ≠ 0 := by
    have := h₂.maps
    omega
  have h₃ : Account k₀ { k₂ with maps := k₂.maps - 1 } (plus (fun _ => 0) bh) 1 0 0 := by
    refine ⟨h₂.refs, h₂.sbis, ?_, h₂.inodes⟩
    have := h₂.maps
    show k₂.maps - 1 = k₀.maps + 0
    omega
  obtain ⟨k', hout, h', hnone⟩ := @outRelease_spec k₀ _ bh ret h₃
  refine ⟨k', ?_, h', hnone⟩
  unfold outFreemap kfreeMap
  rw [hrun₁]
  show (releaseLoop sbi.map sbi.s_zmap_blocks sbi.s_imap_blocks k₁).bind _ = _
  rw [hrun₂]
  show (if k₂.maps = 0 then none else some { k₂ with maps := k₂.maps - 1 }).bind _ = _
  rw [if_neg hpos]
  exact hout

/-! ### The root inode -/

/-- Reading a structure of an inode leaves the references as they were. -/
theorem rawInode_cases (v2 : Bool) (k : Kernel) (sbi : MinixSbInfo) (ino : ℕ) :
    (∃ k', (if v2 then minixV2RawInode k sbi ino else minixV1RawInode k sbi ino) = (none, k') ∧
      Same k k' ∧ k'.refs = k.refs) ∨
    ∃ block off k', (if v2 then minixV2RawInode k sbi ino else minixV1RawInode k sbi ino) =
      (some (block, off), k') ∧ Same k k' ∧ ∀ b, k'.refs b = plus k.refs block b := by
  have hsame : Same k k.next := ⟨rfl, rfl, rfl, rfl, rfl, rfl, rfl⟩
  cases v2 with
  | true =>
    rw [if_pos rfl]
    unfold minixV2RawInode
    dsimp only
    by_cases hrange : ino = 0 ∨ sbi.s_ninodes < ino
    · rw [if_pos hrange]
      exact Or.inl ⟨k, rfl, Same.refl k, rfl⟩
    · rw [if_neg hrange]
      rcases sbBread_cases k (2 + sbi.s_imap_blocks + sbi.s_zmap_blocks +
        (ino - 1) / (BLOCK_SIZE / sizeofMinix2Inode)) with hread | ⟨k', hread, hsame', hrefs⟩
      · rw [hread]
        exact Or.inl ⟨k.next, rfl, hsame, rfl⟩
      · rw [hread]
        exact Or.inr ⟨_, _, k', rfl, hsame', hrefs⟩
  | false =>
    rw [if_neg (by decide)]
    unfold minixV1RawInode
    dsimp only
    by_cases hrange : ino = 0 ∨ sbi.s_ninodes < ino
    · rw [if_pos hrange]
      exact Or.inl ⟨k, rfl, Same.refl k, rfl⟩
    · rw [if_neg hrange]
      rcases sbBread_cases k (2 + sbi.s_imap_blocks + sbi.s_zmap_blocks +
        (ino - 1) / MINIX_INODES_PER_BLOCK) with hread | ⟨k', hread, hsame', hrefs⟩
      · rw [hread]
        exact Or.inl ⟨k.next, rfl, hsame, rfl⟩
      · rw [hread]
        exact Or.inr ⟨_, _, k', rfl, hsame', hrefs⟩

/-- **Reading an inode** holds the inode and nothing else, or nothing. -/
theorem minixIget_spec (h : Account k₀ k extra sbis maps 0) (sbi : MinixSbInfo) (ino : ℕ) :
    ∃ k' r, minixIget k sbi ino = some (k', r) ∧ k'.s_fs_info = k.s_fs_info ∧
      ((∃ ret, r = .error ret ∧ ret ≠ 0 ∧ Account k₀ k' extra sbis maps 0) ∨
        ∃ inode, r = .ok inode ∧ Account k₀ k' extra sbis maps 1) := by
  unfold minixIget
  by_cases hfail : k.fails k.calls = true
  · rw [if_pos hfail]
    exact ⟨k.next, _, rfl, rfl, Or.inl ⟨_, rfl, by decide, h.next⟩⟩
  rw [if_neg hfail]
  dsimp only
  have h₁ : Account k₀ { k.next with inodes := k.inodes + 1 } extra sbis maps 1 := by
    refine ⟨h.refs, h.sbis, h.maps, ?_⟩
    have := h.inodes
    show k.inodes + 1 = k₀.inodes + 1
    omega
  have hcache : k.next.cache ino = k.cache ino := rfl
  have hinfo : { k.next with inodes := k.inodes + 1 }.s_fs_info = k.s_fs_info := rfl
  generalize { k.next with inodes := k.inodes + 1 } = k₁ at h₁ hinfo ⊢
  cases hino : k.cache ino with
  | some inode => exact ⟨k₁, _, by rw [hcache, hino], hinfo, Or.inr ⟨inode, rfl, h₁⟩⟩
  | none =>
    -- a new inode: it is dropped when it cannot be read
    have hfailed : ∀ {k₂ : Kernel}, Account k₀ k₂ extra sbis maps 1 →
        Account k₀ (igetFailed k₂) extra sbis maps 0 := by
      intro k₂ h₂
      refine ⟨h₂.refs, h₂.sbis, h₂.maps, ?_⟩
      have := h₂.inodes
      show k₂.inodes - 1 = k₀.inodes + 0
      omega
    have hgot : ∀ {k₂ : Kernel} {block : ℕ}, Same k₁ k₂ → (∀ b, k₂.refs b = plus k₁.refs block b) →
        ∃ k₃, brelse k₂ (some block) = some k₃ ∧ k₃.s_fs_info = k.s_fs_info ∧
          Account k₀ k₃ extra sbis maps 1 := by
      intro k₂ block hsame hrefs
      obtain ⟨k₃, hrel, hsame₃, hrefs₃⟩ := brelse_spec hrefs
      exact ⟨k₃, hrel, hsame₃.info.trans (hsame.info.trans hinfo), h₁.of_same (hsame.trans hsame₃)
        fun b => (hrefs₃ b).trans (h₁.refs b)⟩
    rw [hcache, hino]
    dsimp only
    by_cases hversion : sbi.s_version = MINIX_V1_BS
    · rw [if_pos hversion]
      unfold V1MinixIget
      rcases rawInode_cases false k₁ sbi ino with ⟨k₂, hraw, hsame, hrefs⟩ | ⟨block, off, k₂, hraw, hsame, hrefs⟩
      · rw [if_neg (by decide)] at hraw
        rw [hraw]
        exact ⟨_, _, rfl, hsame.info.trans hinfo, Or.inl ⟨_, rfl, by decide,
          hfailed (h₁.of_same hsame fun b => (congrFun hrefs b).trans (h₁.refs b))⟩⟩
      · rw [if_neg (by decide)] at hraw
        obtain ⟨k₃, hrel, hinfo₃, h₃⟩ := hgot hsame hrefs
        rw [hraw]
        dsimp only
        rw [hrel]
        exact ⟨_, _, rfl, hinfo₃, Or.inr ⟨_, rfl, ⟨h₃.refs, h₃.sbis, h₃.maps, h₃.inodes⟩⟩⟩
    · rw [if_neg hversion]
      unfold V2MinixIget
      rcases rawInode_cases true k₁ sbi ino with ⟨k₂, hraw, hsame, hrefs⟩ | ⟨block, off, k₂, hraw, hsame, hrefs⟩
      · rw [if_pos rfl] at hraw
        rw [hraw]
        exact ⟨_, _, rfl, hsame.info.trans hinfo, Or.inl ⟨_, rfl, by decide,
          hfailed (h₁.of_same hsame fun b => (congrFun hrefs b).trans (h₁.refs b))⟩⟩
      · rw [if_pos rfl] at hraw
        obtain ⟨k₃, hrel, hinfo₃, h₃⟩ := hgot hsame hrefs
        rw [hraw]
        dsimp only
        rw [hrel]
        exact ⟨_, _, rfl, hinfo₃, Or.inr ⟨_, rfl, ⟨h₃.refs, h₃.sbis, h₃.maps, h₃.inodes⟩⟩⟩

/-! ### The mount -/

theorem clearState_spec (h : Account k₀ k extra sbis maps inodes) (bh : ℕ) :
    Account k₀ (clearState k bh) extra sbis maps inodes ∧ (clearState k bh).s_fs_info = k.s_fs_info := by
  unfold clearState
  split_ifs
  · exact ⟨h, rfl⟩
  · exact ⟨⟨h.refs, h.sbis, h.maps, h.inodes⟩, rfl⟩

theorem minixSetBit0_spec (h : Account k₀ k extra sbis maps inodes) (entry : Option ℕ) :
    Account k₀ (minixSetBit0 k entry) extra sbis maps inodes := by
  cases entry with
  | none => exact h
  | some bh => exact ⟨h.refs, h.sbis, h.maps, h.inodes⟩

theorem count_range' (n b : ℕ) : (List.range' 2 n).count b = if 2 ≤ b ∧ b < 2 + n then 1 else 0 := by
  rw [List.Nodup.count (List.nodup_range' 1)]
  simp only [List.mem_range'_1]

theorem filled_getElem? {i : ℕ} (h : i < j) : (filled j r)[i]? = some (some (2 + i)) := by
  unfold filled
  rw [List.getElem?_append_left (by rw [List.length_map, List.length_range']; exact h), List.getElem?_map,
    List.getElem?_range' h, Nat.one_mul]
  rfl

/-- **What a mount leaves behind**: after a failure nothing is held. Otherwise the superblock and the
blocks of the two maps are held, each of them once, and the maps have them in order. -/
def Settled (k₀ k : Kernel) (ret : ℤ) : Prop :=
  (ret ≠ 0 → Account k₀ k (fun _ => 0) 0 0 0 ∧ k.s_fs_info = none) ∧
  (ret = 0 → ∃ sbi, k.s_fs_info = some sbi ∧
    Account k₀ k (plus (fun b => if 2 ≤ b ∧ b < 2 + sbi.s_imap_blocks + sbi.s_zmap_blocks then 1 else 0) 1)
      1 1 1 ∧
    sbi.map.length = sbi.s_imap_blocks + sbi.s_zmap_blocks ∧ sbi.s_sbh = some 1 ∧
    (∀ i < sbi.s_imap_blocks, sbi.map[i]? = some (some (2 + i))) ∧
    ∀ i < sbi.s_zmap_blocks, sbi.map[sbi.s_imap_blocks + i]? = some (some (2 + sbi.s_imap_blocks + i)))

theorem settled_of_failed {k' : Kernel} (hret : ret ≠ 0) (h : Account k₀ k' (fun _ => 0) 0 0 0)
    (hinfo : k'.s_fs_info = none) : Settled k₀ k' ret := ⟨fun _ => ⟨h, hinfo⟩, fun h0 => absurd h0 hret⟩

theorem fillRoot_spec (h : Account k₀ k (withMap 1 sbi.map) 1 1 0)
    (hmap : sbi.map = filled (sbi.s_imap_blocks + sbi.s_zmap_blocks) 0) (hsbh : sbi.s_sbh = some 1)
    (hinfo : k.s_fs_info = some sbi) :
    ∃ k' ret, fillRoot k sbi 1 = some (k', ret) ∧ Settled k₀ k' ret := by
  have hlen : sbi.map.length = sbi.s_imap_blocks + sbi.s_zmap_blocks := by
    rw [hmap, length_filled, Nat.add_zero]
  have hfreemap : ∀ {k₁ : Kernel} {ret : ℤ}, ret ≠ 0 → Account k₀ k₁ (withMap 1 sbi.map) 1 1 0 →
      ∃ k', outFreemap k₁ sbi 1 ret = some (k', ret) ∧ Settled k₀ k' ret := by
    intro k₁ ret hret h₁
    obtain ⟨k', hrun, h', hnone⟩ := @outFreemap_spec k₀ k₁ sbi 1 ret h₁ hlen
    exact ⟨k', hrun, settled_of_failed hret h' hnone⟩
  obtain ⟨k₁, r, hrun, hinfo₁, ⟨e, rfl, he, h₁⟩ | ⟨inode, rfl, h₁⟩⟩ := minixIget_spec h sbi MINIX_ROOT_INO
  · obtain ⟨k', hout, hsettled⟩ := hfreemap he h₁
    refine ⟨k', e, ?_, hsettled⟩
    unfold fillRoot
    rw [hrun]
    exact hout
  · have hstep : fillRoot k sbi 1 = if k₁.fails k₁.calls then
        outFreemap { k₁.next with inodes := k₁.inodes - 1 } sbi 1 (-ENOMEM) else some (clearState k₁.next 1, 0) := by
      unfold fillRoot
      rw [hrun]
      rfl
    rw [hstep]
    by_cases hfail : k₁.fails k₁.calls = true
    · rw [if_pos hfail]
      have h₂ : Account k₀ { k₁.next with inodes := k₁.inodes - 1 } (withMap 1 sbi.map) 1 1 0 := by
        refine ⟨h₁.refs, h₁.sbis, h₁.maps, ?_⟩
        have := h₁.inodes
        show k₁.inodes - 1 = k₀.inodes + 0
        omega
      obtain ⟨k', hout, hsettled⟩ := @hfreemap _ (-ENOMEM) (by decide) h₂
      exact ⟨k', _, hout, hsettled⟩
    · rw [if_neg hfail]
      obtain ⟨h₂, hinfo₂⟩ := clearState_spec h₁.next 1
      refine ⟨_, 0, rfl, fun h0 => absurd rfl h0, fun _ => ⟨sbi, ?_, h₂.congr fun b => ?_, hlen, hsbh,
        fun i hi => ?_, fun i hi => ?_⟩⟩
      · rw [hinfo₂]
        exact hinfo₁.trans hinfo
      · unfold withMap
        rw [hmap, heldBy_filled, count_range']
        unfold plus
        rw [Nat.zero_add, Nat.add_comm, Nat.add_assoc 2]
      · rw [hmap, filled_getElem? (by omega)]
      · rw [hmap, filled_getElem? (by omega), Nat.add_assoc]

/-! ### The whole mount -/

theorem fillMaps_spec (h : Account k₀ k (plus (fun _ => 0) 1) 1 0 0) (hsbh : sbi.s_sbh = some 1) :
    ∃ k' ret, fillMaps k sbi 1 = some (k', ret) ∧ Settled k₀ k' ret := by
  unfold fillMaps
  by_cases hfail : k.fails k.calls = true
  · rw [if_pos hfail]
    obtain ⟨k', hrun, h', hnone⟩ := @outRelease_spec k₀ _ 1 (-ENOMEM) h.next
    exact ⟨k', _, hrun, settled_of_failed (by decide) h' hnone⟩
  rw [if_neg hfail]
  dsimp only
  set m := sbi.s_imap_blocks with hm
  set z := sbi.s_zmap_blocks with hz
  have h₁ : Account k₀ { k.next with maps := k.maps + 1 } (withMap 1 (filled 0 (m + z))) 1 1 0 := by
    refine ⟨fun b => ?_, h.sbis, ?_, h.inodes⟩
    · unfold withMap
      rw [heldBy_filled]
      exact h.refs b
    · have := h.maps
      show k.maps + 1 = k₀.maps + 1
      omega
  generalize { k.next with maps := k.maps + 1 } = k₁ at h₁ ⊢
  have hfreemap : ∀ {k₂ : Kernel} {j r : ℕ}, j + r = m + z → Account k₀ k₂ (withMap 1 (filled j r)) 1 1 0 →
      ∃ k' ret, outFreemap k₂ { sbi with map := filled j r } 1 (-EINVAL) = some (k', ret) ∧
        Settled k₀ k' ret := by
    intro k₂ j r hjr h₂
    obtain ⟨k', hrun, h', hnone⟩ := @outFreemap_spec k₀ k₂ { sbi with map := filled j r } 1 (-EINVAL) h₂
      (by rw [length_filled, hjr])
    exact ⟨k', _, hrun, settled_of_failed (by decide) h' hnone⟩
  have hmap : List.replicate (m + z) none = filled 0 (m + z) := rfl
  rw [hmap]
  obtain ⟨i, k₂, hi, hrun₂, hsame₂, hrefs₂⟩ := @readLoop_spec
    (fun b => k₀.refs b + plus (fun _ => 0) 1 b) m 0 (m + z) k₁ (by omega) fun b => by
      rw [h₁.refs, Nat.add_assoc]
      rfl
  have h₂ : Account k₀ k₂ (withMap 1 (filled (0 + i) (m + z - i))) 1 1 0 := h₁.of_same hsame₂ fun b => by
    rw [hrefs₂, Nat.add_assoc]
    rfl
  rw [hrun₂]
  by_cases him : i = m
  swap
  · rw [decide_eq_false him]
    exact hfreemap (by omega) h₂
  rw [decide_eq_true him]
  rw [him, Nat.zero_add, Nat.add_sub_cancel_left] at h₂ hrefs₂ ⊢
  dsimp only
  obtain ⟨i', k₃, hi', hrun₃, hsame₃, hrefs₃⟩ := @readLoop_spec
    (fun b => k₀.refs b + plus (fun _ => 0) 1 b) z m z k₂ le_rfl hrefs₂
  have h₃ : Account k₀ k₃ (withMap 1 (filled (m + i') (z - i'))) 1 1 0 := h₂.of_same hsame₃ fun b => by
    rw [hrefs₃, Nat.add_assoc]
    rfl
  rw [hrun₃]
  by_cases hiz : i' = z
  swap
  · rw [decide_eq_false hiz]
    exact hfreemap (by omega) h₃
  rw [decide_eq_true hiz]
  rw [hiz, Nat.sub_self] at h₃ ⊢
  dsimp only
  have h₄ := minixSetBit0_spec (minixSetBit0_spec h₃ ((filled (m + z) 0).getD 0 none))
    ((filled (m + z) 0).getD m none)
  generalize minixSetBit0 (minixSetBit0 k₃ ((filled (m + z) 0).getD 0 none))
    ((filled (m + z) 0).getD m none) = k₄ at h₄ ⊢
  split_ifs
  · exact hfreemap (Nat.add_zero _) h₄
  · exact hfreemap (Nat.add_zero _) h₄
  · exact fillRoot_spec ⟨h₄.refs, h₄.sbis, h₄.maps, h₄.inodes⟩ rfl hsbh rfl

/-- **A mount** that fails gives back all that it took, one that succeeds holds the superblock and the
bitmaps. -/
theorem minixFillSuper_spec (k₀ : Kernel) (hfresh : k₀.s_fs_info = none) :
    ∃ k ret, minixFillSuper k₀ = some (k, ret) ∧ Settled k₀ k ret := by
  have h₀ : Account k₀ k₀ (fun _ => 0) 0 0 0 := ⟨fun _ => rfl, rfl, rfl, rfl⟩
  unfold minixFillSuper
  by_cases hfail : k₀.fails k₀.calls = true
  · rw [if_pos hfail]
    exact ⟨_, _, rfl, settled_of_failed (by decide) h₀.next hfresh⟩
  rw [if_neg hfail]
  dsimp only
  have h₁ : Account k₀ { k₀.next with sbis := k₀.sbis + 1, s_fs_info := some MinixSbInfo.zero }
      (fun _ => 0) 1 0 0 := ⟨fun _ => rfl, rfl, rfl, rfl⟩
  have hout : ∀ {k : Kernel}, Account k₀ k (fun _ => 0) 1 0 0 → ∃ k' ret,
      outLabel k (-EINVAL) = some (k', ret) ∧ Settled k₀ k' ret := by
    intro k h
    obtain ⟨k', hrun, h', hnone⟩ := @outLabel_spec k₀ k (-EINVAL) h
    exact ⟨k', _, hrun, settled_of_failed (by decide) h' hnone⟩
  by_cases hfail : k₀.next.fails k₀.next.calls = true
  · rw [if_pos hfail]
    exact hout h₁.next
  rw [if_neg hfail]
  generalize ({ k₀.next with sbis := k₀.sbis + 1, s_fs_info := some MinixSbInfo.zero } : Kernel) = k₁
    at h₁ ⊢
  rcases sbBread_cases k₁.next 1 with hread | ⟨k₂, hread, hsame, hrefs⟩
  · rw [hread]
    exact hout h₁.next.next
  have h₂ : Account k₀ k₂ (plus (fun _ => 0) 1) 1 0 0 := h₁.next.of_same hsame fun b => by
    rw [hrefs]
    unfold plus
    rw [h₁.next.refs, Nat.add_assoc]
  have hrelease : ∀ {k : Kernel}, Account k₀ k (plus (fun _ => 0) 1) 1 0 0 → ∃ k' ret,
      outRelease k 1 (-EINVAL) = some (k', ret) ∧ Settled k₀ k' ret := by
    intro k h
    obtain ⟨k', hrun, h', hnone⟩ := @outRelease_spec k₀ k 1 (-EINVAL) h
    exact ⟨k', _, hrun, settled_of_failed (by decide) h' hnone⟩
  rw [hread]
  dsimp only
  generalize MinixSuperBlock.read (k₂.disk 1) = ms
  rcases readVersion ms (k₂.disk 1) with _ | ⟨version, nzones⟩
  · exact hrelease h₂
  · dsimp only
    have h₃ : Account k₀ { k₂ with s_fs_info := some (fillSbi ms 1 version nzones) }
        (plus (fun _ => 0) 1) 1 0 0 := ⟨h₂.refs, h₂.sbis, h₂.maps, h₂.inodes⟩
    split_ifs
    · exact hrelease h₃
    · exact fillMaps_spec h₃ rfl

/-- A blank device. -/
def blank : Kernel := ⟨fun _ _ => 0, fun _ => false, 0, fun _ => 0, 0, 0, 0, fun _ => none, none, false⟩

theorem minixFillSuper_spec_blank : ∃ k ret, minixFillSuper blank = some (k, ret) ∧ Settled blank k ret :=
  minixFillSuper_spec blank rfl

end HardStack.Minix.Mount
