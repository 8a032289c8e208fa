import HardStack.Eeprom.Model

/-! # What a packet transfer touches

The number of chunks is rounded up and the remainder comes on top, so that a length that is no multiple
of the chunk size leads out of the buffer. The chunks of other lengths are written where they belong as
long as none of them crosses the end of a page. -/

namespace HardStack.Eeprom.Transfer

open HardStack.Eeprom.Model

variable {chip : ℕ → UInt8} {buf out data : List UInt8} {offset len n idx a : ℕ} {ret : Option ℤ}

/-! ### One chunk -/

/-- A page write that does not reach the end of the page. -/
theorem chipWrite_apply : ∀ {data : List UInt8} {chip : ℕ → UInt8} {offset : ℕ},
    offset % 16 + data.length ≤ 16 → ∀ a, chipWrite chip offset data a =
      if offset ≤ a then (data[a - offset]?).getD (chip a) else chip a
  | [], chip, offset, _, a => by
    rw [List.getElem?_nil, Option.getD_none, ite_self]
    rfl
  | x :: data, chip, offset, h, a => by
    rw [List.length_cons] at h
    rw [chipWrite]
    rcases data with _ | ⟨y, data⟩
    · show Function.update chip offset x a = _
      by_cases ha : a = offset
      · rw [ha, Function.update_self, if_pos le_rfl, Nat.sub_self]
        rfl
      · rw [Function.update_of_ne ha]
        by_cases hle : offset ≤ a
        · rw [if_pos hle, List.getElem?_eq_none (by simp; omega), Option.getD_none]
        · rw [if_neg hle]
    · have hnext : nextInPage offset = offset + 1 := by
        rw [List.length_cons] at h
        unfold nextInPage
        omega
      rw [hnext, chipWrite_apply (by omega)]
      by_cases hlt : offset + 1 ≤ a
      · rw [if_pos hlt, if_pos (by omega), Function.update_of_ne (by omega),
          show a - offset = a - (offset + 1) + 1 by omega, List.getElem?_cons_succ]
      · rw [if_neg hlt]
        by_cases ha : a = offset
        · rw [ha, Function.update_self, if_pos le_rfl, Nat.sub_self]
          rfl
        · rw [Function.update_of_ne ha, if_neg (by omega)]

/-- Ones stay where ones are written. -/
theorem chipWrite_ones : ∀ {n offset : ℕ} {chip : ℕ → UInt8}, chip a = 1 →
    chipWrite chip offset (List.replicate n 1) a = 1
  | 0, _, _, h => h
  | n + 1, offset, chip, h => by
    rw [List.replicate_succ, chipWrite]
    refine chipWrite_ones ?_
    by_cases hne : a = offset
    · rw [hne, Function.update_self]
    · rw [Function.update_of_ne hne, h]

/-- **A page write beyond the end of the page** comes to its first byte. -/
theorem chipWrite_wrap : ∀ {n offset : ℕ} {chip : ℕ → UInt8}, 16 < offset % 16 + n →
    chipWrite chip offset (List.replicate n 1) (offset / 16 * 16) = 1
  | 0, offset, _, h => by omega
  | n + 1, offset, chip, h => by
    rw [List.replicate_succ, chipWrite]
    by_cases hend : offset % 16 = 15
    · obtain ⟨m, rfl⟩ : ∃ m, n = m + 1 := ⟨n - 1, by omega⟩
      have hnext : nextInPage offset = offset / 16 * 16 := by
        unfold nextInPage
        omega
      rw [hnext, List.replicate_succ, chipWrite]
      exact chipWrite_ones (Function.update_self _ _ _)
    · have hnext : nextInPage offset = offset + 1 := by
        unfold nextInPage
        omega
      rw [hnext, show offset / 16 * 16 = (offset + 1) / 16 * 16 by omega]
      exact chipWrite_wrap (by omega)

theorem length_chipRead : ∀ (n offset : ℕ), (chipRead chip offset n).length = n
  | 0, _ => rfl
  | n + 1, offset => by
    rw [chipRead, List.length_cons, length_chipRead n]

/-- A sequential read that stays below the end of the memory. -/
theorem chipRead_eq (chip : ℕ → UInt8) (n : ℕ) : ∀ {offset : ℕ}, offset + n ≤ 256 →
    chipRead chip offset n = (List.range' offset n).map chip := by
  induction n with
  | zero => exact fun _ => rfl
  | succ n ih =>
    intro offset h
    rw [chipRead, List.range'_succ, List.map_cons]
    by_cases hn : n = 0
    · rw [hn]
      rfl
    · rw [Nat.mod_eq_of_lt (by omega), ih (by omega)]

/-! ### The loops -/

/-- Chunk `idx` does not cross the end of a page. -/
def InPage (offset idx : ℕ) : Prop := (offset + idx * 8) % 16 ≤ 8

theorem writeLoop_succ (h : (idx + 1) * 8 ≤ buf.length) :
    writeLoop offset buf (n + 1) idx chip ret = writeLoop offset buf n (idx + 1)
      (chipWrite chip ((offset + idx * 8) % 256) ((buf.drop (idx * 8)).take 8)) (some 1) := by
  have hfetch : fetch buf (idx * 8) 8 = some ((buf.drop (idx * 8)).take 8) := if_pos (by omega)
  rw [writeLoop]
  unfold pageWrite I2C_CHUNK_SIZE
  rw [hfetch]
  rfl

/-- The loop leaves the buffer. -/
theorem writeLoop_none : ∀ {n idx : ℕ} {chip : ℕ → UInt8} {ret : Option ℤ}, 0 < n →
    buf.length < (idx + n) * 8 → writeLoop offset buf n idx chip ret = none
  | n + 1, idx, chip, ret, _, h => by
    by_cases hfit : (idx + 1) * 8 ≤ buf.length
    · rw [writeLoop_succ hfit]
      have hn : 0 < n := by
        rcases Nat.eq_zero_or_pos n with rfl | hn
        · omega
        · exact hn
      exact writeLoop_none hn (by omega)
    · have hfetch : fetch buf (idx * 8) 8 = none := if_neg (by omega)
      rw [writeLoop]
      unfold pageWrite I2C_CHUNK_SIZE
      rw [hfetch]
      rfl

/-- **The chunks are written where they belong.** -/
theorem writeLoop_spec : ∀ {n idx : ℕ} {chip : ℕ → UInt8} {ret : Option ℤ},
    (idx + n) * 8 = buf.length → offset + buf.length ≤ 256 →
    (∀ j, idx ≤ j → j < idx + n → InPage offset j) → ∃ chip' ret',
      writeLoop offset buf n idx chip ret = some (chip', ret') ∧ ∀ a, chip' a =
        if offset + idx * 8 ≤ a then (buf[a - offset]?).getD (chip a) else chip a
  | 0, idx, chip, ret, hlen, _, _ => by
    refine ⟨chip, ret, rfl, fun a => ?_⟩
    by_cases ha : offset + idx * 8 ≤ a
    · rw [if_pos ha, List.getElem?_eq_none (by omega), Option.getD_none]
    · rw [if_neg ha]
  | n + 1, idx, chip, ret, hlen, hmax, hpage => by
    have hin : (offset + idx * 8) % 16 ≤ 8 := hpage idx le_rfl (by omega)
    obtain ⟨chip', ret', hrun, hchip⟩ := @writeLoop_spec n (idx + 1)
      (chipWrite chip ((offset + idx * 8) % 256) ((buf.drop (idx * 8)).take 8)) (some 1)
      (by omega) hmax fun j h1 h2 => hpage j (by omega) (by omega)
    refine ⟨chip', ret', by rw [writeLoop_succ (by omega), hrun], fun a => ?_⟩
    have hlen8 : ((buf.drop (idx * 8)).take 8).length = 8 := by
      rw [List.length_take, List.length_drop]
      omega
    rw [hchip, Nat.mod_eq_of_lt (by omega), chipWrite_apply (by rw [hlen8]; omega)]
    by_cases h1 : offset + (idx + 1) * 8 ≤ a
    · have hout : ((buf.drop (idx * 8)).take 8)[a - (offset + idx * 8)]? = none :=
        List.getElem?_eq_none (by rw [hlen8]; omega)
      rw [if_pos h1, if_pos (by omega), if_pos (by omega), hout, Option.getD_none]
    · rw [if_neg h1]
      by_cases h2 : offset + idx * 8 ≤ a
      · rw [if_pos h2, if_pos h2, List.getElem?_take_of_lt (by omega), List.getElem?_drop,
          show idx * 8 + (a - (offset + idx * 8)) = a - offset by omega]
      · rw [if_neg h2, if_neg h2]

/-- Ones stay where ones are written. -/
theorem writeLoop_ones : ∀ {n idx : ℕ} {chip chip' : ℕ → UInt8} {ret ret' : Option ℤ},
    buf = List.replicate len 1 → writeLoop offset buf n idx chip ret = some (chip', ret') →
    chip a = 1 → chip' a = 1
  | 0, _, chip, chip', _, _, _, h, ha => by
    cases h
    exact ha
  | n + 1, idx, chip, chip', ret, ret', hbuf, h, ha => by
    have hfit : (idx + 1) * 8 ≤ buf.length := by
      by_contra hfit
      rw [writeLoop_none (Nat.succ_pos n) (by omega)] at h
      cases h
    rw [writeLoop_succ hfit] at h
    refine writeLoop_ones hbuf h ?_
    rw [hbuf, List.drop_replicate, List.take_replicate]
    exact chipWrite_ones ha

theorem writeLoop_isSome : ∀ {n idx : ℕ} {chip : ℕ → UInt8} {ret : Option ℤ},
    (idx + n) * 8 = buf.length → ∃ chip' ret', writeLoop offset buf n idx chip ret = some (chip', ret')
  | 0, _, chip, ret, _ => ⟨chip, ret, rfl⟩
  | n + 1, idx, chip, ret, hlen => by
    rw [writeLoop_succ (by omega)]
    exact writeLoop_isSome (by omega)

/-- **The chunks are read from where they belong**, and nothing else of the buffer is changed. -/
theorem readLoop_spec : ∀ {n idx : ℕ} {buf : List UInt8} {ret : Option ℤ},
    (idx + n) * 8 = buf.length → offset + buf.length ≤ 256 → ∃ ret',
      readLoop chip offset n idx buf ret =
        some (buf.take (idx * 8) ++ (List.range' (offset + idx * 8) (n * 8)).map chip, ret')
  | 0, idx, buf, ret, hlen, _ => by
    refine ⟨ret, ?_⟩
    rw [Nat.zero_mul, List.range'_zero, List.map_nil, List.append_nil, List.take_of_length_le (by omega)]
    rfl
  | n + 1, idx, buf, ret, hlen, hmax => by
    have hdata : chipRead chip ((offset + idx * 8) % 256) 8 =
        (List.range' (offset + idx * 8) 8).map chip := by
      rw [Nat.mod_eq_of_lt (by omega), chipRead_eq chip 8 (by omega)]
    set data := (List.range' (offset + idx * 8) 8).map chip with hdef
    have hlen8 : data.length = 8 := by rw [hdef, List.length_map, List.length_range']
    set next := buf.take (idx * 8) ++ data ++ buf.drop (idx * 8 + 8) with hnext
    have htake : (buf.take (idx * 8) ++ data).length = (idx + 1) * 8 := by
      rw [List.length_append, List.length_take, hlen8]
      omega
    have hlength : next.length = buf.length := by
      rw [hnext, List.length_append, htake, List.length_drop]
      omega
    obtain ⟨ret', hrun⟩ := @readLoop_spec n (idx + 1) next (some 2) (by omega) (by omega)
    refine ⟨ret', ?_⟩
    have hput : put buf (idx * 8) data = some next := by
      unfold put
      rw [hlen8, if_pos (by omega)]
    have hstep : readLoop chip offset (n + 1) idx buf ret = readLoop chip offset n (idx + 1) next (some 2) := by
      rw [readLoop]
      unfold sequenRead I2C_CHUNK_SIZE
      rw [hdata, hput]
      rfl
    rw [hstep, hrun, hnext, List.take_left' htake, List.append_assoc, hdef, ← List.map_append,
      show (idx + 1) * 8 = idx * 8 + 8 by omega, ← Nat.add_assoc, List.range'_append_1,
      show 8 + n * 8 = (n + 1) * 8 by omega]

/-! ### A packet -/

/-- What is left of a packet whose length is no multiple of a chunk leads out of the buffer. -/
theorem packetWrite_none (hlen : buf.length = len) (h : ¬ 8 ∣ len) :
    packetWrite chip offset buf len = none := by
  unfold packetWrite divUp I2C_CHUNK_SIZE
  dsimp only
  rw [writeLoop_none (by omega) (by omega)]
  rfl

theorem packetWrite_eq (h : 8 ∣ len) :
    packetWrite chip offset buf len = writeLoop offset buf (len / 8) 0 chip none := by
  unfold packetWrite divUp I2C_CHUNK_SIZE
  dsimp only
  rw [show (len + (8 - 1)) / 8 = len / 8 by omega]
  rcases writeLoop offset buf (len / 8) 0 chip none with _ | ⟨chip', ret⟩
  · rfl
  · exact if_neg (not_not.mpr (Nat.mod_eq_zero_of_dvd h))

theorem packetRead_eq (h : 8 ∣ len) :
    packetRead chip offset buf len = readLoop chip offset (len / 8) 0 buf none := by
  unfold packetRead divUp I2C_CHUNK_SIZE
  dsimp only
  rw [show (len + (8 - 1)) / 8 = len / 8 by omega]
  rcases readLoop chip offset (len / 8) 0 buf none with _ | ⟨buf', ret⟩
  · rfl
  · exact if_neg (not_not.mpr (Nat.mod_eq_zero_of_dvd h))

/-- **A faithful transfer**: whatever the chip and the buffer hold, the write stays in the buffer and
changes exactly the bytes of the range, which become those of the buffer, and a read of the same range
into any buffer gives them back. -/
def Faithful (offset len : ℕ) : Prop :=
  ∀ (chip : ℕ → UInt8) (buf : List UInt8), buf.length = len →
    ∃ chip' ret, packetWrite chip offset buf len = some (chip', ret) ∧
      (∀ a < 256, chip' a =
        if offset ≤ a ∧ a < offset + len then buf[a - offset]?.getD 0 else chip a) ∧
      ∀ out : List UInt8, out.length = len → ∃ ret, packetRead chip' offset out len = some (buf, ret)

/-- No chunk crosses the end of a page. -/
theorem faithful (hmax : offset + len ≤ 256) (h : 8 ∣ len)
    (hpage : ∀ j < len / 8, InPage offset j) : Faithful offset len := by
  intro chip buf hlen
  obtain ⟨chip', ret, hrun, hchip⟩ := @writeLoop_spec buf offset (len / 8) 0 chip none (by omega)
    (by omega) fun j _ hj => hpage j (by omega)
  have hbytes : ∀ a, chip' a =
      if offset ≤ a ∧ a < offset + len then buf[a - offset]?.getD 0 else chip a := by
    intro a
    rw [hchip, Nat.zero_mul, Nat.add_zero]
    by_cases h1 : offset ≤ a
    · by_cases h2 : a < offset + len
      · rw [if_pos h1, if_pos ⟨h1, h2⟩, List.getElem?_eq_getElem (by omega), Option.getD_some,
          Option.getD_some]
      · rw [if_pos h1, if_neg fun h => h2 h.2, List.getElem?_eq_none (by omega), Option.getD_none]
    · rw [if_neg h1, if_neg fun h => h1 h.1]
  refine ⟨chip', ret, by rw [packetWrite_eq h, hrun], fun a _ => hbytes a, fun out hout => ?_⟩
  obtain ⟨ret', hread⟩ := @readLoop_spec chip' offset (len / 8) 0 out none (by omega) (by omega)
  refine ⟨ret', ?_⟩
  rw [packetRead_eq h, hread, Nat.zero_mul, List.take_zero, List.nil_append, Nat.add_zero,
    Nat.div_mul_cancel h]
  congr 2
  refine List.ext_getElem (by rw [List.length_map, List.length_range', hlen]) fun i h1 h2 => ?_
  rw [List.getElem_map, List.getElem_range', hbytes, if_pos (by omega),
    show offset + 1 * i - offset = i by omega, List.getElem?_eq_getElem h2, Option.getD_some]

/-- A chunk that crosses the end of a page damages the first byte of the page. -/
theorem not_faithful (h : 8 ∣ len) (hmax : offset + len ≤ 256)
    (hwrap : 0 < len ∧ 8 < offset % 16 ∨ 8 < len ∧ 0 < offset % 8) : ¬ Faithful offset len := by
  intro hfaithful
  obtain ⟨chip', ret, hrun, hchip, -⟩ := hfaithful (fun _ => 0) (List.replicate len 1)
    List.length_replicate
  have hfirst : chip' (offset / 16 * 16) = 0 := by
    rw [hchip _ (by omega), if_neg (by omega)]
  have hdrop : ∀ idx, (idx + 1) * 8 ≤ len →
      ((List.replicate len (1 : UInt8)).drop (idx * 8)).take 8 = List.replicate 8 1 := by
    intro idx hidx
    rw [List.drop_replicate, List.take_replicate, Nat.min_eq_left (by omega)]
  have hfit : ∀ idx, (idx + 1) * 8 ≤ len → (idx + 1) * 8 ≤ (List.replicate len (1 : UInt8)).length := by
    intro idx hidx
    rw [List.length_replicate]
    exact hidx
  rw [packetWrite_eq h] at hrun
  obtain ⟨n, hn⟩ : ∃ n, len / 8 = n + 1 := ⟨len / 8 - 1, by omega⟩
  rw [hn, writeLoop_succ (hfit 0 (by omega)), hdrop 0 (by omega), Nat.zero_mul,
    Nat.add_zero offset, Nat.mod_eq_of_lt (by omega)] at hrun
  -- the first chunk, or the second, comes to the beginning of the page
  by_cases h9 : 8 < offset % 16
  · have hone := writeLoop_ones rfl hrun (chipWrite_wrap (by omega))
    exact absurd (hone.symm.trans hfirst) (by decide)
  · obtain ⟨m, rfl⟩ : ∃ m, n = m + 1 := ⟨n - 1, by omega⟩
    rw [writeLoop_succ (hfit 1 (by omega)), hdrop 1 (by omega), Nat.one_mul,
      Nat.mod_eq_of_lt (by omega)] at hrun
    have hone := writeLoop_ones rfl hrun (chipWrite_wrap (by omega))
    rw [show (offset + 8) / 16 * 16 = offset / 16 * 16 by omega] at hone
    exact absurd (hone.symm.trans hfirst) (by decide)

/-- **Exactly the packets of whole chunks inside the pages** are transferred faithfully. -/
theorem faithful_iff (hmax : offset + len ≤ 256) :
    Faithful offset len ↔ 8 ∣ len ∧ (len = 0 ∨ 8 ∣ offset ∨ len = 8 ∧ offset % 16 ≤ 8) := by
  constructor
  · intro hfaithful
    have hdvd : 8 ∣ len := by
      by_contra h
      obtain ⟨chip', ret, hrun, -⟩ := hfaithful (fun _ => 0) (List.replicate len 1)
        List.length_replicate
      rw [packetWrite_none List.length_replicate h] at hrun
      cases hrun
    refine ⟨hdvd, ?_⟩
    by_contra h
    exact not_faithful hdvd hmax (by omega) hfaithful
  · rintro ⟨hdvd, h⟩
    refine faithful hmax hdvd fun j hj => ?_
    unfold InPage
    omega

theorem faithful_iff_inPage : Faithful 20 8 ↔
    8 ∣ 8 ∧ (8 = 0 ∨ 8 ∣ 20 ∨ 8 = 8 ∧ 20 % 16 ≤ 8) :=
  faithful_iff (by decide)

/-- A packet of one byte. -/
theorem not_faithful_oneByte : ¬ Faithful 0 1 := by
  intro hfaithful
  obtain ⟨chip', ret, hrun, -⟩ := hfaithful (fun _ => 0) [1] rfl
  rw [@packetWrite_none _ [1] 0 1 rfl (by decide)] at hrun
  cases hrun

end HardStack.Eeprom.Transfer
