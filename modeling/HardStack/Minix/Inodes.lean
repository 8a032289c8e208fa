import HardStack.Minix.Mount

/-! # What the inode table says and what is read from it

A table holds the encodings of the inodes one after the other. A record lies in one block, and the
decoded record is the encoded one. Everything of it comes into the inode as it is, but for the link
count of version 1, which is taken from the size. -/

namespace HardStack.Minix.Inodes

open HardStack.Minix.Model HardStack.Minix.Mount

variable {b : Bytes} {off ino j : ℕ} {k k' : Kernel} {sbi : MinixSbInfo} {disk : ℕ → Bytes}
  {ms : MinixSuperBlock}

/-! ### Records -/

/-- Byte `j` of a number. -/
def byteOf (x j : ℕ) : UInt8 := UInt8.ofNat (x / 256 ^ j)

/-- The encoding of an inode of version 1. -/
def bytesV1 (i : MinixInode) (j : ℕ) : UInt8 :=
  if j < 2 then byteOf i.i_mode.toNat j
  else if j < 4 then byteOf i.i_uid.toNat (j - 2)
  else if j < 8 then byteOf i.i_size.toNat (j - 4)
  else if j < 12 then byteOf i.i_time.toNat (j - 8)
  else if j < 13 then i.i_gid
  else if j < 14 then i.i_nlinks
  else byteOf (i.i_zone (Fin.ofNat 9 ((j - 14) / 2))).toNat ((j - 14) % 2)

/-- The encoding of an inode of version 2. -/
def bytesV2 (i : Minix2Inode) (j : ℕ) : UInt8 :=
  if j < 2 then byteOf i.i_mode.toNat j
  else if j < 4 then byteOf i.i_nlinks.toNat (j - 2)
  else if j < 6 then byteOf i.i_uid.toNat (j - 4)
  else if j < 8 then byteOf i.i_gid.toNat (j - 6)
  else if j < 12 then byteOf i.i_size.toNat (j - 8)
  else if j < 16 then byteOf i.i_atime.toNat (j - 12)
  else if j < 20 then byteOf i.i_mtime.toNat (j - 16)
  else if j < 24 then byteOf i.i_ctime.toNat (j - 20)
  else byteOf (i.i_zone (Fin.ofNat 10 ((j - 24) / 4))).toNat ((j - 24) % 4)

theorem u16_eq {x : UInt16} (h0 : b off = byteOf x.toNat 0) (h1 : b (off + 1) = byteOf x.toNat 1) :
    u16 b off = x := by
  have hx := x.toNat_lt
  refine UInt16.toNat_inj.mp ?_
  unfold u16 byteOf at *
  rw [h0, h1, UInt16.toNat_ofNat', UInt8.toNat_ofNat', UInt8.toNat_ofNat']
  omega

theorem u32_eq {x : UInt32} (h : ∀ j < 4, b (off + j) = byteOf x.toNat j) : u32 b off = x := by
  have hx := x.toNat_lt
  have h0 := h 0 (by decide)
  have h1 := h 1 (by decide)
  have h2 := h 2 (by decide)
  have h3 := h 3 (by decide)
  refine UInt32.toNat_inj.mp ?_
  unfold u32 u16 byteOf at *
  rw [Nat.add_zero] at h0
  rw [Nat.add_assoc off 2 1, h0, h1, h2, h3, UInt32.toNat_ofNat', UInt16.toNat_ofNat', UInt16.toNat_ofNat',
    UInt8.toNat_ofNat', UInt8.toNat_ofNat', UInt8.toNat_ofNat', UInt8.toNat_ofNat']
  omega

/-- **Round trip** of a record of version 1. -/
theorem readV1 {i : MinixInode} (h : ∀ j < 32, b j = bytesV1 i j) : MinixInode.read b = i := by
  have hzone : ∀ n : Fin 9, u16 b (14 + 2 * n) = i.i_zone n := by
    intro n
    have hn := n.isLt
    have hidx : ∀ m < 2, Fin.ofNat 9 ((14 + 2 * n + m - 14) / 2) = n := by
      intro m hm
      refine Fin.ext ?_
      show (14 + 2 * n + m - 14) / 2 % 9 = n
      omega
    refine u16_eq ?_ ?_
    · rw [h _ (by omega)]
      unfold bytesV1
      simp only [show ¬ 14 + 2 * (n : ℕ) < 2 by omega, show ¬ 14 + 2 * (n : ℕ) < 4 by omega,
        show ¬ 14 + 2 * (n : ℕ) < 8 by omega, show ¬ 14 + 2 * (n : ℕ) < 12 by omega,
        show ¬ 14 + 2 * (n : ℕ) < 13 by omega, show ¬ 14 + 2 * (n : ℕ) < 14 by omega, if_false]
      have := hidx 0 (by decide)
      rw [Nat.add_zero] at this
      rw [this, show (14 + 2 * (n : ℕ) - 14) % 2 = 0 by omega]
    · rw [h _ (by omega)]
      unfold bytesV1
      simp only [show ¬ 14 + 2 * (n : ℕ) + 1 < 2 by omega, show ¬ 14 + 2 * (n : ℕ) + 1 < 4 by omega,
        show ¬ 14 + 2 * (n : ℕ) + 1 < 8 by omega, show ¬ 14 + 2 * (n : ℕ) + 1 < 12 by omega,
        show ¬ 14 + 2 * (n : ℕ) + 1 < 13 by omega, show ¬ 14 + 2 * (n : ℕ) + 1 < 14 by omega, if_false]
      rw [hidx 1 (by decide), show (14 + 2 * (n : ℕ) + 1 - 14) % 2 = 1 by omega]
  have hmode : u16 b 0 = i.i_mode := u16_eq (h 0 (by decide)) (h 1 (by decide))
  have huid : u16 b 2 = i.i_uid := u16_eq (h 2 (by decide)) (h 3 (by decide))
  have hsize : u32 b 4 = i.i_size := u32_eq fun j hj => by
    rw [h _ (by omega)]
    interval_cases j <;> rfl
  have htime : u32 b 8 = i.i_time := u32_eq fun j hj => by
    rw [h _ (by omega)]
    interval_cases j <;> rfl
  have hgid : b 12 = i.i_gid := h 12 (by decide)
  have hnlinks : b 13 = i.i_nlinks := h 13 (by decide)
  unfold MinixInode.read
  rw [hmode, huid, hsize, htime, hgid, hnlinks, funext hzone]

/-- **Round trip** of a record of version 2. -/
theorem readV2 {i : Minix2Inode} (h : ∀ j < 64, b j = bytesV2 i j) : Minix2Inode.read b = i := by
  have hzone : ∀ n : Fin 10, u32 b (24 + 4 * n) = i.i_zone n := by
    intro n
    have hn := n.isLt
    refine u32_eq fun m hm => ?_
    have hidx : Fin.ofNat 10 ((24 + 4 * n + m - 24) / 4) = n := by
      refine Fin.ext ?_
      show (24 + 4 * n + m - 24) / 4 % 10 = n
      omega
    rw [h _ (by omega)]
    unfold bytesV2
    simp only [show ¬ 24 + 4 * (n : ℕ) + m < 2 by omega, show ¬ 24 + 4 * (n : ℕ) + m < 4 by omega,
      show ¬ 24 + 4 * (n : ℕ) + m < 6 by omega, show ¬ 24 + 4 * (n : ℕ) + m < 8 by omega,
      show ¬ 24 + 4 * (n : ℕ) + m < 12 by omega, show ¬ 24 + 4 * (n : ℕ) + m < 16 by omega,
      show ¬ 24 + 4 * (n : ℕ) + m < 20 by omega, show ¬ 24 + 4 * (n : ℕ) + m < 24 by omega, if_false]
    rw [hidx, show (24 + 4 * (n : ℕ) + m - 24) % 4 = m by omega]
  have hmode : u16 b 0 = i.i_mode := u16_eq (h 0 (by decide)) (h 1 (by decide))
  have hnlinks : u16 b 2 = i.i_nlinks := u16_eq (h 2 (by decide)) (h 3 (by decide))
  have huid : u16 b 4 = i.i_uid := u16_eq (h 4 (by decide)) (h 5 (by decide))
  have hgid : u16 b 6 = i.i_gid := u16_eq (h 6 (by decide)) (h 7 (by decide))
  have hsize : u32 b 8 = i.i_size := u32_eq fun j hj => by
    rw [h _ (by omega)]
    interval_cases j <;> rfl
  have hatime : u32 b 12 = i.i_atime := u32_eq fun j hj => by
    rw [h _ (by omega)]
    interval_cases j <;> rfl
  have hmtime : u32 b 16 = i.i_mtime := u32_eq fun j hj => by
    rw [h _ (by omega)]
    interval_cases j <;> rfl
  have hctime : u32 b 20 = i.i_ctime := u32_eq fun j hj => by
    rw [h _ (by omega)]
    interval_cases j <;> rfl
  unfold Minix2Inode.read
  rw [hmode, hnlinks, huid, hgid, hsize, hatime, hmtime, hctime, funext hzone]

/-! ### The table -/

/-- The inodes of a file system of one version or the other. -/
inductive Table
  | v1 (inodes : ℕ → MinixInode)
  | v2 (inodes : ℕ → Minix2Inode)

namespace Table

def version : Table → ℕ
  | v1 _ => MINIX_V1_BS
  | v2 _ => MINIX_V2_BS

def size : Table → ℕ
  | v1 _ => sizeofMinixInode
  | v2 _ => sizeofMinix2Inode

def bytes : Table → ℕ → Bytes
  | v1 inodes, ino => bytesV1 (inodes ino)
  | v2 inodes, ino => bytesV2 (inodes ino)

/-- The inode in memory that is encoded for `ino`. -/
def inode : Table → ℕ → Inode
  | v1 inodes, ino => { Inode.ofV1 (inodes ino) with i_nlink := (inodes ino).i_nlinks.toNat }
  | v2 inodes, ino => Inode.ofV2 (inodes ino)

/-- What the code makes of the inode that is encoded for `ino`. -/
def read : Table → ℕ → Inode
  | v1 inodes, ino => Inode.ofV1 (inodes ino)
  | v2 inodes, ino => Inode.ofV2 (inodes ino)

/-- In version 1 every inode has as many links as it has bytes. -/
def Agrees (ms : MinixSuperBlock) : Table → Prop
  | v1 inodes => ∀ ino, 1 ≤ ino → ino ≤ ms.s_ninodes.toNat →
      (inodes ino).i_nlinks.toNat = (inodes ino).i_size.toNat
  | v2 _ => True

end Table

/-- The file system of a superblock. -/
def sbiOf (ms : MinixSuperBlock) (table : Table) : MinixSbInfo := fillSbi ms 1 table.version ms.s_nzones.toNat

/-- The place of the table: after the bitmaps. -/
def tableStart (ms : MinixSuperBlock) : ℕ :=
  (2 + ms.s_imap_blocks.toNat + ms.s_zmap_blocks.toNat) * BLOCK_SIZE

/-- The byte at a place of the disk. -/
def diskByte (disk : ℕ → Bytes) (pos : ℕ) : UInt8 := disk (pos / BLOCK_SIZE) (pos % BLOCK_SIZE)

/-- The disk holds the encodings of the inodes in order. -/
def OnDisk (disk : ℕ → Bytes) (ms : MinixSuperBlock) (table : Table) : Prop :=
  ∀ ino, 1 ≤ ino → ino ≤ ms.s_ninodes.toNat → ∀ j < table.size,
    diskByte disk (tableStart ms + table.size * (ino - 1) + j) = table.bytes ino j

/-- The record of an inode: its buffer and the place in it. -/
def rawInode (k : Kernel) (sbi : MinixSbInfo) (ino : ℕ) : Option (ℕ × ℕ) × Kernel :=
  if sbi.s_version = MINIX_V1_BS then minixV1RawInode k sbi ino else minixV2RawInode k sbi ino

/-- The states after calls of `minix_iget_bs`. -/
inductive Served (sbi : MinixSbInfo) (k₀ : Kernel) : Kernel → Prop
  | refl : Served sbi k₀ k₀
  | step {k k' : Kernel} {ino : ℕ} {r : Except ℤ Inode} (h : Served sbi k₀ k)
      (hs : minixIget k sbi ino = some (k', r)) : Served sbi k₀ k'

/-- A service has failed during a call. -/
def Failed (k k' : Kernel) : Prop := ∃ n, k.calls ≤ n ∧ n < k'.calls ∧ k.fails n = true

/-- **Inodes are read faithfully**: after any calls, a call for an inode of the table yields the inode
that is encoded for it unless a service fails, a call for another one fails, and the records of
different inodes are apart. -/
def Faithful (disk : ℕ → Bytes) (ms : MinixSuperBlock) (table : Table) : Prop :=
  ∀ k₀ : Kernel, k₀.disk = disk → (∀ ino, k₀.cache ino = none) → ∀ k, Served (sbiOf ms table) k₀ k →
    (∀ ino, ∃ k' r, minixIget k (sbiOf ms table) ino = some (k', r) ∧
      (1 ≤ ino ∧ ino ≤ ms.s_ninodes.toNat → r = .ok (table.inode ino) ∨ Failed k k') ∧
      (¬ (1 ≤ ino ∧ ino ≤ ms.s_ninodes.toNat) → ∃ e, r = .error e)) ∧
    ∀ ino ino' block off block' off', ino ≠ ino' →
      (rawInode k (sbiOf ms table) ino).1 = some (block, off) →
      (rawInode k (sbiOf ms table) ino').1 = some (block', off') →
      block * BLOCK_SIZE + off + table.size ≤ block' * BLOCK_SIZE + off' ∨
        block' * BLOCK_SIZE + off' + table.size ≤ block * BLOCK_SIZE + off

variable {table : Table}

/-! ### One call -/

theorem size_pos_dvd (table : Table) : 0 < table.size ∧ table.size ∣ BLOCK_SIZE := by
  cases table with
  | v1 inodes => exact ⟨show 0 < 32 by decide, show 32 ∣ 1024 by decide⟩
  | v2 inodes => exact ⟨show 0 < 64 by decide, show 64 ∣ 1024 by decide⟩

theorem version_v1 (ms : MinixSuperBlock) (inodes : ℕ → MinixInode) :
    (sbiOf ms (.v1 inodes)).s_version = MINIX_V1_BS := rfl

theorem version_v2 (ms : MinixSuperBlock) (inodes : ℕ → Minix2Inode) :
    (sbiOf ms (.v2 inodes)).s_version ≠ MINIX_V1_BS := by
  show MINIX_V2_BS ≠ MINIX_V1_BS
  decide

/-- Both versions look for a record in the same way. -/
theorem rawInode_eq (k : Kernel) (ms : MinixSuperBlock) (table : Table) (ino : ℕ) :
    rawInode k (sbiOf ms table) ino =
      if ino = 0 ∨ ms.s_ninodes.toNat < ino then (none, k)
      else match sbBread k (2 + ms.s_imap_blocks.toNat + ms.s_zmap_blocks.toNat +
          (ino - 1) / (BLOCK_SIZE / table.size)) with
        | (none, k) => (none, k)
        | (some bh, k) => (some (bh, (ino - 1) % (BLOCK_SIZE / table.size) * table.size), k) := by
  cases table with
  | v1 inodes =>
    unfold rawInode
    rw [if_pos (version_v1 ms inodes)]
    rfl
  | v2 inodes =>
    unfold rawInode
    rw [if_neg (version_v2 ms inodes)]
    rfl

/-- A record is not found because its number is not in the table or a service fails, or it is found. -/
theorem rawInode_cases (k : Kernel) (ms : MinixSuperBlock) (table : Table) (ino : ℕ) :
    (¬ (1 ≤ ino ∧ ino ≤ ms.s_ninodes.toNat) ∧ rawInode k (sbiOf ms table) ino = (none, k)) ∨
    (k.fails k.calls = true ∧ rawInode k (sbiOf ms table) ino = (none, k.next)) ∨
    ∃ block off k', (1 ≤ ino ∧ ino ≤ ms.s_ninodes.toNat) ∧
      rawInode k (sbiOf ms table) ino = (some (block, off), k') ∧ Same k k' ∧
      (∀ b, k'.refs b = plus k.refs block b) ∧
      block * BLOCK_SIZE + off = tableStart ms + table.size * (ino - 1) ∧ off + table.size ≤ BLOCK_SIZE := by
  rw [rawInode_eq]
  by_cases hrange : ino = 0 ∨ ms.s_ninodes.toNat < ino
  · rw [if_pos hrange]
    exact Or.inl ⟨by omega, rfl⟩
  rw [if_neg hrange]
  right
  set block := 2 + ms.s_imap_blocks.toNat + ms.s_zmap_blocks.toNat + (ino - 1) / (BLOCK_SIZE / table.size)
    with hblock
  by_cases hfail : k.fails k.calls = true
  · left
    have hread : sbBread k block = (none, k.next) := if_pos hfail
    rw [hread]
    exact ⟨hfail, rfl⟩
  · right
    obtain hread | ⟨k', hread, hsame, hrefs⟩ := sbBread_cases k block
    · have hread' : sbBread k block = (some block, _) := if_neg hfail
      rw [hread'] at hread
      cases hread
    rw [hread]
    refine ⟨block, _, k', by omega, rfl, hsame, hrefs, ?_⟩
    obtain ⟨hpos, per, hper⟩ := size_pos_dvd table
    have hdiv : BLOCK_SIZE / table.size = per := by
      rw [hper]
      exact Nat.mul_div_cancel_left per hpos
    have hperpos : 0 < per := by
      rcases Nat.eq_zero_or_pos per with rfl | h
      · exact absurd hper (by rw [Nat.mul_zero]; decide)
      · exact h
    rw [hblock, hdiv]
    have hdm := Nat.div_add_mod (ino - 1) per
    have hlt := Nat.mod_lt (ino - 1) hperpos
    constructor
    · unfold tableStart
      rw [Nat.add_mul, Nat.add_assoc]
      congr 1
      calc (ino - 1) / per * BLOCK_SIZE + (ino - 1) % per * table.size
          = table.size * (per * ((ino - 1) / per) + (ino - 1) % per) := by
            rw [hper]
            ring
        _ = table.size * (ino - 1) := by rw [hdm]
    · calc (ino - 1) % per * table.size + table.size
          = table.size * ((ino - 1) % per + 1) := by ring
        _ ≤ table.size * per := Nat.mul_le_mul_left _ hlt
        _ = BLOCK_SIZE := hper.symm

/-- The inode that is decoded from a record. -/
def decode : Table → Bytes → Inode
  | .v1 _, b => Inode.ofV1 (MinixInode.read b)
  | .v2 _, b => Inode.ofV2 (Minix2Inode.read b)

/-- The record at its place on the disk is that of the inode. -/
theorem decode_eq (h : OnDisk disk ms table) (hino : 1 ≤ ino ∧ ino ≤ ms.s_ninodes.toNat) {block off : ℕ}
    (hplace : block * BLOCK_SIZE + off = tableStart ms + table.size * (ino - 1))
    (hfit : off + table.size ≤ BLOCK_SIZE) : decode table (fun j => disk block (off + j)) = table.read ino := by
  have hbytes : ∀ j < table.size, disk block (off + j) = table.bytes ino j := by
    intro j hj
    rw [← h ino hino.1 hino.2 j hj, ← hplace]
    unfold diskByte
    rw [show (block * BLOCK_SIZE + off + j) / BLOCK_SIZE = block from Nat.div_eq_of_lt_le (by omega)
        (by rw [Nat.add_mul]; omega), Nat.add_assoc, Nat.mul_add_mod', Nat.mod_eq_of_lt (by omega)]
  cases table with
  | v1 inodes => exact congrArg Inode.ofV1 (readV1 hbytes)
  | v2 inodes => exact congrArg Inode.ofV2 (readV2 hbytes)

theorem minixIget_eq (k : Kernel) (ms : MinixSuperBlock) (table : Table) (ino : ℕ)
    (hfail : ¬ k.fails k.calls = true) (hnew : k.cache ino = none) :
    minixIget k (sbiOf ms table) ino =
      match rawInode { k.next with inodes := k.inodes + 1 } (sbiOf ms table) ino with
      | (none, k) => some (igetFailed k, .error (-eio))
      | (some (bh, off), k) => (brelse k (some bh)).bind fun k' =>
        some (unlockNewInode k' ino (decode table fun j => k.disk bh (off + j)),
          .ok (decode table fun j => k.disk bh (off + j))) := by
  have hcache : k.next.cache ino = none := hnew
  unfold minixIget
  rw [if_neg hfail]
  dsimp only
  rw [hcache]
  cases table with
  | v1 inodes =>
    unfold rawInode
    rw [if_pos (version_v1 ms inodes), if_pos (version_v1 ms inodes)]
    rfl
  | v2 inodes =>
    unfold rawInode
    rw [if_neg (version_v2 ms inodes), if_neg (version_v2 ms inodes)]
    rfl

/-- What is in the cache has been read from the table. -/
structure Consistent (disk : ℕ → Bytes) (ms : MinixSuperBlock) (table : Table) (k : Kernel) : Prop where
  disk : k.disk = disk
  cache : ∀ ino inode, k.cache ino = some inode →
    (1 ≤ ino ∧ ino ≤ ms.s_ninodes.toNat) ∧ inode = table.read ino

/-- **A call** for an inode of the table gives what the code makes of it, or a service fails. -/
theorem minixIget_table (h : OnDisk disk ms table) (hk : Consistent disk ms table k) (ino : ℕ) :
    ∃ k' r, minixIget k (sbiOf ms table) ino = some (k', r) ∧ Consistent disk ms table k' ∧
      (1 ≤ ino ∧ ino ≤ ms.s_ninodes.toNat → r = .ok (table.read ino) ∨ Failed k k') ∧
      (¬ (1 ≤ ino ∧ ino ≤ ms.s_ninodes.toNat) → ∃ e, r = .error e) := by
  by_cases hfail : k.fails k.calls = true
  · refine ⟨k.next, .error (-ENOMEM), if_pos hfail, ⟨hk.disk, hk.cache⟩, fun _ => Or.inr ?_, fun _ => ⟨_, rfl⟩⟩
    exact ⟨k.calls, le_rfl, Nat.lt_succ_self _, hfail⟩
  rcases hcache : k.cache ino with _ | inode
  · rw [minixIget_eq k ms table ino hfail hcache]
    set k₁ : Kernel := { k.next with inodes := k.inodes + 1 } with hk₁
    have hcons₁ : Consistent disk ms table k₁ := ⟨hk.disk, hk.cache⟩
    rcases rawInode_cases k₁ ms table ino with ⟨hout, hraw⟩ | ⟨hfail₁, hraw⟩ |
      ⟨block, off, k₂, hin, hraw, hsame, hrefs, hplace, hfit⟩
    · rw [hraw]
      exact ⟨igetFailed k₁, _, rfl, ⟨hk.disk, hk.cache⟩, fun hin => absurd hin hout, fun _ => ⟨_, rfl⟩⟩
    · rw [hraw]
      refine ⟨igetFailed k₁.next, _, rfl, ⟨hk.disk, hk.cache⟩, fun _ => Or.inr ?_, fun _ => ⟨_, rfl⟩⟩
      exact ⟨k.calls + 1, Nat.le_succ _, Nat.lt_succ_self _, hfail₁⟩
    · obtain ⟨k₃, hrel, hsame₃, -⟩ := brelse_spec hrefs
      have hdecode : decode table (fun j => k₂.disk block (off + j)) = table.read ino := by
        rw [hsame.disk, hcons₁.disk]
        exact decode_eq h hin hplace hfit
      rw [hraw]
      dsimp only
      rw [hrel, hdecode]
      refine ⟨unlockNewInode k₃ ino (table.read ino), _, rfl, ⟨?_, fun ino' inode' hc => ?_⟩,
        fun _ => Or.inl rfl, fun hout => absurd hin hout⟩
      · exact hsame₃.disk.trans (hsame.disk.trans hk.disk)
      · change Function.update k₃.cache ino (some (table.read ino)) ino' = some inode' at hc
        by_cases hino : ino' = ino
        · rw [hino, Function.update_self] at hc
          rw [hino]
          exact ⟨hin, (Option.some.inj hc).symm⟩
        · rw [Function.update_of_ne hino, hsame₃.cache, hsame.cache] at hc
          exact hk.cache ino' inode' hc
  · obtain ⟨hin, rfl⟩ := hk.cache ino inode hcache
    have hcache' : k.next.cache ino = some (table.read ino) := hcache
    refine ⟨{ k.next with inodes := k.inodes + 1 }, .ok (table.read ino), ?_, ⟨hk.disk, hk.cache⟩,
      fun _ => Or.inl rfl, fun hout => absurd hin hout⟩
    unfold minixIget
    rw [if_neg hfail]
    dsimp only
    rw [hcache']

theorem Served.consistent (h : OnDisk disk ms table) {k₀ : Kernel} (h₀ : Consistent disk ms table k₀)
    (hs : Served (sbiOf ms table) k₀ k) : Consistent disk ms table k := by
  induction hs with
  | refl => exact h₀
  | step hserved hstep ih =>
    obtain ⟨k', r, hrun, hcons, -⟩ := minixIget_table h ih _
    rw [hrun] at hstep
    cases hstep
    exact hcons

/-! ### All calls -/

/-- The one field that may differ. -/
theorem read_eq_iff (table : Table) (ms : MinixSuperBlock) : table.Agrees ms ↔
    ∀ ino, 1 ≤ ino → ino ≤ ms.s_ninodes.toNat → table.read ino = table.inode ino := by
  cases table with
  | v1 inodes =>
    refine forall₃_congr fun ino _ _ => ⟨fun heq => ?_, fun heq => ?_⟩
    · unfold Table.read Table.inode
      dsimp only
      rw [heq]
      rfl
    · exact (congrArg Inode.i_nlink heq).symm
  | v2 inodes => exact iff_of_true trivial fun _ _ _ => rfl

/-- A faithful reading shows in the calls of a kernel in which nothing fails. -/
theorem Faithful.read_eq (h : OnDisk disk ms table) (hfaithful : Faithful disk ms table) (h1 : 1 ≤ ino)
    (hn : ino ≤ ms.s_ninodes.toNat) : table.read ino = table.inode ino := by
  obtain ⟨hcalls, -⟩ := hfaithful ⟨disk, fun _ => false, 0, fun _ => 0, 0, 0, 0, fun _ => none, none, false⟩ rfl
    (fun _ => rfl) _ Served.refl
  obtain ⟨k', r, hrun, hin, -⟩ := hcalls ino
  obtain ⟨k'', r', hrun', -, hin', -⟩ := minixIget_table (k := ⟨disk, fun _ => false, 0, fun _ => 0, 0, 0, 0,
    fun _ => none, none, false⟩) h ⟨rfl, fun _ _ hc => by cases hc⟩ ino
  rw [hrun] at hrun'
  cases hrun'
  rcases hin ⟨h1, hn⟩ with heq | ⟨n, -, -, hf⟩
  · rcases hin' ⟨h1, hn⟩ with heq' | ⟨n, -, -, hf⟩
    · exact Except.ok.inj (heq'.symm.trans heq)
    · cases hf
  · cases hf

/-- **Inodes are read faithfully** exactly if the file system is of version 2, or all inodes of the
table have as many links as bytes. -/
theorem faithful_iff_agrees (h : OnDisk disk ms table) : Faithful disk ms table ↔ table.Agrees ms := by
  rw [read_eq_iff]
  constructor
  · exact fun hfaithful ino h1 hn => hfaithful.read_eq h h1 hn
  · intro hagrees k₀ hdisk hcache k hserved
    have hcons := hserved.consistent h ⟨hdisk, fun ino inode hc => by rw [hcache] at hc; cases hc⟩
    constructor
    · intro ino
      obtain ⟨k', r, hrun, -, hin, hout⟩ := minixIget_table h hcons ino
      exact ⟨k', r, hrun, fun hino => by rw [← hagrees ino hino.1 hino.2]; exact hin hino, hout⟩
    · intro ino ino' block off block' off' hne hraw hraw'
      have hplace : ∀ {ino block off : ℕ}, (rawInode k (sbiOf ms table) ino).1 = some (block, off) →
          1 ≤ ino ∧ block * BLOCK_SIZE + off = tableStart ms + table.size * (ino - 1) := by
        intro ino block off hraw
        rcases rawInode_cases k ms table ino with ⟨-, heq⟩ | ⟨-, heq⟩ | ⟨b, o, k₂, hin, heq, -, -, hpl, -⟩
        · rw [heq] at hraw
          cases hraw
        · rw [heq] at hraw
          cases hraw
        · rw [heq] at hraw
          cases hraw
          exact ⟨hin.1, hpl⟩
      obtain ⟨h1, hp⟩ := hplace hraw
      obtain ⟨h1', hp'⟩ := hplace hraw'
      rw [hp, hp', Nat.add_assoc, Nat.add_assoc, Nat.add_le_add_iff_left, Nat.add_le_add_iff_left,
        ← Nat.mul_succ, ← Nat.mul_succ]
      rcases Nat.lt_or_ge ino ino' with hlt | hge
      · exact Or.inl (Nat.mul_le_mul_left _ (by omega))
      · exact Or.inr (Nat.mul_le_mul_left _ (by omega))

/-! ### A file of five bytes -/

def fiveBytes : MinixInode := ⟨0x81a4, 0, 5, 0, 0, 1, fun _ => 0⟩
def smallSuper : MinixSuperBlock := ⟨1, 16, 1, 1, 5, 0, 0x10081c00, 0x137f, 1, 0⟩
def smallTable : Table := .v1 fun _ => fiveBytes
def smallDisk : ℕ → Bytes := fun block off => if block = 4 then bytesV1 fiveBytes off else 0

theorem small_onDisk : OnDisk smallDisk smallSuper smallTable := by
  intro ino h1 hn j hj
  have hstart : tableStart smallSuper = 4096 := rfl
  have hsize : smallTable.size = 32 := rfl
  have hino : ino = 1 := le_antisymm hn h1
  rw [hsize] at hj
  unfold diskByte BLOCK_SIZE
  rw [hstart, hino, Nat.sub_self, Nat.mul_zero, Nat.add_zero, show (4096 + j) / 1024 = 4 by omega,
    show (4096 + j) % 1024 = j by omega]
  rfl

theorem faithful_iff_agrees_small : OnDisk smallDisk smallSuper smallTable ∧
    (Faithful smallDisk smallSuper smallTable ↔ smallTable.Agrees smallSuper) :=
  ⟨small_onDisk, faithful_iff_agrees small_onDisk⟩

/-- The file has one link, and five are read. -/
theorem not_faithful_fiveBytes : OnDisk smallDisk smallSuper smallTable ∧
    ¬ Faithful smallDisk smallSuper smallTable := by
  refine ⟨small_onDisk, fun hfaithful => ?_⟩
  have hlinks := congrArg Inode.i_nlink (hfaithful.read_eq small_onDisk le_rfl (show 1 ≤ 1 from le_rfl))
  exact absurd hlinks (by decide)

end HardStack.Minix.Inodes
