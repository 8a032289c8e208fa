import Mathlib

/-! # Reading inodes and mounting in `fs/minix/minix_bs`

`bitmap.c` and `inode.c`. The structures on the disk are read byte by byte, the lowest byte first. A
buffer head is the number of its block; the kernel counts the references to each one, and giving back
what is not held is no step (`none`). The services that may fail are asked in turn: `fails` says which
of the calls do. -/

namespace HardStack.Minix.Model

def BLOCK_SIZE : ℕ := 1024
def MINIX_ROOT_INO : ℕ := 1
def MINIX_SUPER_MAGIC : ℕ := 0x137F
def MINIX_SUPER_MAGIC2 : ℕ := 0x138F
def MINIX2_SUPER_MAGIC : ℕ := 0x2468
def MINIX3_SUPER_MAGIC : ℕ := 0x4d5a
def MINIX_V1_BS : ℕ := 1
def MINIX_V2_BS : ℕ := 2
def eio : ℕ := 5
def ENOMEM : ℕ := 12
def EINVAL : ℕ := 22

/-! ### On the disk -/

/-- The bytes of a block, and of a structure in it. -/
abbrev Bytes := ℕ → UInt8

def u16 (b : Bytes) (off : ℕ) : UInt16 := UInt16.ofNat ((b off).toNat + 256 * (b (off + 1)).toNat)

def u32 (b : Bytes) (off : ℕ) : UInt32 :=
  UInt32.ofNat ((u16 b off).toNat + 65536 * (u16 b (off + 2)).toNat)

/-- `struct minix_inode`. -/
structure MinixInode where
  i_mode : UInt16
  i_uid : UInt16
  i_size : UInt32
  i_time : UInt32
  i_gid : UInt8
  i_nlinks : UInt8
  i_zone : Fin 9 → UInt16

/-- `struct minix2_inode`. -/
structure Minix2Inode where
  i_mode : UInt16
  i_nlinks : UInt16
  i_uid : UInt16
  i_gid : UInt16
  i_size : UInt32
  i_atime : UInt32
  i_mtime : UInt32
  i_ctime : UInt32
  i_zone : Fin 10 → UInt32

def MinixInode.read (b : Bytes) : MinixInode where
  i_mode := u16 b 0
  i_uid := u16 b 2
  i_size := u32 b 4
  i_time := u32 b 8
  i_gid := b 12
  i_nlinks := b 13
  i_zone := fun i => u16 b (14 + 2 * i)

def Minix2Inode.read (b : Bytes) : Minix2Inode where
  i_mode := u16 b 0
  i_nlinks := u16 b 2
  i_uid := u16 b 4
  i_gid := u16 b 6
  i_size := u32 b 8
  i_atime := u32 b 12
  i_mtime := u32 b 16
  i_ctime := u32 b 20
  i_zone := fun i => u32 b (24 + 4 * i)

/-- `sizeof(struct minix_inode)` and `sizeof(struct minix2_inode)`. -/
def sizeofMinixInode : ℕ := 32
def sizeofMinix2Inode : ℕ := 64
def MINIX_INODES_PER_BLOCK : ℕ := BLOCK_SIZE / sizeofMinixInode

/-- `struct minix_super_block`. -/
structure MinixSuperBlock where
  s_ninodes : UInt16
  s_nzones : UInt16
  s_imap_blocks : UInt16
  s_zmap_blocks : UInt16
  s_firstdatazone : UInt16
  s_log_zone_size : UInt16
  s_max_size : UInt32
  s_magic : UInt16
  s_state : UInt16
  s_zones : UInt32

def MinixSuperBlock.read (b : Bytes) : MinixSuperBlock where
  s_ninodes := u16 b 0
  s_nzones := u16 b 2
  s_imap_blocks := u16 b 4
  s_zmap_blocks := u16 b 6
  s_firstdatazone := u16 b 8
  s_log_zone_size := u16 b 10
  s_max_size := u32 b 12
  s_magic := u16 b 16
  s_state := u16 b 18
  s_zones := u32 b 20

/-! ### In memory -/

/-- `struct minix_sb_info`. The map is what `s_imap` points to; `s_zmap` points into it after
`s_imap_blocks` entries. -/
structure MinixSbInfo where
  s_ninodes : ℕ
  s_nzones : ℕ
  s_imap_blocks : ℕ
  s_zmap_blocks : ℕ
  s_firstdatazone : ℕ
  s_log_zone_size : ℕ
  s_max_size : ℕ
  map : List (Option ℕ)
  s_sbh : Option ℕ
  s_mount_state : ℕ
  s_version : ℕ

/-- `kzalloc`. -/
def MinixSbInfo.zero : MinixSbInfo := ⟨0, 0, 0, 0, 0, 0, 0, [], none, 0, 0⟩

/-- `struct inode` with the zone numbers of `struct minix_inode_info`. A time is its seconds and
nanoseconds. -/
structure Inode where
  i_mode : ℕ
  i_uid : ℕ
  i_gid : ℕ
  i_nlink : ℕ
  i_size : ℕ
  i_atime : ℕ × ℕ
  i_mtime : ℕ × ℕ
  i_ctime : ℕ × ℕ
  i_blocks : ℕ
  data : List ℕ

/-- The kernel: the blocks, which of its calls fail and how many there have been, the references to the
buffers, what has been allocated, the references to inodes and the inodes in the cache, and of the
super block `s_fs_info` and whether it is read-only. -/
structure Kernel where
  disk : ℕ → Bytes
  fails : ℕ → Bool
  calls : ℕ
  refs : ℕ → ℕ
  sbis : ℕ
  maps : ℕ
  inodes : ℕ
  cache : ℕ → Option Inode
  s_fs_info : Option MinixSbInfo
  rdonly : Bool

/-- One more call has been made. -/
def Kernel.next (k : Kernel) : Kernel := { k with calls := k.calls + 1 }

def sbBread (k : Kernel) (block : ℕ) : Option ℕ × Kernel :=
  if k.fails k.calls then (none, k.next)
  else (some block, { k.next with refs := Function.update k.refs block (k.refs block + 1) })

def brelse (k : Kernel) : Option ℕ → Option Kernel
  | none => some k
  | some bh =>
    if k.refs bh = 0 then none
    else some { k with refs := Function.update k.refs bh (k.refs bh - 1) }

/-! ### Reading an inode -/

/-- `minix_V1_raw_inode_bs`: the buffer and the place of the inode in it. -/
def minixV1RawInode (k : Kernel) (sbi : MinixSbInfo) (ino : ℕ) : Option (ℕ × ℕ) × Kernel :=
  if ino = 0 ∨ sbi.s_ninodes < ino then (none, k)
  else
    let ino := ino - 1
    let block := 2 + sbi.s_imap_blocks + sbi.s_zmap_blocks + ino / MINIX_INODES_PER_BLOCK
    match sbBread k block with
    | (none, k) => (none, k)
    | (some bh, k) => (some (bh, ino % MINIX_INODES_PER_BLOCK * sizeofMinixInode), k)

/-- `minix_V2_raw_inode_bs`. -/
def minixV2RawInode (k : Kernel) (sbi : MinixSbInfo) (ino : ℕ) : Option (ℕ × ℕ) × Kernel :=
  let minix2_inodes_per_block := BLOCK_SIZE / sizeofMinix2Inode
  if ino = 0 ∨ sbi.s_ninodes < ino then (none, k)
  else
    let ino := ino - 1
    let block := 2 + sbi.s_imap_blocks + sbi.s_zmap_blocks + ino / minix2_inodes_per_block
    match sbBread k block with
    | (none, k) => (none, k)
    | (some bh, k) => (some (bh, ino % minix2_inodes_per_block * sizeofMinix2Inode), k)

/-- What `V1_minix_iget_bs` puts into the inode. -/
def Inode.ofV1 (raw_inode : MinixInode) : Inode where
  i_mode := raw_inode.i_mode.toNat
  i_uid := raw_inode.i_uid.toNat
  i_gid := raw_inode.i_gid.toNat
  i_nlink := raw_inode.i_size.toNat
  i_size := raw_inode.i_size.toNat
  i_atime := (raw_inode.i_time.toNat, 0)
  i_mtime := (raw_inode.i_time.toNat, 0)
  i_ctime := (raw_inode.i_time.toNat, 0)
  i_blocks := 0
  data := (List.finRange 9).map fun i => (raw_inode.i_zone i).toNat

/-- What `V2_minix_iget_bs` puts into the inode. -/
def Inode.ofV2 (raw_inode : Minix2Inode) : Inode where
  i_mode := raw_inode.i_mode.toNat
  i_uid := raw_inode.i_uid.toNat
  i_gid := raw_inode.i_gid.toNat
  i_nlink := raw_inode.i_nlinks.toNat
  i_size := raw_inode.i_size.toNat
  i_atime := (raw_inode.i_atime.toNat, 0)
  i_mtime := (raw_inode.i_mtime.toNat, 0)
  i_ctime := (raw_inode.i_ctime.toNat, 0)
  i_blocks := 0
  data := (List.finRange 10).map fun i => (raw_inode.i_zone i).toNat

/-- `iget_failed`: the inode is dropped. -/
def igetFailed (k : Kernel) : Kernel := { k with inodes := k.inodes - 1 }

/-- `unlock_new_inode`: the inode can be found from now on. -/
def unlockNewInode (k : Kernel) (ino : ℕ) (inode : Inode) : Kernel :=
  { k with cache := Function.update k.cache ino (some inode) }

/-- `V1_minix_iget_bs`: the inode, or the error. -/
def V1MinixIget (k : Kernel) (sbi : MinixSbInfo) (ino : ℕ) : Option (Kernel × Except ℤ Inode) :=
  match minixV1RawInode k sbi ino with
  | (none, k) => some (igetFailed k, .error (-eio))
  | (some (bh, off), k) => do
    let inode := Inode.ofV1 (MinixInode.read fun j => k.disk bh (off + j))
    let k ← brelse k (some bh)
    some (unlockNewInode k ino inode, .ok inode)

/-- `V2_minix_iget_bs`. -/
def V2MinixIget (k : Kernel) (sbi : MinixSbInfo) (ino : ℕ) : Option (Kernel × Except ℤ Inode) :=
  match minixV2RawInode k sbi ino with
  | (none, k) => some (igetFailed k, .error (-eio))
  | (some (bh, off), k) => do
    let inode := Inode.ofV2 (Minix2Inode.read fun j => k.disk bh (off + j))
    let k ← brelse k (some bh)
    some (unlockNewInode k ino inode, .ok inode)

/-- `minix_iget_bs`; `iget_locked` gives a reference to an inode that is in the cache or is new. -/
def minixIget (k : Kernel) (sbi : MinixSbInfo) (ino : ℕ) : Option (Kernel × Except ℤ Inode) :=
  if k.fails k.calls then some (k.next, .error (-ENOMEM))
  else
    let k := { k.next with inodes := k.inodes + 1 }
    match k.cache ino with
    | some inode => some (k, .ok inode)
    | none => if sbi.s_version = MINIX_V1_BS then V1MinixIget k sbi ino else V2MinixIget k sbi ino

/-! ### Mounting -/

def kfreeSbi (k : Kernel) : Option Kernel := if k.sbis = 0 then none else some { k with sbis := k.sbis - 1 }

def kfreeMap (k : Kernel) : Option Kernel := if k.maps = 0 then none else some { k with maps := k.maps - 1 }

/-- A loop that gives back `n` buffers of a map from `pos` on. -/
def releaseLoop (map : List (Option ℕ)) : ℕ → ℕ → Kernel → Option Kernel
  | 0, _, k => some k
  | n + 1, pos, k => do
    let k ← brelse k (map.getD pos none)
    releaseLoop map n (pos + 1) k

/-- A loop that reads `n` blocks from `block` on into a map from `pos` on; it tells whether all could be
read. -/
def readLoop : ℕ → ℕ → ℕ → List (Option ℕ) → Kernel → Bool × List (Option ℕ) × Kernel
  | 0, _, _, map, k => (true, map, k)
  | n + 1, pos, block, map, k =>
    match sbBread k block with
    | (none, k) => (false, map.set pos none, k)
    | (some bh, k) => readLoop n (pos + 1) (block + 1) (map.set pos (some bh)) k

/-- The label `out`. -/
def outLabel (k : Kernel) (ret : ℤ) : Option (Kernel × ℤ) := do
  let k := { k with s_fs_info := none }
  let k ← kfreeSbi k
  some (k, ret)

/-- The label `out_release`. -/
def outRelease (k : Kernel) (bh : ℕ) (ret : ℤ) : Option (Kernel × ℤ) := do
  let k ← brelse k (some bh)
  outLabel k ret

/-- The label `out_freemap`. -/
def outFreemap (k : Kernel) (sbi : MinixSbInfo) (bh : ℕ) (ret : ℤ) : Option (Kernel × ℤ) := do
  let k ← releaseLoop sbi.map sbi.s_imap_blocks 0 k
  let k ← releaseLoop sbi.map sbi.s_zmap_blocks sbi.s_imap_blocks k
  let k ← kfreeMap k
  outRelease k bh ret

/-- `minix_set_bit_bs(0, b_data)`. -/
def minixSetBit0 (k : Kernel) : Option ℕ → Kernel
  | none => k
  | some bh => { k with
      disk := Function.update k.disk bh (Function.update (k.disk bh) 0 (k.disk bh 0 ||| 1)) }

/-- `minix_blocks_needed_bs`. -/
def minixBlocksNeeded (bits blocksize : ℕ) : ℕ :=
  (bits % 2 ^ 32 + (blocksize * 8 - 1)) % 2 ^ 32 / (blocksize * 8)

/-- The version and the number of zones; version 3 is not told from none of the known versions. -/
def readVersion (ms : MinixSuperBlock) (b_data : Bytes) : Option (ℕ × ℕ) :=
  if ms.s_magic.toNat = MINIX_SUPER_MAGIC then some (MINIX_V1_BS, ms.s_nzones.toNat)
  else if ms.s_magic.toNat = MINIX_SUPER_MAGIC2 then some (MINIX_V1_BS, ms.s_nzones.toNat)
  else if ms.s_magic.toNat = MINIX2_SUPER_MAGIC then some (MINIX_V2_BS, ms.s_zones.toNat)
  else if (u16 b_data 24).toNat = MINIX3_SUPER_MAGIC then some (0, ms.s_nzones.toNat)
  else none

/-- `sbi` after it has been filled from the superblock. -/
def fillSbi (ms : MinixSuperBlock) (bh version nzones : ℕ) : MinixSbInfo where
  s_ninodes := ms.s_ninodes.toNat
  s_nzones := nzones
  s_imap_blocks := ms.s_imap_blocks.toNat
  s_zmap_blocks := ms.s_zmap_blocks.toNat
  s_firstdatazone := ms.s_firstdatazone.toNat
  s_log_zone_size := ms.s_log_zone_size.toNat
  s_max_size := ms.s_max_size.toNat
  map := []
  s_sbh := some bh
  s_mount_state := ms.s_state.toNat
  s_version := version

/-- The state on the disk is no longer valid. -/
def clearState (k : Kernel) (bh : ℕ) : Kernel :=
  if k.rdonly then k
  else { k with
    disk := Function.update k.disk bh (Function.update (k.disk bh) 18 (k.disk bh 18 &&& 0xfe)) }

/-- `minix_fill_super_bs` from the root inode on. -/
def fillRoot (k : Kernel) (sbi : MinixSbInfo) (bh : ℕ) : Option (Kernel × ℤ) := do
  let (k, root_inode) ← minixIget k sbi MINIX_ROOT_INO
  match root_inode with
  | .error ret => outFreemap k sbi bh ret
  | .ok _ =>
    -- `d_make_root` drops the inode when it fails
    if k.fails k.calls then outFreemap { k.next with inodes := k.inodes - 1 } sbi bh (-ENOMEM)
    else some (clearState k.next bh, 0)

/-- `minix_fill_super_bs` from the allocation of the map on. -/
def fillMaps (k : Kernel) (sbi : MinixSbInfo) (bh : ℕ) : Option (Kernel × ℤ) :=
  if k.fails k.calls then outRelease k.next bh (-ENOMEM)
  else
    let k := { k.next with maps := k.maps + 1 }
    let map := List.replicate (sbi.s_imap_blocks + sbi.s_zmap_blocks) none
    match readLoop sbi.s_imap_blocks 0 2 map k with
    | (false, map, k) => outFreemap k { sbi with map := map } bh (-EINVAL)
    | (true, map, k) =>
      match readLoop sbi.s_zmap_blocks sbi.s_imap_blocks (2 + sbi.s_imap_blocks) map k with
      | (false, map, k) => outFreemap k { sbi with map := map } bh (-EINVAL)
      | (true, map, k) =>
        let k := minixSetBit0 k (map.getD 0 none)
        let k := minixSetBit0 k (map.getD sbi.s_imap_blocks none)
        let sbi := { sbi with map := map }
        if sbi.s_imap_blocks < minixBlocksNeeded sbi.s_ninodes BLOCK_SIZE then
          outFreemap k sbi bh (-EINVAL)
        else if sbi.s_zmap_blocks <
            minixBlocksNeeded (sbi.s_nzones + 2 ^ 32 - sbi.s_firstdatazone + 1) BLOCK_SIZE then
          outFreemap k sbi bh (-EINVAL)
        else fillRoot { k with s_fs_info := some sbi } sbi bh

/-- `minix_fill_super_bs`. -/
def minixFillSuper (k : Kernel) : Option (Kernel × ℤ) :=
  if k.fails k.calls then some (k.next, -ENOMEM)
  else
    let k := { k.next with sbis := k.sbis + 1, s_fs_info := some MinixSbInfo.zero }
    -- `sb_set_blocksize`
    if k.fails k.calls then outLabel k.next (-EINVAL)
    else
      match sbBread k.next 1 with
      | (none, k) => outLabel k (-EINVAL)
      | (some bh, k) =>
        let ms := MinixSuperBlock.read (k.disk bh)
        match readVersion ms (k.disk bh) with
        | none => outRelease k bh (-EINVAL)
        | some (version, nzones) =>
          let sbi := fillSbi ms bh version nzones
          let k := { k with s_fs_info := some sbi }
          if sbi.s_imap_blocks = 0 ∨ sbi.s_zmap_blocks = 0 then outRelease k bh (-EINVAL)
          else fillMaps k sbi bh

end HardStack.Minix.Model
