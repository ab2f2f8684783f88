import Xv6.Format.Codec
import Xv6.Kernel.Param

/-!
Contract: the on-disk format of `kernel/fs.h`.

Disk layout: boot block, super block, log, inode blocks, free bit map, data blocks.

Owns: the super block with its bytes and the order of the areas, `struct dinode` and
its bytes, the bitmap, entries of an indirect block, and which of these a write to a
block leaves as they are.

Does not own: the log area.
-/

namespace Xv6.Fs

open Xv6.Kernel
open Xv6.Format
open Function

abbrev Block := Bytes

/-! ## Inodes on disk -/

/-- `struct dinode` -/
@[ext]
structure Dinode where
  type : BitVec 16
  major : BitVec 16
  minor : BitVec 16
  nlink : BitVec 16
  size : BitVec 32
  addrs : Fin (NDIRECT + 1) → BitVec 32

def Dinode.fields : BitVec 16 × BitVec 16 × BitVec 16 × BitVec 16 × BitVec 32 ×
    (Fin (NDIRECT + 1) → BitVec 32) ≃ Dinode where
  toFun fields := ⟨fields.1, fields.2.1, fields.2.2.1, fields.2.2.2.1, fields.2.2.2.2.1,
    fields.2.2.2.2.2⟩
  invFun dinode := (dinode.type, dinode.major, dinode.minor, dinode.nlink, dinode.size,
    dinode.addrs)
  left_inv _ := rfl
  right_inv _ := rfl

def Dinode.codec : Codec Dinode :=
  (Codec.word16.product (Codec.word16.product (Codec.word16.product (Codec.word16.product
    (Codec.word32.product (Codec.word32.array (NDIRECT + 1))))))).map Dinode.fields

/-- `sizeof(struct dinode)` -/
example : Dinode.codec.width = 64 := rfl

/-- Inodes per block. -/
def IPB : Nat := BSIZE / Dinode.codec.width

/-- The bytes `memset(dip, 0, sizeof(*dip))` leaves. -/
def Dinode.zero : Dinode := ⟨0, 0, 0, 0, 0, fun _ => 0⟩

def indirect : Fin (NDIRECT + 1) := Fin.last NDIRECT

def Dinode.setAddr (dinode : Dinode) (slot : Fin (NDIRECT + 1)) (addr : BitVec 32) : Dinode :=
  { dinode with addrs := update dinode.addrs slot addr }

namespace Dinode

variable (dinode : Dinode) (slot : Fin (NDIRECT + 1)) (addr : BitVec 32)

@[simp] theorem addrs_setAddr_self : (dinode.setAddr slot addr).addrs slot = addr :=
  update_self ..

theorem addrs_setAddr_of_ne {slot other : Fin (NDIRECT + 1)} (different : other ≠ slot) :
    (dinode.setAddr slot addr).addrs other = dinode.addrs other :=
  update_of_ne different ..

end Dinode

/-! ## The super block -/

def FSMAGIC : BitVec 32 := 0x10203040

/-- `struct superblock` -/
structure SuperblockFields where
  magic : BitVec 32
  size : BitVec 32
  nblocks : BitVec 32
  ninodes : BitVec 32
  nlog : BitVec 32
  logstart : BitVec 32
  inodestart : BitVec 32
  bmapstart : BitVec 32
deriving DecidableEq

def SuperblockFields.fields : BitVec 32 × BitVec 32 × BitVec 32 × BitVec 32 × BitVec 32 ×
    BitVec 32 × BitVec 32 × BitVec 32 ≃ SuperblockFields where
  toFun fields := ⟨fields.1, fields.2.1, fields.2.2.1, fields.2.2.2.1, fields.2.2.2.2.1,
    fields.2.2.2.2.2.1, fields.2.2.2.2.2.2.1, fields.2.2.2.2.2.2.2⟩
  invFun sb := (sb.magic, sb.size, sb.nblocks, sb.ninodes, sb.nlog, sb.logstart, sb.inodestart,
    sb.bmapstart)
  left_inv _ := rfl
  right_inv _ := rfl

def SuperblockFields.codec : Codec SuperblockFields :=
  (Codec.word32.product (Codec.word32.product (Codec.word32.product (Codec.word32.product
    (Codec.word32.product (Codec.word32.product (Codec.word32.product
      Codec.word32))))))).map fields

def readsb (blocks : Nat → Block) : SuperblockFields := SuperblockFields.codec.read (blocks 1) 0

/-- The numbers the inode layer reads of the super block, with the areas in the order of `mkfs`. -/
structure Superblock where
  size : Nat
  nblocks : Nat
  ninodes : Nat
  inodestart : Nat
  bmapstart : Nat
  inodes_fit : inodestart + (ninodes / IPB + 1) ≤ bmapstart
  bitmap_fits : bmapstart + (size / BPB + 1) + nblocks ≤ size
  /-- Block numbers are `int` in `balloc`. -/
  size_lt : size < 2 ^ 31

def mkfsSuperblock : Superblock where
  size := FSSIZE
  nblocks := FSSIZE - (2 + LOGSIZE + (200 / IPB + 1) + (FSSIZE / BPB + 1))
  ninodes := 200
  inodestart := 2 + LOGSIZE
  bmapstart := 2 + LOGSIZE + (200 / IPB + 1)
  inodes_fit := by decide
  bitmap_fits := by decide
  size_lt := by decide

namespace Superblock

variable (sb : Superblock)

def iblock (inum : Nat) : Nat := inum / IPB + sb.inodestart

def bblock (b : Nat) : Nat := b / BPB + sb.bmapstart

def nmeta : Nat := sb.size - sb.nblocks

def IsData (b : Nat) : Prop := sb.nmeta ≤ b ∧ b < sb.size

def used (blocks : Nat → Block) (b : Nat) : Bool := bitAt (blocks (sb.bblock b)) (b % BPB)

def dinode (blocks : Nat → Block) (inum : Nat) : Dinode :=
  Dinode.codec.read (blocks (sb.iblock inum)) (inum % IPB * Dinode.codec.width)

/-! ## Areas -/

variable {sb} {blocks : Nat → Block} {b c inum : Nat} {data : Block}

theorem bitmap_below (sb : Superblock) : sb.bmapstart + (sb.size / BPB + 1) ≤ sb.nmeta :=
  Nat.le_sub_of_add_le sb.bitmap_fits

theorem bmapstart_lt_nmeta (sb : Superblock) : sb.bmapstart < sb.nmeta :=
  Nat.lt_of_lt_of_le (Nat.lt_add_of_pos_right (Nat.succ_pos _)) sb.bitmap_below

theorem iblock_lt (inRange : inum < sb.ninodes) : sb.iblock inum < sb.bmapstart := by
  have quotient : inum / IPB ≤ sb.ninodes / IPB := Nat.div_le_div_right (Nat.le_of_lt inRange)
  have fits := sb.inodes_fit
  unfold iblock
  omega

theorem bmapstart_le_bblock (sb : Superblock) (b : Nat) : sb.bmapstart ≤ sb.bblock b :=
  Nat.le_add_left _ _

theorem bblock_lt (inRange : b < sb.size) : sb.bblock b < sb.nmeta := by
  have quotient : b / BPB ≤ sb.size / BPB := Nat.div_le_div_right (Nat.le_of_lt inRange)
  have fits := sb.bitmap_below
  unfold bblock
  omega

theorem iblock_lt_nmeta (inRange : inum < sb.ninodes) : sb.iblock inum < sb.nmeta :=
  Nat.lt_trans (sb.iblock_lt inRange) sb.bmapstart_lt_nmeta

theorem nmeta_pos (sb : Superblock) : 0 < sb.nmeta :=
  Nat.zero_lt_of_lt sb.bmapstart_lt_nmeta

/-! ## What a write changes -/

theorem used_update_of_ne (different : sb.bblock b ≠ c) :
    sb.used (update blocks c data) b = sb.used blocks b := by
  rw [used, update_of_ne different, used]

theorem dinode_update_of_ne (different : sb.iblock inum ≠ c) :
    sb.dinode (update blocks c data) inum = sb.dinode blocks inum := by
  rw [dinode, update_of_ne different, dinode]

theorem used_update_data (inRange : b < sb.size) (isData : sb.nmeta ≤ c) :
    sb.used (update blocks c data) b = sb.used blocks b := by
  have inBitmap := sb.bblock_lt inRange
  exact used_update_of_ne (by omega)

theorem dinode_update_above (inRange : inum < sb.ninodes) (above : sb.bmapstart ≤ c) :
    sb.dinode (update blocks c data) inum = sb.dinode blocks inum := by
  have inArea := sb.iblock_lt inRange
  exact dinode_update_of_ne (by omega)

theorem used_update_iblock (inRange : inum < sb.ninodes) :
    sb.used (update blocks (sb.iblock inum) data) b = sb.used blocks b := by
  have inArea := sb.iblock_lt inRange
  have inBitmap := sb.bmapstart_le_bblock b
  exact used_update_of_ne (by omega)

theorem bit_place (b c : Nat) : b = c ↔ b / BPB = c / BPB ∧ b % BPB = c % BPB := by
  constructor
  · rintro rfl
    exact ⟨rfl, rfl⟩
  · rintro ⟨sameQuotient, sameRest⟩
    rw [← Nat.div_add_mod b BPB, ← Nat.div_add_mod c BPB, sameQuotient, sameRest]

theorem used_setBit (blocks : Nat → Block) (b c : Nat) :
    sb.used (update blocks (sb.bblock c)
      (setBit (blocks (sb.bblock c)) (c % BPB))) b = (decide (b = c) || sb.used blocks b) := by
  unfold used
  by_cases sameBlock : b / BPB = c / BPB
  · have same : sb.bblock b = sb.bblock c := by rw [bblock, sameBlock, bblock]
    rw [same, update_self, bitAt_setBit]
    simp [bit_place b c, sameBlock]
  · have different : sb.bblock b ≠ sb.bblock c := by
      unfold bblock
      omega
    have distinct : b ≠ c := fun same => sameBlock (by rw [same])
    simp [update_of_ne different, distinct]

theorem used_clearBit (blocks : Nat → Block) (b c : Nat) :
    sb.used (update blocks (sb.bblock c)
      (clearBit (blocks (sb.bblock c)) (c % BPB))) b = (decide (b ≠ c) && sb.used blocks b) := by
  unfold used
  by_cases sameBlock : b / BPB = c / BPB
  · have same : sb.bblock b = sb.bblock c := by rw [bblock, sameBlock, bblock]
    rw [same, update_self, bitAt_clearBit]
    simp [bit_place b c, sameBlock]
  · have different : sb.bblock b ≠ sb.bblock c := by
      unfold bblock
      omega
    have distinct : b ≠ c := fun same => sameBlock (by rw [same])
    simp [update_of_ne different, distinct]

theorem dinode_write (blocks : Nat → Block) (inum other : Nat) (value : Dinode) :
    sb.dinode (update blocks (sb.iblock inum)
      (Dinode.codec.write (blocks (sb.iblock inum)) (inum % IPB * Dinode.codec.width) value))
        other =
      if other = inum then value else sb.dinode blocks other := by
  unfold dinode
  by_cases sameBlock : other / IPB = inum / IPB
  · have same : sb.iblock other = sb.iblock inum := by rw [iblock, sameBlock, iblock]
    rw [same, update_self, Codec.read_write_entry]
    have samePlace : other % IPB = inum % IPB ↔ other = inum := by
      constructor
      · intro sameRest
        rw [← Nat.div_add_mod other IPB, ← Nat.div_add_mod inum IPB, sameBlock, sameRest]
      · rintro rfl
        rfl
    simp only [samePlace]
  · have different : sb.iblock other ≠ sb.iblock inum := by
      unfold iblock
      omega
    have distinct : other ≠ inum := fun same => sameBlock (by rw [same])
    rw [update_of_ne different, if_neg distinct]

end Superblock

/-! ## Indirect blocks -/

def entry (block : Block) (j : Nat) : BitVec 32 :=
  Codec.word32.read block (j * Codec.word32.width)

def setEntry (block : Block) (j : Nat) (value : BitVec 32) : Block :=
  Codec.word32.write block (j * Codec.word32.width) value

theorem entry_setEntry (block : Block) (i j : Nat) (value : BitVec 32) :
    entry (setEntry block i value) j = if j = i then value else entry block j :=
  Codec.read_write_entry ..

theorem entry_zero (j : Nat) : entry (fun _ => 0) j = 0 := by
  show ((0 : Byte) ++ (0 : Byte) ++ (0 : Byte) ++ (0 : Byte) : BitVec 32) = 0
  decide

end Xv6.Fs
