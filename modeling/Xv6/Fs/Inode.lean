import Xv6.Fs.Layout
import Xv6.Kernel.Copy

/-!
Contract: the block and inode layers of `kernel/fs.c`, one operation after the
other.

A block is what `bread` returns: the contents the last holder of its buffer left.
`log_write` is recorded with the number of the block. A panic is an error.

Owns: `balloc`, `bfree`, the inode table with `iget`, `idup`, `ilock`, `iput`,
`ialloc` and `iupdate`, the contents with `bmap`, `itrunc`, `readi` and `writei`,
and the steps of a run of such calls.

Does not own: the device number (there is one device) and the locks. A caller
holds the lock of an inode around the calls that need it, so that an inode it
passes to `readi`, `writei` or `itrunc` is valid.
-/

namespace Xv6.Fs

open Xv6.Kernel
open Xv6.Format

/-- `struct inode` -/
structure Inode extends Dinode where
  inum : Nat
  ref : Nat
  valid : Bool

abbrev InodeId := Fin NINODE

inductive Panic where
  /-- "freeing free block" -/
  | freeingFreeBlock
  /-- "iget: no inodes" -/
  | noInodes
  /-- "ilock" -/
  | ilock
  /-- "ilock: no type" -/
  | noType
  /-- "bmap: out of range" -/
  | outOfRange
deriving DecidableEq, Repr

/-- A block that `balloc` returned, with the blocks and the inode table it found. -/
structure Allocation where
  block : Nat
  blocks : Nat → Block
  itable : InodeId → Inode

structure FileSystem where
  blocks : Nat → Block
  itable : InodeId → Inode
  /-- The calls of `log_write` so far. -/
  logged : List Nat
  /-- The blocks `balloc` has returned so far; no code reads this. -/
  allocations : List Allocation

namespace FileSystem

def logWrite (fs : FileSystem) (blockno : Nat) (data : Block) : FileSystem :=
  { fs with
    blocks := Function.update fs.blocks blockno data
    logged := fs.logged ++ [blockno] }

def setInode (fs : FileSystem) (ip : InodeId) (inode : Inode) : FileSystem :=
  { fs with itable := Function.update fs.itable ip inode }

def setAddr (fs : FileSystem) (ip : InodeId) (slot : Fin (NDIRECT + 1)) (addr : BitVec 32) :
    FileSystem :=
  fs.setInode ip { fs.itable ip with toDinode := (fs.itable ip).toDinode.setAddr slot addr }

def setSize (fs : FileSystem) (ip : InodeId) (size : BitVec 32) : FileSystem :=
  fs.setInode ip { fs.itable ip with size }

end FileSystem

variable (sb : Superblock)

/-! ## Blocks -/

def bzero (fs : FileSystem) (bno : Nat) : FileSystem := fs.logWrite bno fun _ => 0

/-- The loops of `balloc`: over the blocks of the bitmap, then over the bits of one,
up to the first that is zero. -/
def findFree (blocks : Nat → Block) : Option (Nat × Nat) :=
  ((List.range ((sb.size + BPB - 1) / BPB)).map (· * BPB)).findSome? fun b =>
    let data := blocks (sb.bblock b)
    ((List.range (min BPB (sb.size - b))).find? fun bi => data (bi / 8) &&& mask bi = 0).map
      fun bi => (b, bi)

def balloc (fs : FileSystem) : BitVec 32 × FileSystem :=
  match findFree sb fs.blocks with
  | some (b, bi) =>
      let marked := fs.logWrite (sb.bblock b) (setBit (fs.blocks (sb.bblock b)) bi)
      (BitVec.ofNat 32 (b + bi),
        { bzero marked (b + bi) with
          allocations := fs.allocations ++ [⟨b + bi, fs.blocks, fs.itable⟩] })
  | none => (0, fs)

def bfree (fs : FileSystem) (b : Nat) : Except Panic FileSystem :=
  let data := fs.blocks (sb.bblock b)
  let bi := b % BPB
  if data (bi / 8) &&& mask bi = 0 then
    .error .freeingFreeBlock
  else
    .ok (fs.logWrite (sb.bblock b) (clearBit data bi))

/-! ## Inodes -/

/-- `*dip` is assigned, with `dip` the place of inode `inum` in its block. -/
def FileSystem.writeInode (fs : FileSystem) (inum : Nat) (dinode : Dinode) : FileSystem :=
  fs.logWrite (sb.iblock inum)
    (Dinode.codec.write (fs.blocks (sb.iblock inum)) (inum % IPB * Dinode.codec.width) dinode)

def iupdate (fs : FileSystem) (ip : InodeId) : FileSystem :=
  fs.writeInode sb (fs.itable ip).inum (fs.itable ip).toDinode

def iget (fs : FileSystem) (inum : Nat) : Except Panic (InodeId × FileSystem) :=
  match (List.finRange NINODE).find? fun ip =>
      0 < (fs.itable ip).ref ∧ (fs.itable ip).inum = inum with
  | some ip => .ok (ip, fs.setInode ip { fs.itable ip with ref := (fs.itable ip).ref + 1 })
  | none =>
      -- Recycle an inode entry.
      match (List.finRange NINODE).find? fun ip => (fs.itable ip).ref = 0 with
      | some empty =>
          .ok (empty, fs.setInode empty { fs.itable empty with inum, ref := 1, valid := false })
      | none => .error .noInodes

def idup (fs : FileSystem) (ip : InodeId) : FileSystem :=
  fs.setInode ip { fs.itable ip with ref := (fs.itable ip).ref + 1 }

/-- `ialloc`; `none` when there is no free inode. -/
def ialloc (fs : FileSystem) (type : BitVec 16) : Except Panic (Option InodeId × FileSystem) :=
  match (List.range' 1 (sb.ninodes - 1)).find? fun inum => (sb.dinode fs.blocks inum).type = 0 with
  | some inum =>
      (iget (fs.writeInode sb inum { Dinode.zero with type }) inum).map fun (ip, fs) =>
      (some ip, fs)
  | none => .ok (none, fs)

def ilock (fs : FileSystem) (ip : InodeId) : Except Panic FileSystem :=
  let inode := fs.itable ip
  if inode.ref < 1 then
    .error .ilock
  else if inode.valid then
    .ok fs
  else
    let dinode := sb.dinode fs.blocks inode.inum
    if dinode.type = 0 then
      .error .noType
    else
      .ok (fs.setInode ip { dinode with inum := inode.inum, ref := inode.ref, valid := true })

/-! ## Contents -/

/-- The part of `bmap` for a number in the inode: load it, allocating if
necessary. -/
def bmapSlot (fs : FileSystem) (ip : InodeId) (slot : Fin (NDIRECT + 1)) :
    BitVec 32 × FileSystem :=
  let addr := (fs.itable ip).addrs slot
  if addr = 0 then
    let (addr, fs) := balloc sb fs
    if addr = 0 then (0, fs) else (addr, fs.setAddr ip slot addr)
  else
    (addr, fs)

/-- The part of `bmap` for a number in the indirect block at `addr`. -/
def bmapEntry (fs : FileSystem) (addr : Nat) (bn : Nat) : BitVec 32 × FileSystem :=
  let number := entry (fs.blocks addr) bn
  if number = 0 then
    let (number, fs) := balloc sb fs
    if number = 0 then
      (0, fs)
    else
      (number, fs.logWrite addr (setEntry (fs.blocks addr) bn number))
  else
    (number, fs)

/-- `bmap`; 0 if out of disk space. -/
def bmap (fs : FileSystem) (ip : InodeId) (bn : Nat) : Except Panic (BitVec 32 × FileSystem) :=
  if direct : bn < NDIRECT then
    .ok (bmapSlot sb fs ip ⟨bn, Nat.lt_succ_of_lt direct⟩)
  else if bn - NDIRECT < NINDIRECT then
    let (addr, fs) := bmapSlot sb fs ip indirect
    if addr = 0 then .ok (0, fs) else .ok (bmapEntry sb fs addr.toNat (bn - NDIRECT))
  else
    .error .outOfRange

/-- One round of the first loop of `itrunc`. -/
def truncSlot (ip : InodeId) (fs : FileSystem) (slot : Fin (NDIRECT + 1)) :
    Except Panic FileSystem :=
  let addr := (fs.itable ip).addrs slot
  if addr = 0 then
    .ok fs
  else
    (bfree sb fs addr.toNat).map fun fs => fs.setAddr ip slot 0

/-- One round of the second loop, over the indirect block at `addr`. -/
def truncEntry (addr : Nat) (fs : FileSystem) (j : Nat) : Except Panic FileSystem :=
  let number := entry (fs.blocks addr) j
  if number = 0 then .ok fs else bfree sb fs number.toNat

def truncIndirect (ip : InodeId) (fs : FileSystem) : Except Panic FileSystem :=
  let addr := (fs.itable ip).addrs indirect
  if addr = 0 then
    .ok fs
  else
    ((List.range NINDIRECT).foldlM (truncEntry sb addr.toNat) fs).bind fun fs =>
      truncSlot sb ip fs indirect

def itrunc (fs : FileSystem) (ip : InodeId) : Except Panic FileSystem :=
  (((List.finRange NDIRECT).map Fin.castSucc).foldlM (truncSlot sb ip) fs).bind fun fs =>
    (truncIndirect sb ip fs).map fun fs => iupdate sb (fs.setSize ip 0) ip

def iput (fs : FileSystem) (ip : InodeId) : Except Panic FileSystem :=
  let inode := fs.itable ip
  let freed : Except Panic FileSystem :=
    if inode.ref = 1 ∧ inode.valid ∧ inode.nlink = 0 then
      -- No links and no other references: truncate and free.
      (itrunc sb fs ip).map fun fs =>
        let fs := iupdate sb (fs.setInode ip { fs.itable ip with type := 0 }) ip
        fs.setInode ip { fs.itable ip with valid := false }
    else
      .ok fs
  freed.map fun fs => fs.setInode ip { fs.itable ip with ref := (fs.itable ip).ref - 1 }

/-- The loop of `readi`; `n` rounds are enough. -/
def readLoop (ip : InodeId) (user : Bool) (n : Nat) :
    Nat → FileSystem → Space → Nat → Nat → Nat → Except Panic (Int × Space × FileSystem)
  | 0, fs, space, _, _, tot => .ok (tot, space, fs)
  | rounds + 1, fs, space, dst, off, tot =>
      if tot < n then
        match bmap sb fs ip (off / BSIZE) with
        | .error panic => .error panic
        | .ok (addr, fs) =>
            if addr = 0 then
              .ok (tot, space, fs)
            else
              let m := min (n - tot) (BSIZE - off % BSIZE)
              let data : Bytes := fun i => fs.blocks addr.toNat (off % BSIZE + i)
              let (space, copied) := eitherCopyout space user dst data m
              if copied then
                readLoop ip user n rounds fs space (dst + m) (off + m) (tot + m)
              else
                .ok (-1, space, fs)
      else
        .ok (tot, space, fs)

def readi (fs : FileSystem) (ip : InodeId) (user : Bool) (space : Space) (dst : Nat)
    (off n : BitVec 32) : Except Panic (Int × Space × FileSystem) :=
  let size := (fs.itable ip).size
  if off > size ∨ off + n < off then
    .ok (0, space, fs)
  else
    let n := if off + n > size then size - off else n
    readLoop sb ip user n.toNat n.toNat fs space dst off.toNat 0

/-- The loop of `writei`, with `tot` and `off` at its end; `n` rounds are enough. A
block that cannot be copied in full keeps what was copied and is not logged. -/
def writeLoop (ip : InodeId) (user : Bool) (space : Space) (n : Nat) :
    Nat → FileSystem → Nat → Nat → Nat → Except Panic (Nat × Nat × FileSystem)
  | 0, fs, _, off, tot => .ok (tot, off, fs)
  | rounds + 1, fs, src, off, tot =>
      if tot < n then
        match bmap sb fs ip (off / BSIZE) with
        | .error panic => .error panic
        | .ok (addr, fs) =>
            if addr = 0 then
              .ok (tot, off, fs)
            else
              let m := min (n - tot) (BSIZE - off % BSIZE)
              let (data, copied) :=
                eitherCopyin space (fs.blocks addr.toNat) (off % BSIZE) user src m
              if copied then
                writeLoop ip user space n rounds (fs.logWrite addr.toNat data) (src + m) (off + m)
                  (tot + m)
              else
                .ok (tot, off, { fs with blocks := Function.update fs.blocks addr.toNat data })
      else
        .ok (tot, off, fs)

def writei (fs : FileSystem) (ip : InodeId) (user : Bool) (space : Space) (src : Nat)
    (off n : BitVec 32) : Except Panic (Int × FileSystem) :=
  if off > (fs.itable ip).size ∨ off + n < off then
    .ok (-1, fs)
  else if (off + n).toNat > MAXFILE * BSIZE then
    .ok (-1, fs)
  else
    match writeLoop sb ip user space n.toNat n.toNat fs src off.toNat 0 with
    | .error panic => .error panic
    | .ok (tot, off, fs) =>
        let fs :=
          if off > (fs.itable ip).size.toNat then fs.setSize ip (BitVec.ofNat 32 off) else fs
        -- The loop may have added a block to `ip->addrs[]` even if the size is the same.
        .ok (tot, iupdate sb fs ip)

/-! ## Runs -/

/-- The calls of the inode layer that the rest of the kernel makes. -/
inductive Call where
  | iget (inum : Nat)
  | idup (ip : InodeId)
  | ilock (ip : InodeId)
  | iput (ip : InodeId)
  | ialloc (type : BitVec 16)
  /-- `create`, `sys_link` and `sys_unlink` assign these and call `iupdate`. -/
  | setLinks (ip : InodeId) (major minor nlink : BitVec 16)
  | itrunc (ip : InodeId)
  | readi (ip : InodeId) (user : Bool) (space : Space) (dst : Nat) (off n : BitVec 32)
  | writei (ip : InodeId) (user : Bool) (space : Space) (src : Nat) (off n : BitVec 32)

def call (fs : FileSystem) : Call → Except Panic FileSystem
  | .iget inum => (iget fs inum).map Prod.snd
  | .idup ip => .ok (idup fs ip)
  | .ilock ip => ilock sb fs ip
  | .iput ip => iput sb fs ip
  | .ialloc type => (ialloc sb fs type).map Prod.snd
  | .setLinks ip major minor nlink =>
      .ok (iupdate sb (fs.setInode ip { fs.itable ip with major, minor, nlink }) ip)
  | .itrunc ip => itrunc sb fs ip
  | .readi ip user space dst off n => (readi sb fs ip user space dst off n).map fun r => r.2.2
  | .writei ip user space src off n => (writei sb fs ip user space src off n).map Prod.snd

/-- What the callers see to: inode numbers come from directories and are in range,
and inodes that are passed on are referenced, and valid where their contents are
used. -/
def Proper (fs : FileSystem) : Call → Prop
  | .iget inum => inum < sb.ninodes
  | .ialloc _ => True
  | .idup ip | .ilock ip | .iput ip => 0 < (fs.itable ip).ref
  | .setLinks ip .. | .itrunc ip | .readi ip .. | .writei ip .. =>
      0 < (fs.itable ip).ref ∧ (fs.itable ip).valid = true

instance (fs : FileSystem) (c : Call) : Decidable (Proper sb fs c) := by
  unfold Proper
  split <;> infer_instance

/-- The file system with an empty inode table. -/
def mount (blocks : Nat → Block) : FileSystem where
  blocks
  itable _ := { Dinode.zero with inum := 0, ref := 0, valid := false }
  logged := []
  allocations := []

inductive Reachable (blocks : Nat → Block) : FileSystem → Prop where
  | mount : Reachable blocks (mount blocks)
  | call {fs fs' : FileSystem} {c : Call} (reachable : Reachable blocks fs)
      (proper : Proper sb fs c) (returned : call sb fs c = .ok fs') : Reachable blocks fs'

/-- The calls of a list, in order, as far as they are proper and return. -/
def FileSystem.follow (fs : FileSystem) : List Call → Option FileSystem
  | [] => some fs
  | c :: calls =>
      if Proper sb fs c then
        match call sb fs c with
        | .ok next => next.follow calls
        | .error _ => none
      else
        none

variable {sb}

theorem Reachable.follow {blocks : Nat → Block} {fs fs' : FileSystem} {calls : List Call}
    (reachable : Reachable sb blocks fs) (followed : fs.follow sb calls = some fs') :
    Reachable sb blocks fs' := by
  induction calls generalizing fs with
  | nil =>
      cases followed
      exact reachable
  | cons c calls ih =>
      unfold FileSystem.follow at followed
      split at followed
      · rename_i proper
        split at followed
        · rename_i next returned
          exact ih (reachable.call proper returned) followed
        · cases followed
      · cases followed

/-- A state with a decidable property, found by following a list of calls. -/
theorem Reachable.exists_of_follow (sb : Superblock) (blocks : Nat → Block) (calls : List Call)
    (test : FileSystem → Prop) [DecidablePred test]
    (checked : ((Fs.mount blocks).follow sb calls).any (fun fs => test fs) = true) :
    ∃ fs, Reachable sb blocks fs ∧ test fs := by
  cases followed : (Fs.mount blocks).follow sb calls with
  | none =>
      rw [followed] at checked
      cases checked
  | some fs =>
      rw [followed] at checked
      exact ⟨fs, Reachable.mount.follow followed, by simpa using checked⟩

end Xv6.Fs
