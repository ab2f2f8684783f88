import Xv6.Fs.Layout
import Xv6.Fs.Path
import Xv6.Kernel.Copy

/-!
Contract: `mkfs/mkfs.c`, which builds a file system image from files of the host.

`xshort` and `xint` give the bytes of an integer in the order of the target; here they are the
codecs of `Fs.Layout`. A `uint` is a number modulo `2 ^ 32`.

Owns: the sectors of the image with `rsect` and `wsect`, `winode`, `rinode`, `ialloc`, `balloc`,
`iappend` and `main`, with the ways in which `mkfs` ends before `exit(0)`.

Does not own: failures of the host to position or to write the image, which end `mkfs` with
`exit(1)`, and what `mkfs` prints.
-/

namespace Xv6.Mkfs

open Xv6.Kernel
open Xv6.Format
open Xv6.Fs (Block Dinode Dirent Name SuperblockFields FSMAGIC IPB indirect entry setEntry strncmp
  dot dotdot slash)

def NINODES : Nat := 200

/-- Why `mkfs` does not come to `exit(0)`. -/
inductive Stop where
  /-- "Usage: mkfs fs.img files..." -/
  | usage
  /-- `die(argv[i])` -/
  | cannotOpen (i : Nat)
  /-- `die("read")` -/
  | read
  /-- `assert(rootino == ROOTINO)` -/
  | rootino
  /-- `assert(index(shortname, '/') == 0)` -/
  | slashInName
  /-- `assert(fbn < MAXFILE)` -/
  | fileTooLarge
  /-- `assert(used < BSIZE*8)` -/
  | bitmapTooSmall
deriving DecidableEq, Repr

/-! ## The super block -/

def nlog : Nat := LOGSIZE

def ninodeblocks : Nat := NINODES / IPB + 1

def nbitmap : Nat := FSSIZE / (BSIZE * 8) + 1

def nmeta : Nat := 2 + nlog + ninodeblocks + nbitmap

def nblocks : Nat := FSSIZE - nmeta

def sb : SuperblockFields where
  magic := FSMAGIC
  size := BitVec.ofNat 32 FSSIZE
  nblocks := BitVec.ofNat 32 nblocks
  ninodes := BitVec.ofNat 32 NINODES
  nlog := BitVec.ofNat 32 nlog
  logstart := 2
  inodestart := BitVec.ofNat 32 (2 + nlog)
  bmapstart := BitVec.ofNat 32 (2 + nlog + ninodeblocks)

/-! ## Sectors -/

/-- The variables of `mkfs` that outlive a call, with the file `fsfd`. -/
structure State where
  blocks : Nat → Block
  /-- The size of the file in blocks. -/
  sectors : Nat
  freeinode : Nat
  freeblock : Nat

/-- The block at `sec * BSIZE`, which is a `uint`. -/
def position (sec : Nat) : Nat := sec * BSIZE % 2 ^ 32 / BSIZE

def wsect (s : State) (sec : Nat) (buf : Block) : State :=
  { s with
    blocks := Function.update s.blocks (position sec) buf
    sectors := max s.sectors (position sec + 1) }

def rsect (s : State) (sec : Nat) : Except Stop Block :=
  if position sec < s.sectors then .ok (s.blocks (position sec)) else .error .read

/-! ## Inodes -/

def iblock (inum : Nat) : Nat := inum / IPB + sb.inodestart.toNat

def winode (s : State) (inum : Nat) (ip : Dinode) : Except Stop State := do
  let bn := iblock inum
  let buf ← rsect s bn
  pure (wsect s bn (Dinode.codec.write buf (inum % IPB * Dinode.codec.width) ip))

def rinode (s : State) (inum : Nat) : Except Stop Dinode := do
  let buf ← rsect s (iblock inum)
  pure (Dinode.codec.read buf (inum % IPB * Dinode.codec.width))

def ialloc (s : State) (type : BitVec 16) : Except Stop (Nat × State) := do
  let inum := s.freeinode
  let s ← winode { s with freeinode := (inum + 1) % 2 ^ 32 } inum
    { Dinode.zero with type, nlink := 1 }
  pure (inum, s)

/-- `balloc`: the first `used` blocks have been allocated. -/
def balloc (s : State) (used : Nat) : Except Stop State :=
  if used < BSIZE * 8 then
    .ok (wsect s sb.bmapstart.toNat ((List.range used).foldl setBit fun _ => 0))
  else
    .error .bitmapTooSmall

/-! ## Contents -/

/-- `freeblock++` -/
def State.nextBlock (s : State) : State := { s with freeblock := (s.freeblock + 1) % 2 ^ 32 }

/-- A number in the inode, allocated if it is 0. -/
def fillSlot (s : State) (din : Dinode) (slot : Fin (NDIRECT + 1)) : Dinode × State :=
  if din.addrs slot = 0 then
    (din.setAddr slot (BitVec.ofNat 32 s.freeblock), s.nextBlock)
  else
    (din, s)

/-- Number `j` in the indirect block, allocated if it is 0. -/
def fillEntry (s : State) (pointer j : Nat) : Except Stop (BitVec 32 × State) := do
  let numbers ← rsect s pointer
  if entry numbers j = 0 then
    let numbers := setEntry numbers j (BitVec.ofNat 32 s.freeblock)
    pure (entry numbers j, wsect s.nextBlock pointer numbers)
  else
    pure (entry numbers j, s)

/-- The part of `iappend` that finds block `fbn` of the contents, `x`. -/
def findBlock (s : State) (din : Dinode) (fbn : Nat) :
    Except Stop (BitVec 32 × Dinode × State) :=
  if direct : fbn < NDIRECT then
    let slot : Fin (NDIRECT + 1) := ⟨fbn, Nat.lt_succ_of_lt direct⟩
    let (din, s) := fillSlot s din slot
    .ok (din.addrs slot, din, s)
  else do
    let (din, s) := fillSlot s din indirect
    let (x, s) ← fillEntry s (din.addrs indirect).toNat (fbn - NDIRECT)
    pure (x, din, s)

/-- The loop of `iappend`; `n` rounds are enough. -/
def appendLoop : Nat → State → Dinode → Nat → Bytes → Nat → Except Stop (State × Dinode × Nat)
  | 0, s, din, off, _, _ => .ok (s, din, off)
  | rounds + 1, s, din, off, p, n =>
      if 0 < n then
        let fbn := off / BSIZE
        if fbn < MAXFILE then do
          let (x, din, s) ← findBlock s din fbn
          let n1 := min n ((fbn + 1) * BSIZE - off)
          let buf ← rsect s x.toNat
          let buf := memmove buf (off - fbn * BSIZE) p n1
          appendLoop rounds (wsect s x.toNat buf) din (off + n1) (fun i => p (n1 + i)) (n - n1)
        else
          .error .fileTooLarge
      else
        .ok (s, din, off)

def iappend (s : State) (inum : Nat) (p : Bytes) (n : Nat) : Except Stop State := do
  let din ← rinode s inum
  let (s, din, off) ← appendLoop n s din din.size.toNat p n
  winode s inum { din with size := BitVec.ofNat 32 off }

/-- `iappend(inum, &de, sizeof(de))` -/
def appendDirent (s : State) (inum : Nat) (de : Dirent) : Except Stop State :=
  iappend s inum (Dirent.codec.encode de) Dirent.codec.width

/-! ## The command line -/

structure Arg where
  bytes : List Byte
  noNul : 0 ∉ bytes

/-- What one `read(fd, buf, sizeof(buf))` with a positive result returns. -/
structure Chunk where
  bytes : List Byte
  nonempty : bytes ≠ []
  fits : bytes.length ≤ BSIZE

structure Host where
  /-- `argv[1]` can be opened. -/
  creates : Bool
  /-- What the calls of `read` on `argv[i]` return before the last one, unless the file cannot
  be opened. -/
  reads : Nat → Option (List Chunk)

def userDirectory : List Byte := [0x75, 0x73, 0x65, 0x72, 0x2f]

def underscore : Byte := 0x5f

def stripUser (name : List Byte) : List Byte :=
  if strncmp (Name.ofList name) (Name.ofList userDirectory) 5 = 0 then name.drop 5 else name

def stripUnderscore (name : List Byte) : List Byte :=
  if name.head? = some underscore then name.tail else name

def shortname (arg : Arg) : List Byte := stripUnderscore (stripUser arg.bytes)

def appendChunks (inum : Nat) : State → List Chunk → Except Stop State
  | s, [] => .ok s
  | s, chunk :: chunks => do
      let s ← iappend s inum (fun i => chunk.bytes.getD i 0) chunk.bytes.length
      appendChunks inum s chunks

/-- The round of the loop of `main` for `argv[i]`. -/
def addFile (host : Host) (rootino : Nat) (s : State) (i : Nat) (arg : Arg) : Except Stop State :=
  if slash ∈ stripUser arg.bytes then
    .error .slashInName
  else
    match host.reads i with
    | none => .error (.cannotOpen i)
    | some chunks => do
        let (inum, s) ← ialloc s T_FILE
        let s ← appendDirent s rootino (Dirent.ofName (Name.ofList (shortname arg)) inum)
        appendChunks inum s chunks

/-- The loop of `main`, from `argv[i]` on. -/
def addFiles (host : Host) (rootino : Nat) : State → Nat → List Arg → Except Stop State
  | s, _, [] => .ok s
  | s, i, arg :: args => do
      let s ← addFile host rootino s i arg
      addFiles host rootino s (i + 1) args

def fixRoot (s : State) (rootino : Nat) : Except Stop State := do
  let din ← rinode s rootino
  let off := din.size.toNat
  let off := (off / BSIZE + 1) * BSIZE
  winode s rootino { din with size := BitVec.ofNat 32 off }

/-- The image after `open` with `O_TRUNC`, before the first `ialloc`. -/
def format : State :=
  let s := (List.range FSSIZE).foldl (fun s i => wsect s i fun _ => 0)
    { blocks := fun _ _ => 0, sectors := 0, freeinode := 1, freeblock := nmeta }
  wsect s 1 (SuperblockFields.codec.write (fun _ => 0) 0 sb)

/-- `main`, up to `exit(0)`. -/
def main (argv : List Arg) (host : Host) : Except Stop State :=
  if argv.length < 2 then
    .error .usage
  else if host.creates then do
    let (rootino, s) ← ialloc format T_DIR
    if rootino = ROOTINO then
      let s ← appendDirent s rootino (Dirent.ofName dot rootino)
      let s ← appendDirent s rootino (Dirent.ofName dotdot rootino)
      let s ← addFiles host rootino s 2 (argv.drop 2)
      let s ← fixRoot s rootino
      balloc s s.freeblock
    else
      .error .rootino
  else
    .error (.cannotOpen 1)

end Xv6.Mkfs
