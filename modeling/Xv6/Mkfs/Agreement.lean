import Xv6.Mkfs.Main

/-!
Contract: the image of `mkfs` and the kernel.

Owns: when the image is a well-formed file system, that the kernel's invariants for the blocks
hold of it then and in every run, and that the kernel finds every file by its short name and
reads its bytes.

Does not own: `bmap`, `readi` and `dirlookup` (`Fs.Inode`, `Fs.Reading`).
-/

namespace Xv6.Mkfs

open Xv6.Kernel
open Xv6.Format
open Xv6.Fs
open Xv6.Programs

/-! ## A well-formed image -/

/-- The image is a file system in order. -/
structure InOrder (s : State) : Prop where
  /-- The inodes that were taken are in the table. -/
  numbers : ∀ inum, 1 ≤ inum → inum < s.freeinode → inum < mkfsSuperblock.ninodes
  mapped : ∀ inum, inum < mkfsSuperblock.ninodes → ∀ bn,
    bn < ((mkfsSuperblock.dinode s.blocks inum).size.toNat + BSIZE - 1) / BSIZE →
      ∃ inFile : bn < MAXFILE, mkfsSuperblock.IsData
        (held s.blocks (mkfsSuperblock.dinode s.blocks inum) (contentSlot ⟨bn, inFile⟩)).toNat
  single : ∀ inum other, inum < mkfsSuperblock.ninodes → other < mkfsSuperblock.ninodes →
    ∀ slot place, held s.blocks (mkfsSuperblock.dinode s.blocks inum) slot ≠ 0 →
      held s.blocks (mkfsSuperblock.dinode s.blocks inum) slot =
        held s.blocks (mkfsSuperblock.dinode s.blocks other) place → inum = other ∧ slot = place
  bitmap : ∀ b, b < mkfsSuperblock.size → (mkfsSuperblock.used s.blocks b = true ↔
    b < mkfsSuperblock.nmeta ∨ ∃ inum slot, inum < mkfsSuperblock.ninodes ∧
      held s.blocks (mkfsSuperblock.dinode s.blocks inum) slot ≠ 0 ∧
        (held s.blocks (mkfsSuperblock.dinode s.blocks inum) slot).toNat = b)

section Order

variable {s : State} {contents : Nat → List Byte} {count inum : Nat} {argv : List Arg}

theorem Finished.isData (finished : Finished s contents count)
    (inRange : inum < mkfsSuperblock.ninodes) {slot : Slot}
    (number : held s.blocks (mkfsSuperblock.dinode s.blocks inum) slot ≠ 0) :
    mkfsSuperblock.IsData (held s.blocks (mkfsSuperblock.dinode s.blocks inum) slot).toNat := by
  obtain ⟨low, high⟩ := finished.volume.of_held inRange slot number
  exact ⟨low, Nat.lt_of_lt_of_le high finished.small⟩

/-- Blocks below the size that was written are there. -/
theorem Finished.held_of_lt (finished : Finished s contents count) {bn : Nat}
    (inRange : inum < mkfsSuperblock.ninodes) (below : bn * BSIZE < (contents inum).length) :
    ∃ inFile : bn < MAXFILE,
      held s.blocks (mkfsSuperblock.dinode s.blocks inum) (contentSlot ⟨bn, inFile⟩) ≠ 0 := by
  have isBlock : bn * BSIZE / BSIZE = bn := Nat.mul_div_cancel bn (by decide)
  obtain ⟨inFile, number, _⟩ := finished.kept inum inRange (bn * BSIZE) _
    (List.getElem?_eq_getElem below)
  simp only [isBlock] at inFile number
  exact ⟨inFile, number⟩

/-- The blocks below the size of an inode, unless the root directory ends with a block. -/
theorem Finished.mapped (finished : Finished s contents count)
    (partialBlock : (contents ROOTINO).length % BSIZE ≠ 0)
    (inRange : inum < mkfsSuperblock.ninodes) :
    MappedTo s.blocks (mkfsSuperblock.dinode s.blocks inum)
      (mkfsSuperblock.dinode s.blocks inum).size.toNat := by
  intro bn below
  refine finished.held_of_lt inRange ?_
  by_cases isRoot : inum = ROOTINO
  · rw [isRoot, finished.rootSize] at below
    rw [isRoot]
    unfold BSIZE at *
    omega
  · rwa [finished.sizes inum inRange isRoot] at below

theorem Finished.wellFormed (finished : Finished s contents count)
    (partialBlock : (contents ROOTINO).length % BSIZE ≠ 0) :
    WellFormed mkfsSuperblock s.blocks := by
  have inVolume : mkfsSuperblock.nmeta ≤ FSSIZE := nmeta_le
  refine ⟨fun b isMeta => ?_, ⟨fun place b isHeld => ?_, fun place b isHeld => ?_,
    finished.volume.owned.single, fun b isData isUsed => ?_⟩, fun inum inRange isFree slot => ?_,
    fun inum inRange => finished.mapped partialBlock inRange⟩
  · rw [finished.bitmap b (by omega)]
    exact decide_eq_true (Nat.lt_of_lt_of_le isMeta finished.volume.low)
  · exact ⟨finished.volume.owned.inside place b isHeld,
      Nat.lt_of_lt_of_le (finished.volume.owned.marked place b isHeld) finished.small⟩
  · have below := finished.volume.owned.marked place b isHeld
    rw [finished.bitmap b (Nat.lt_of_lt_of_le below finished.small)]
    exact decide_eq_true below
  · rw [finished.bitmap b isData.2] at isUsed
    exact finished.volume.owned.complete b isData.1 (of_decide_eq_true isUsed)
  · have isUnused : inum = 0 ∨ count < inum := by
      rw [finished.types inum inRange, kind] at isFree
      by_contra inUse
      rw [if_neg inUse] at isFree
      split at isFree
      · exact absurd isFree (by decide)
      · exact absurd isFree (by decide)
    have isShaped := finished.shaped inum inRange (.addr slot)
    rw [finished.unused inum isUnused] at isShaped
    exact Decidable.not_not.mp fun number => absurd (isShaped.mp number) (Nat.not_lt_zero _)

theorem Finished.inOrder (finished : Finished s contents count)
    (partialBlock : (contents ROOTINO).length % BSIZE ≠ 0) : InOrder s := by
  refine ⟨fun inum _ taken => ?_, fun inum inRange bn below => ?_, ?_, fun b inVolume => ?_⟩
  · have table := finished.inTable
    have freeinode := finished.freeinode
    omega
  · obtain ⟨inFile, number⟩ := finished.mapped partialBlock inRange bn (by
      unfold BSIZE at *
      omega)
    exact ⟨inFile, finished.isData inRange number⟩
  · intro inum other inRange otherInRange slot place number same
    obtain ⟨sameInode, sameSlot⟩ := finished.volume.same_place inRange otherInRange slot
      place number
      (congrArg BitVec.toNat same.symm)
    exact ⟨sameInode.symm, sameSlot.symm⟩
  · rw [finished.bitmap b inVolume, decide_eq_true_eq]
    constructor
    · intro below
      by_cases isMeta : b < mkfsSuperblock.nmeta
      · exact .inl isMeta
      · obtain ⟨⟨inum, slot⟩, isHeld⟩ := finished.volume.owned.complete b (Nat.le_of_not_lt isMeta)
          below
        exact .inr ⟨inum, slot, holds_eq_some.mp isHeld⟩
    · rintro (isMeta | ⟨inum, slot, inRange, number, rfl⟩)
      · exact Nat.lt_of_lt_of_le isMeta finished.volume.low
      · exact (finished.volume.of_held inRange slot number).2

/-- A root directory that ends with a block gets a block that is not there. -/
theorem Finished.not_inOrder (finished : Finished s contents count)
    (wholeBlock : (contents ROOTINO).length % BSIZE = 0) : ¬ InOrder s := by
  intro inOrder
  have inRange : ROOTINO < mkfsSuperblock.ninodes := by decide
  obtain ⟨inFile, isData⟩ := inOrder.mapped ROOTINO inRange ((contents ROOTINO).length / BSIZE) (by
    rw [finished.rootSize]
    unfold BSIZE
    omega)
  have isShaped := finished.shaped ROOTINO inRange
    (contentSlot ⟨(contents ROOTINO).length / BSIZE, inFile⟩)
  rw [first_contentSlot] at isShaped
  have unmapped : held s.blocks (mkfsSuperblock.dinode s.blocks ROOTINO)
      (contentSlot ⟨(contents ROOTINO).length / BSIZE, inFile⟩) = 0 := by
    refine Decidable.not_not.mp fun number => ?_
    have below := isShaped.mp number
    dsimp only at below
    unfold BSIZE at *
    omega
  rw [unmapped] at isData
  exact IsData.pos isData rfl

theorem rootEntries_length (usage : 2 ≤ argv.length) :
    (rootEntries argv).length = argv.length := by
  rw [rootEntries, List.length_append, entriesFrom_length, List.length_drop]
  show 2 + (argv.length - 2) = argv.length
  omega

theorem rootBytes_length (usage : 2 ≤ argv.length) (host : Host) (count : Nat) :
    (contentsOf host (rootEntries argv) count ROOTINO).length =
    argv.length * Dirent.codec.width := by
  rw [contentsOf_root, direntBytes_length, rootEntries_length usage]

/-- **When `mkfs` makes a well-formed file system.** The image at `exit(0)` is in order if and
only if there are inodes for the files and the entries of the root directory, with "." and
"..", do not fill its blocks. -/
theorem image_in_order_iff {argv : List Arg} {host : Host} {s : State}
    (made : main argv host = .ok s) :
    InOrder s ↔ argv.length - 2 ≤ NINODES - 2 ∧
      (argv.length - 2 + 2) % (BSIZE / Dirent.codec.width) ≠ 0 := by
  obtain ⟨usage, freeinode⟩ := (main_counts argv host).of_ok made
  have perBlock : BSIZE / Dirent.codec.width = 64 := rfl
  have width : Dirent.codec.width = 16 := rfl
  have table : mkfsSuperblock.ninodes = NINODES := rfl
  rw [perBlock]
  by_cases few : argv.length ≤ NINODES
  · have finished := (main_spec usage few).of_ok made
    have length := rootBytes_length usage host (argv.length - 1)
    rw [width] at length
    constructor
    · intro inOrder
      refine ⟨by omega, fun whole => finished.not_inOrder ?_ inOrder⟩
      rw [length]
      unfold BSIZE
      omega
    · rintro ⟨_, notWhole⟩
      refine finished.inOrder ?_
      rw [length]
      unfold BSIZE
      omega
  · constructor
    · intro inOrder
      have inTable := inOrder.numbers NINODES (by decide) (by omega)
      rw [table] at inTable
      exact absurd inTable (Nat.lt_irrefl _)
    · rintro ⟨isFew, _⟩
      unfold NINODES at *
      omega

def letter : Arg := ⟨[0x61], by decide⟩

/-- A host on which every file can be opened and is empty. -/
def emptyFiles : Host := ⟨true, fun _ => some []⟩

/-- Files that are small enough, and together fit in the image. -/
theorem fits_rootEntries {host : Host} (usage : 2 ≤ argv.length) (few : argv.length ≤ NINODES)
    (small : ∀ i, 2 ≤ i → i < argv.length → (fileBytes host i).length ≤ MAXFILE * BSIZE)
    (fit : nmeta + blocksFor (argv.length * Dirent.codec.width) +
      ∑ i ∈ Finset.Ico 2 argv.length, blocksFor (fileBytes host i).length ≤ FSSIZE) :
    Fits (contentsOf host (rootEntries argv) (argv.length - 1)) := by
  have root := rootBytes_length usage host (argv.length - 1)
  have file : ∀ i, 2 ≤ i → i < argv.length →
      contentsOf host (rootEntries argv) (argv.length - 1) i = fileBytes host i :=
    fun i isFile inList => contentsOf_file isFile (by omega)
  have other : ∀ inum, inum = 0 ∨ argv.length ≤ inum →
      contentsOf host (rootEntries argv) (argv.length - 1) inum = [] := by
    intro inum isOther
    rw [contentsOf, if_neg (by unfold ROOTINO; omega), if_neg (by omega)]
  constructor
  · intro inum _
    by_cases isRoot : inum = ROOTINO
    · have width : Dirent.codec.width = 16 := rfl
      rw [isRoot, root, width]
      unfold MAXFILE NDIRECT NINDIRECT BSIZE
      unfold NINODES at few
      omega
    · by_cases isFile : 2 ≤ inum ∧ inum < argv.length
      · rw [file inum isFile.1 isFile.2]
        exact small inum isFile.1 isFile.2
      · rw [other inum (by unfold ROOTINO at isRoot; omega)]
        exact Nat.zero_le _
  · have inTable : Finset.Ico 1 argv.length ⊆ Finset.range mkfsSuperblock.ninodes := by
      intro inum member
      have bounds := Finset.mem_Ico.mp member
      exact Finset.mem_range.mpr (Nat.lt_of_lt_of_le bounds.2 few)
    have total : needed (contentsOf host (rootEntries argv) (argv.length - 1)) =
        blocksFor (argv.length * Dirent.codec.width) +
          ∑ i ∈ Finset.Ico 2 argv.length, blocksFor (fileBytes host i).length := by
      rw [needed, ← Finset.sum_subset inTable, Finset.sum_eq_sum_Ico_succ_bot (by omega)]
      · refine congrArg₂ (· + ·) (congrArg blocksFor root) (Finset.sum_congr rfl fun i member => ?_)
        have bounds := Finset.mem_Ico.mp member
        rw [file i bounds.1 bounds.2]
      · intro inum _ notUsed
        rw [Finset.mem_Ico] at notUsed
        rw [other inum (by omega)]
        decide
    rw [total]
    omega

theorem main_letters {n : Nat} (usage : 2 ≤ n) (few : n ≤ NINODES) :
    ∃ s, main (List.replicate n letter) emptyFiles = .ok s := by
  have length : (List.replicate n letter).length = n := List.length_replicate ..
  refine (main_spec (by rwa [length]) (by rwa [length])).exists_ok ⟨rfl, ?_, ?_⟩
  · intro k arg isArg
    rw [List.getElem?_drop] at isArg
    obtain ⟨_, rfl⟩ := List.mem_replicate.mp (List.mem_of_getElem? isArg)
    exact ⟨by decide, rfl⟩
  · refine fits_rootEntries (by rwa [length]) (by rwa [length]) (fun _ _ _ => Nat.zero_le _) ?_
    have nothing : ∑ i ∈ Finset.Ico 2 (List.replicate n letter).length,
        blocksFor (fileBytes emptyFiles i).length = 0 :=
      Finset.sum_eq_zero fun _ _ => (by decide : blocksFor 0 = 0)
    have width : Dirent.codec.width = 16 := rfl
    have isMeta : nmeta = 46 := rfl
    rw [nothing, length, width, isMeta]
    unfold blocksFor NDIRECT BSIZE FSSIZE
    unfold NINODES at few
    split <;> omega

def greeting : Chunk := ⟨[0x68, 0x69], by decide, by decide⟩

/-- An image with the file "hi", on which the kernel has appended "!!!" to the file. -/
theorem greeting_exists : ∃ s fs,
    main (List.replicate 3 letter) ⟨true, fun _ => some [greeting]⟩ = .ok s ∧
    Reachable mkfsSuperblock s.blocks fs ∧
    content fs.blocks (mkfsSuperblock.dinode fs.blocks 2) = [0x68, 0x69, 0x21, 0x21, 0x21] := by
  have checked : (main (List.replicate 3 letter) ⟨true, fun _ => some [greeting]⟩).toOption.any
      (fun s => ((mount s.blocks).follow mkfsSuperblock [.iget 2, .ilock ⟨0, zero_lt_NINODE⟩,
        .writei ⟨0, zero_lt_NINODE⟩ false ⟨fun _ => false, fun _ => 0x21⟩ 0 2 3]).any fun fs =>
          content fs.blocks (mkfsSuperblock.dinode fs.blocks 2) =
            [0x68, 0x69, 0x21, 0x21, 0x21]) = true := by
    unfold main
    rw [format_eq]
    decide +kernel
  cases made : main (List.replicate 3 letter) ⟨true, fun _ => some [greeting]⟩ with
  | error stop =>
      rw [made] at checked
      cases checked
  | ok s =>
      rw [made] at checked
      obtain ⟨fs, reachable, isContent⟩ :=
        Reachable.exists_of_follow mkfsSuperblock s.blocks _ _ checked
      exact ⟨s, fs, rfl, reachable, isContent⟩

theorem image_in_order_oneFile : ∃ s,
    main (List.replicate 3 letter) ⟨true, fun _ => some [greeting]⟩ = .ok s ∧ InOrder s := by
  obtain ⟨s, -, made, -⟩ := greeting_exists
  exact ⟨s, made, (image_in_order_iff made).mpr (by decide)⟩

/-- With 62 files the root directory has 64 entries, which fill its one block; its size is
two blocks. -/
theorem sixty_two_files : ∃ s, main (List.replicate 64 letter) emptyFiles = .ok s ∧
    ¬ InOrder s := by
  obtain ⟨s, made⟩ := main_letters (by decide : 2 ≤ 64) (by decide)
  refine ⟨s, made, ((main_spec (by decide) (by decide)).of_ok made).not_inOrder ?_⟩
  rw [rootBytes_length (by decide)]
  decide

/-- **The kernel runs on an image of `mkfs`.** If there are inodes for the files and the root
directory does not end with a block, then after every run of calls of the inode layer on the
image the disk is well-formed again, the inodes in memory are those on disk, and no call frees
a free block. -/
theorem image_stays_well_formed {argv : List Arg} {host : Host} {fs : FileSystem}
    (made : main argv host = .ok s) (few : argv.length ≤ NINODES)
    (partialBlock : argv.length % (BSIZE / Dirent.codec.width) ≠ 0)
    (reachable : Reachable mkfsSuperblock s.blocks fs) :
    WellFormed mkfsSuperblock fs.blocks ∧
      (∀ ip, 0 < (fs.itable ip).ref → (fs.itable ip).valid = true →
        (fs.itable ip).toDinode = mkfsSuperblock.dinode fs.blocks (fs.itable ip).inum) ∧
      ∀ c, Proper mkfsSuperblock fs c → call mkfsSuperblock fs c ≠ .error .freeingFreeBlock := by
  obtain ⟨usage, -⟩ := (main_counts argv host).of_ok made
  have finished := (main_spec usage few).of_ok made
  have notWhole : argv.length * Dirent.codec.width % BSIZE ≠ 0 := by
    have width : Dirent.codec.width = 16 := rfl
    rw [width] at partialBlock ⊢
    unfold BSIZE at *
    omega
  rw [← rootBytes_length usage host (argv.length - 1)] at notWhole
  have ready := reachable.ready (finished.wellFormed notWhole)
  refine ⟨ready.sound, fun ip live valid => (ready.coherent.copies ip id live valid).1,
    fun c proper freed => ?_⟩
  rcases ready.call proper with ⟨fs', result, -⟩ | full | unallocated
  · rw [result] at freed
    cases freed
  · rw [full] at freed
    cases freed
  · rw [unallocated] at freed
    cases freed

theorem image_stays_well_formed_oneFile : ∃ s fs,
    main (List.replicate 3 letter) ⟨true, fun _ => some [greeting]⟩ = .ok s ∧
    Reachable mkfsSuperblock s.blocks fs ∧
    content fs.blocks (mkfsSuperblock.dinode fs.blocks 2) = [0x68, 0x69, 0x21, 0x21, 0x21] ∧
    WellFormed mkfsSuperblock fs.blocks := by
  obtain ⟨s, fs, made, reachable, isContent⟩ := greeting_exists
  exact ⟨s, fs, made, reachable, isContent,
    (image_stays_well_formed made (by decide) (by decide) reachable).1⟩

end Order

/-! ## What the kernel reads -/

/-- The fields of the super block are the numbers that the inode layer uses. -/
def Describes (fields : SuperblockFields) (sb : Superblock) : Prop :=
  fields.magic = FSMAGIC ∧ fields.size.toNat = sb.size ∧ fields.nblocks.toNat = sb.nblocks ∧
    fields.ninodes.toNat = sb.ninodes ∧ fields.inodestart.toNat = sb.inodestart ∧
      fields.bmapstart.toNat = sb.bmapstart

/-- `dirlookup` on the root directory of a file system that was just mounted. -/
def rootLookup (sb : Superblock) (blocks : Nat → Block) (name : Name) :
    Except DirectoryPanic (Option (InodeId × Nat) × FileSystem) :=
  match iget (mount blocks) ROOTINO with
  | .error panic => .error (.inode panic)
  | .ok (dp, fs) =>
      match ilock sb fs dp with
      | .error panic => .error (.inode panic)
      | .ok fs => dirlookup sb fs dp name

/-- The root directory has the inode under this name. -/
def Resolves (blocks : Nat → Block) (name : Name) (inum : Nat) : Prop :=
  ∃ ip off fs, rootLookup mkfsSuperblock blocks name = .ok (some (ip, off), fs) ∧
    (fs.itable ip).inum = inum ∧ 0 < (fs.itable ip).ref

/-- The kernel finds an inode under the name, and `readi` of all of it returns these bytes. -/
def Finds (blocks : Nat → Block) (name : Name) (inum : Nat) (content : List Byte) : Prop :=
  ∃ ip off fs fs', rootLookup mkfsSuperblock blocks name = .ok (some (ip, off), fs) ∧
    (fs.itable ip).inum = inum ∧ ilock mkfsSuperblock fs ip = .ok fs' ∧
    (fs'.itable ip).size.toNat = content.length ∧
    ∀ user space dst, Writable space user dst content.length →
      readi mkfsSuperblock fs' ip user space dst 0 (fs'.itable ip).size =
        .ok (content.length, space.store dst (fun i => content.getD i 0) content.length, fs')

section Reading

variable {s : State} {contents : Nat → List Byte} {count inum k : Nat} {name : List Byte}
  {argv : List Arg}

def rootEntry : InodeId := ⟨0, zero_lt_NINODE⟩

def fileSlot : InodeId := ⟨1, one_lt_NINODE⟩

/-- An entry that `iget` has recycled. -/
def recycled (inum : Nat) : Inode :=
  { toDinode := Dinode.zero, inum := inum, ref := 1, valid := false }

def loaded (blocks : Nat → Block) (inum : Nat) : Inode :=
  { toDinode := mkfsSuperblock.dinode blocks inum, inum := inum, ref := 1, valid := true }

theorem itable_setInode (fs : FileSystem) (ip : InodeId) (inode : Inode) :
    (fs.setInode ip inode).itable ip = inode := Function.update_self ..

theorem ilock_recycled (fs : FileSystem) (ip : InodeId)
    (typed : (mkfsSuperblock.dinode fs.blocks inum).type ≠ 0) :
    ilock mkfsSuperblock (fs.setInode ip (recycled inum)) ip =
      .ok (fs.setInode ip (loaded fs.blocks inum)) := by
  unfold ilock
  simp only [itable_setInode]
  rw [if_neg (show ¬ (recycled inum).ref < 1 from Nat.lt_irrefl 1),
    if_neg (show ¬ (recycled inum).valid = true from Bool.false_ne_true)]
  refine (if_neg typed).trans (congrArg Except.ok ?_)
  exact fs.setInode_setInode _ _

/-- The inode table with the root directory alone, locked once. -/
def rooted (blocks : Nat → Block) : FileSystem :=
  (mount blocks).setInode rootEntry (loaded blocks ROOTINO)

theorem rootLookup_eq (blocks : Nat → Block) (name : Name)
    (typed : (mkfsSuperblock.dinode blocks ROOTINO).type ≠ 0) :
    rootLookup mkfsSuperblock blocks name =
      dirlookup mkfsSuperblock (rooted blocks) rootEntry name := by
  have got : iget (mount blocks) ROOTINO =
      .ok (rootEntry, (mount blocks).setInode rootEntry (recycled ROOTINO)) := rfl
  have locked := ilock_recycled (mount blocks) rootEntry typed
  unfold rootLookup
  rw [got]
  dsimp only
  rw [locked]
  rfl

theorem iget_rooted (blocks : Nat → Block) (notRoot : inum ≠ ROOTINO) :
    iget (rooted blocks) inum =
      .ok (fileSlot, (rooted blocks).setInode fileSlot (recycled inum)) := by
  have absent : ((List.finRange NINODE).find? fun ip =>
      0 < ((rooted blocks).itable ip).ref ∧ ((rooted blocks).itable ip).inum = inum) = none := by
    rw [List.find?_eq_none]
    rintro ip _ isEntry
    obtain ⟨live, same⟩ := of_decide_eq_true isEntry
    by_cases isRoot : ip = rootEntry
    · rw [isRoot, rooted, itable_setInode] at same
      exact notRoot same.symm
    · have isFree : (rooted blocks).itable ip = (mount blocks).itable ip :=
        Function.update_of_ne isRoot ..
      rw [isFree] at live
      exact absurd live (Nat.lt_irrefl 0)
  have next : ((List.finRange NINODE).find? fun ip => ((rooted blocks).itable ip).ref = 0) =
      some fileSlot := rfl
  unfold iget
  rw [absent, next]
  rfl

theorem Finished.lookup (finished : Finished s contents count) (hasRoot : 1 ≤ count)
    {entries : List Dirent} (isRoot : contents ROOTINO = direntBytes entries) {de : Dirent}
    {name : Name} (isEntry : entries[k]? = some de) (found : de.Matches name)
    (first : ∀ j other, j < k → entries[j]? = some other → ¬ other.Matches name) {ip : InodeId}
    {fs : FileSystem} (got : iget (rooted s.blocks) de.inum.toNat = .ok (ip, fs)) :
    rootLookup mkfsSuperblock s.blocks name = .ok (some (ip, k * Dirent.codec.width), fs) := by
  have inRange : ROOTINO < mkfsSuperblock.ninodes := by decide
  have type : (mkfsSuperblock.dinode s.blocks ROOTINO).type = T_DIR := by
    rw [finished.types ROOTINO inRange, kind, if_neg (by unfold ROOTINO; omega), if_pos rfl]
  rw [rootLookup_eq s.blocks name (by rw [type]; decide)]
  refine (dirlookup_stored mkfsSuperblock ?_ ?_ ?_ isEntry found first).trans (by rw [foundAt, got])
  · rw [rooted, itable_setInode, ← isRoot]
    exact finished.kept ROOTINO inRange
  · rw [rooted, itable_setInode, ← isRoot]
    show _ ≤ (mkfsSuperblock.dinode s.blocks ROOTINO).size.toNat
    rw [finished.rootSize]
    unfold BSIZE
    omega
  · rw [rooted, itable_setInode]
    exact type

theorem Finished.finds (finished : Finished s contents count) (isFile : 2 ≤ inum)
    (inUse : inum ≤ count) {name : Name} {off : Nat}
    (resolved : rootLookup mkfsSuperblock s.blocks name =
      .ok (some (fileSlot, off), (rooted s.blocks).setInode fileSlot (recycled inum))) :
    Finds s.blocks name inum (contents inum) := by
  have inRange : inum < mkfsSuperblock.ninodes := Nat.lt_of_le_of_lt inUse finished.inTable
  have notRoot : inum ≠ ROOTINO := by
    unfold ROOTINO
    omega
  have typed : (mkfsSuperblock.dinode (rooted s.blocks).blocks inum).type ≠ 0 := by
    show (mkfsSuperblock.dinode s.blocks inum).type ≠ 0
    rw [finished.types inum inRange, kind, if_neg (by omega), if_neg notRoot]
    decide
  have size : ((loaded s.blocks inum).size).toNat = (contents inum).length :=
    finished.sizes inum inRange notRoot
  have isLoaded := itable_setInode (rooted s.blocks) fileSlot (loaded s.blocks inum)
  refine ⟨fileSlot, off, _, _, resolved, by rw [itable_setInode]; rfl,
    ilock_recycled (rooted s.blocks) fileSlot typed, ?_, fun user space dst writable => ?_⟩
  · show (((rooted s.blocks).setInode fileSlot
      (loaded s.blocks inum)).itable fileSlot).size.toNat = _
    rw [isLoaded, size]
  · show readi mkfsSuperblock ((rooted s.blocks).setInode fileSlot (loaded s.blocks inum)) _ _ _ _ _
      (((rooted s.blocks).setInode fileSlot (loaded s.blocks inum)).itable fileSlot).size = _
    have stored : Stored ((rooted s.blocks).setInode fileSlot (loaded s.blocks inum)).blocks
        (((rooted s.blocks).setInode fileSlot (loaded s.blocks inum)).itable fileSlot).toDinode
          (contents inum) := by
      rw [isLoaded]
      exact finished.kept inum inRange
    have start : (0 : BitVec 32).toNat = 0 := rfl
    have result := readi_stored mkfsSuperblock stored
      (show (0 : BitVec 32).toNat + (loaded s.blocks inum).size.toNat ≤ (contents inum).length by
        rw [start, Nat.zero_add, size])
      (by rw [isLoaded, size]) (by rwa [size] : Writable space user dst _)
    rw [isLoaded, result, size, start]
    simp only [Nat.zero_add]
    rfl

/-! ## Names -/

theorem cstring_ofList {bytes : List Byte} (noNul : 0 ∉ bytes) (n : Nat) :
    cstring (Name.ofList bytes) n = bytes.take n := by
  induction n generalizing bytes with
  | zero => rfl
  | succ n ih =>
      cases bytes with
      | nil => rfl
      | cons byte bytes =>
          rw [List.mem_cons, not_or] at noNul
          have head : Name.ofList (byte :: bytes) 0 = byte := rfl
          have tail : (fun i => Name.ofList (byte :: bytes) (i + 1)) = Name.ofList bytes := rfl
          rw [cstring, head, tail, if_neg (Ne.symm noNul.1), ih noNul.2,
            List.take_succ_cons]

theorem shortname_noNul (arg : Arg) : 0 ∉ shortname arg := by
  have stripped : stripUser arg.bytes ⊆ arg.bytes := by
    unfold stripUser
    split
    · exact List.drop_subset ..
    · exact List.Subset.refl _
  intro hasNul
  refine arg.noNul (stripped ?_)
  unfold shortname stripUnderscore at hasNul
  split at hasNul
  · exact List.mem_of_mem_tail hasNul
  · exact hasNul

/-- Entries match a name with the same first bytes. -/
theorem matches_ofName {other : List Byte} (noNul : 0 ∉ name) (otherNoNul : 0 ∉ other)
    (small : inum < 2 ^ 16) (positive : inum ≠ 0) :
    (Dirent.ofName (Name.ofList other) inum).Matches (Name.ofList name) ↔
      name.take DIRSIZ = other.take DIRSIZ := by
  have isUsed : (Dirent.ofName (Name.ofList other) inum).inum ≠ 0 := by
    intro isZero
    have value := congrArg BitVec.toNat isZero
    change (BitVec.ofNat 16 inum).toNat = 0 at value
    rw [BitVec.toNat_ofNat, Nat.mod_eq_of_lt small] at value
    exact positive value
  unfold Dirent.Matches
  rw [namecmp_eq_zero_iff, Dirent.cstring_ofName, cstring_ofList noNul, cstring_ofList otherNoNul]
  exact and_iff_right isUsed

theorem eq_of_take_eq {short : List Byte} (isShort : short.length < DIRSIZ)
    (same : name.take DIRSIZ = short.take DIRSIZ) : name = short := by
  rw [List.take_of_length_le (Nat.le_of_lt isShort)] at same
  have length := congrArg List.length same
  rw [List.length_take] at length
  rwa [List.take_of_length_le (by omega)] at same

theorem getElem?_rootEntries {i : Nat} {arg : Arg} (isFile : 2 ≤ i) (isArg : argv[i]? = some arg) :
    (rootEntries argv)[i]? = some (fileEntry i arg) := by
  have length : dots.length = 2 := rfl
  rw [rootEntries, List.getElem?_append_right (by omega), length, getElem?_entriesFrom,
    List.getElem?_drop, show 2 + (i - 2) = i by omega, isArg]
  rfl

theorem no_match (inTable : k ≤ NINODES) (noNul : 0 ∉ name) (notDot : 0 < k → name ≠ [0x2e])
    (notDotdot : 1 < k → name ≠ [0x2e, 0x2e])
    (different : ∀ j other, 2 ≤ j → j < k → argv[j]? = some other →
      name.take DIRSIZ ≠ (shortname other).take DIRSIZ) (usage : 2 ≤ argv.length) :
    ∀ j other, j < k → (rootEntries argv)[j]? = some other →
      ¬ other.Matches (Name.ofList name) := by
  intro j other before isEntry found
  have small : k < 2 ^ 16 := Nat.lt_of_le_of_lt inTable (by decide)
  match j, before, isEntry with
  | 0, before, isEntry =>
      obtain rfl := Option.some.inj isEntry
      have same := (matches_ofName noNul (by decide) (by decide) (by decide)).mp found
      exact notDot before (eq_of_take_eq (by decide) same)
  | 1, before, isEntry =>
      obtain rfl := Option.some.inj isEntry
      have same := (matches_ofName noNul (by decide) (by decide) (by decide)).mp found
      exact notDotdot before (eq_of_take_eq (by decide) same)
  | j + 2, before, isEntry =>
      obtain ⟨inList, _⟩ := List.getElem?_eq_some_iff.mp isEntry
      rw [rootEntries_length usage] at inList
      have isArg : argv[j + 2]? = some (argv.get ⟨j + 2, inList⟩) := List.getElem?_eq_getElem inList
      rw [getElem?_rootEntries (by omega) isArg] at isEntry
      obtain rfl := Option.some.inj isEntry
      have same := (matches_ofName noNul (shortname_noNul _) (by omega) (by omega)).mp found
      exact different (j + 2) _ (by omega) before isArg same

/-- **What `mkfs` writes is what the kernel reads.** For files with different short names that
fit in the image, `mkfs` comes to `exit(0)` if it can open them and no short name has a slash;
and whatever sizes the host's `read` returns, the kernel then finds every file under its short
name and reads its bytes, and "." and ".." of the root directory are the root directory. -/
theorem mkfs_kernel_agree {argv : List Arg} {host : Host} (few : argv.length - 2 ≤ NINODES - 2)
    (small : ∀ i, 2 ≤ i → i < argv.length → (fileBytes host i).length ≤ MAXFILE * BSIZE)
    (different : ∀ i j arg other, 2 ≤ i → 2 ≤ j → i ≠ j → argv[i]? = some arg →
      argv[j]? = some other → (shortname arg).take DIRSIZ ≠ (shortname other).take DIRSIZ)
    (notDots : ∀ i arg, 2 ≤ i → argv[i]? = some arg →
      shortname arg ≠ [0x2e] ∧ shortname arg ≠ [0x2e, 0x2e])
    (fit : nmeta + blocksFor (argv.length * Dirent.codec.width) +
      ∑ i ∈ Finset.Ico 2 argv.length, blocksFor (fileBytes host i).length ≤ FSSIZE) :
    (2 ≤ argv.length ∧ host.creates = true ∧ TakesAll argv host →
      ∃ s, main argv host = .ok s) ∧
    ∀ s, main argv host = .ok s → Describes (readsb s.blocks) mkfsSuperblock ∧
      (∀ i arg, 2 ≤ i → argv[i]? = some arg →
        Finds s.blocks (Name.ofList (shortname arg)) i (fileBytes host i)) ∧
      Resolves s.blocks dot ROOTINO ∧ Resolves s.blocks dotdot ROOTINO := by
  have inTable : 2 ≤ argv.length → argv.length ≤ NINODES := by
    unfold NINODES at *
    omega
  constructor
  · rintro ⟨usage, creates, takes⟩
    exact (main_spec usage (inTable usage)).exists_ok
      ⟨creates, takes, fits_rootEntries usage (inTable usage) small fit⟩
  · intro s made
    obtain ⟨usage, _⟩ := (main_counts argv host).of_ok made
    have finished := (main_spec usage (inTable usage)).of_ok made
    have hasRoot : 1 ≤ argv.length - 1 := by omega
    have numbers : NINODES < 2 ^ 16 := by decide
    have bound := inTable usage
    -- The root directory itself is in the inode table.
    have again : iget (rooted s.blocks) ROOTINO =
        .ok (rootEntry, (rooted s.blocks).setInode rootEntry
        { loaded s.blocks ROOTINO with ref := 2 }) := rfl
    have isRoot : ((rooted s.blocks).setInode rootEntry
        { loaded s.blocks ROOTINO with ref := 2 }).itable rootEntry =
          { loaded s.blocks ROOTINO with ref := 2 } := itable_setInode ..
    refine ⟨?_, fun i arg isFile isArg => ?_, ?_, ?_⟩
    · rw [finished.superblock]
      exact ⟨rfl, rfl, rfl, rfl, rfl, rfl⟩
    · obtain ⟨inList, _⟩ := List.getElem?_eq_some_iff.mp isArg
      have number : (fileEntry i arg).inum.toNat = i := by
        show (BitVec.ofNat 16 i).toNat = i
        rw [BitVec.toNat_ofNat, Nat.mod_eq_of_lt (by omega)]
      have notRoot : i ≠ ROOTINO := by
        unfold ROOTINO
        omega
      have found : (fileEntry i arg).Matches (Name.ofList (shortname arg)) :=
        (matches_ofName (shortname_noNul arg) (shortname_noNul arg) (by omega) (by omega)).mpr rfl
      have earlier := no_match (k := i) (by omega) (shortname_noNul arg)
        (fun _ => (notDots i arg isFile isArg).1) (fun _ => (notDots i arg isFile isArg).2)
        (fun j other isOther before isArg' =>
          different i j arg other isFile isOther (by omega) isArg isArg') usage
      have got := iget_rooted s.blocks notRoot
      rw [← number] at got
      have resolved := finished.lookup hasRoot contentsOf_root (getElem?_rootEntries isFile isArg)
        found earlier got
      rw [number] at resolved
      have reads := finished.finds isFile (by omega) resolved
      rwa [contentsOf_file isFile (by omega)] at reads
    · have resolved := finished.lookup (k := 0) hasRoot contentsOf_root rfl
        ((matches_ofName (by decide) (by decide) (by decide) (by decide)).mpr rfl)
        (fun j _ before => absurd before (Nat.not_lt_zero j)) again
      exact ⟨rootEntry, _, _, resolved, by rw [isRoot]; rfl,
        by rw [isRoot]; exact Nat.succ_pos 1⟩
    · have resolved := finished.lookup (k := 1) hasRoot contentsOf_root rfl
        ((matches_ofName (by decide) (by decide) (by decide) (by decide)).mpr rfl)
        (no_match (by decide) (by decide) (fun _ => by decide)
          (fun impossible => absurd impossible (Nat.lt_irrefl 1))
          (fun j _ low high => by omega) usage)
        again
      exact ⟨rootEntry, _, _, resolved, by rw [isRoot]; rfl,
        by rw [isRoot]; exact Nat.succ_pos 1⟩

def cat : Arg := ⟨[0x75, 0x73, 0x65, 0x72, 0x2f, 0x5f, 0x63, 0x61, 0x74], by decide⟩

/-- A host that returns three bytes in two parts. -/
def twoReads : Host :=
  ⟨true, fun _ => some [⟨[1, 2], by decide, by decide⟩, ⟨[3], by decide, by decide⟩]⟩

/-- A file with a directory and "_" in its argument, read in two parts. -/
theorem mkfs_kernel_agree_cat : ∃ s, main [letter, letter, cat] twoReads = .ok s ∧
    Finds s.blocks (Name.ofList [0x63, 0x61, 0x74]) 2 [1, 2, 3] := by
  have isThird : ∀ i arg, 2 ≤ i → [letter, letter, cat][i]? = some arg → i = 2 ∧ arg = cat := by
    intro i arg low isArg
    obtain ⟨high, _⟩ := List.getElem?_eq_some_iff.mp isArg
    obtain rfl : i = 2 := Nat.le_antisymm (Nat.le_of_lt_succ high) low
    exact ⟨rfl, (Option.some.inj isArg).symm⟩
  obtain ⟨ends, agrees⟩ := @mkfs_kernel_agree [letter, letter, cat] twoReads
    (by decide) (fun _ _ _ => (by decide : 3 ≤ MAXFILE * BSIZE))
    (fun i j arg other isFile isOther distinct isArg isArg' =>
      absurd ((isThird i arg isFile isArg).1.trans
        (isThird j other isOther isArg').1.symm) distinct)
    (fun i arg isFile isArg => by
      rw [(isThird i arg isFile isArg).2]
      decide)
    (by decide +kernel)
  obtain ⟨s, made⟩ := ends ⟨by decide, rfl, fun k arg isArg => by
    rw [List.getElem?_drop] at isArg
    rw [(isThird (2 + k) arg (by omega) isArg).2]
    exact ⟨by decide, rfl⟩⟩
  exact ⟨s, made, (agrees s made).2.1 2 cat (Nat.le_refl 2) rfl⟩

end Reading

end Xv6.Mkfs
