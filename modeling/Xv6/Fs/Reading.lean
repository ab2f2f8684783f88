import Xv6.Fs.Contents
import Xv6.Fs.Path

/-!
Contract: what the kernel reads where a sequence of bytes, or of directory entries, is stored
in the blocks of an inode.

Owns: that `readi` of stored bytes returns them, `dirlookup` of `kernel/fs.c`, and that it
finds the first entry with a name.

Does not own: how the bytes came to be stored.
-/

namespace Xv6.Fs

open Xv6.Kernel
open Xv6.Format

/-! ## Contents -/

def Stored (blocks : Nat → Block) (dinode : Dinode) (content : List Byte) : Prop :=
  ∀ off byte, content[off]? = some byte → ∃ inFile : off / BSIZE < MAXFILE,
    held blocks dinode (contentSlot ⟨off / BSIZE, inFile⟩) ≠ 0 ∧
      blocks (held blocks dinode (contentSlot ⟨off / BSIZE, inFile⟩)).toNat (off % BSIZE) = byte

variable {sb : Superblock} {fs : FileSystem} {ip : InodeId} {content : List Byte}
  {k off i rounds dst : Nat} {de : Dirent} {user : Bool} {space : Space}

theorem Stored.block {blocks : Nat → Block} {dinode : Dinode}
    (stored : Stored blocks dinode content) {m : Nat} (inside : off + m ≤ content.length)
    (inBlock : m ≤ BSIZE - off % BSIZE) (inFile : off / BSIZE < MAXFILE) (inRange : i < m) :
    blocks (held blocks dinode (contentSlot ⟨off / BSIZE, inFile⟩)).toNat (off % BSIZE + i) =
      content.getD (off + i) 0 := by
  have sameBlock : (off + i) / BSIZE = off / BSIZE := by
    unfold BSIZE at *
    omega
  have place : (off + i) % BSIZE = off % BSIZE + i := by
    unfold BSIZE at *
    omega
  have isByte : content[off + i]? = some (content.getD (off + i) 0) := by
    rw [List.getD_eq_getElem?_getD, List.getElem?_eq_getElem (by omega)]
    rfl
  obtain ⟨_, _, found⟩ := stored (off + i) _ isByte
  simp only [sameBlock, place] at found
  exact found

theorem readLoop_stored (sb : Superblock) (stored : Stored fs.blocks
    (fs.itable ip).toDinode content) {n tot : Nat} (enough : n - tot ≤ rounds) (started : tot ≤ n)
    (inside : off + (n - tot) ≤ content.length) (writable : Writable space user dst (n - tot)) :
    readLoop sb ip user n rounds fs space dst off tot =
      .ok (n, space.store dst (fun i => content.getD (off + i) 0) (n - tot), fs) := by
  induction rounds generalizing tot off dst space with
  | zero =>
      obtain rfl : tot = n := by omega
      rw [Nat.sub_self, space.store_zero]
      rfl
  | succ rounds ih =>
      unfold readLoop
      by_cases more : tot < n
      · have isByte : content[off]? = some (content.get ⟨off, by omega⟩) :=
          List.getElem?_eq_getElem (by omega)
        obtain ⟨inFile, number, _⟩ := stored off _ isByte
        have there := bmap_mapped sb ⟨off / BSIZE, inFile⟩ number
        simp only [more, if_true, there, if_neg number]
        generalize part : min (n - tot) (BSIZE - off % BSIZE) = m
        have positive : 0 < m := by
          have rest := Nat.mod_lt off (show 0 < BSIZE by decide)
          omega
        have copied := eitherCopyout_writable
          (fun i => fs.blocks (held fs.blocks (fs.itable ip).toDinode
            (contentSlot ⟨off / BSIZE, inFile⟩)).toNat (off % BSIZE + i))
          (fun isUser va low high => writable isUser va low (by omega) :
            Writable space user dst m)
        rw [Space.store_congr fun i inRange =>
          stored.block (by omega) (by omega) inFile inRange] at copied
        simp only [copied, if_true]
        rw [ih (by omega) (by omega) (by omega)]
        · have next : (fun i => content.getD (off + m + i) 0) =
              fun i => (fun i => content.getD (off + i) 0) (m + i) := by
            funext i
            rw [Nat.add_assoc]
          rw [next, space.store_store, show m + (n - (tot + m)) = n - tot by omega]
        · intro isUser va low high
          exact writable isUser va (by omega) (by omega)
      · obtain rfl : tot = n := by omega
        rw [if_neg more, Nat.sub_self, space.store_zero]

/-- **`readi` of stored bytes returns them**, and changes nothing. -/
theorem readi_stored (sb : Superblock) (stored : Stored fs.blocks (fs.itable ip).toDinode content)
    {off n : BitVec 32} (inside : off.toNat + n.toNat ≤ content.length)
    (sized : content.length ≤ (fs.itable ip).size.toNat)
    (writable : Writable space user dst n.toNat) :
    readi sb fs ip user space dst off n =
      .ok (n.toNat, space.store dst (fun i => content.getD (off.toNat + i) 0) n.toNat, fs) := by
  have noWrap : (off + n).toNat = off.toNat + n.toNat := by
    have small := (fs.itable ip).size.isLt
    rw [BitVec.toNat_add, Nat.mod_eq_of_lt (by omega)]
  have within : ¬ (off > (fs.itable ip).size ∨ off + n < off) := by
    rw [gt_iff_lt, BitVec.lt_def, BitVec.lt_def, noWrap]
    omega
  have notBeyond : ¬ off + n > (fs.itable ip).size := by
    rw [gt_iff_lt, BitVec.lt_def, noWrap]
    omega
  unfold readi
  simp only [if_neg within, if_neg notBeyond]
  exact readLoop_stored sb stored (Nat.le_refl _) (Nat.zero_le _) inside writable

/-! ## Directories -/

inductive DirectoryPanic where
  | inode (panic : Panic)
  /-- "dirlookup not DIR" -/
  | notDir
  /-- "dirlookup read" -/
  | read
  /-- "dirlink read" -/
  | linkRead
  /-- "unlink: writei" -/
  | unlinkWrite
deriving DecidableEq, Repr

/-- `readi(dp, 0, (uint64)&de, off, sizeof(de))`, with the panic of its caller. -/
def readDirent (sb : Superblock) (fs : FileSystem) (dp : InodeId) (off : Nat) :
    Except DirectoryPanic (Dirent × FileSystem) :=
  match readi sb fs dp false ⟨fun _ => false, fun _ => 0⟩ 0 (BitVec.ofNat 32 off)
      (BitVec.ofNat 32 Dirent.codec.width) with
  | .error panic => .error (.inode panic)
  | .ok (tot, space, fs) =>
      if tot = Dirent.codec.width then .ok (Dirent.codec.decode space.bytes, fs) else .error .read

def Dirent.Matches (name : Name) (de : Dirent) : Prop :=
  de.inum ≠ 0 ∧ namecmp name de.nameBytes = 0

instance (name : Name) (de : Dirent) : Decidable (de.Matches name) :=
  inferInstanceAs (Decidable (_ ∧ _))

def dirlookupLoop (sb : Superblock) (dp : InodeId) (name : Name) :
    Nat → FileSystem → Nat → Except DirectoryPanic (Option (InodeId × Nat) × FileSystem)
  | 0, fs, _ => .ok (none, fs)
  | rounds + 1, fs, off =>
      if off < (fs.itable dp).size.toNat then
        match readDirent sb fs dp off with
        | .error panic => .error panic
        | .ok (de, fs) =>
            if de.Matches name then
              match iget fs de.inum.toNat with
              | .error panic => .error (.inode panic)
              | .ok (ip, fs) => .ok (some (ip, off), fs)
            else
              dirlookupLoop sb dp name rounds fs (off + Dirent.codec.width)
      else
        .ok (none, fs)

def dirlookup (sb : Superblock) (fs : FileSystem) (dp : InodeId) (name : Name) :
    Except DirectoryPanic (Option (InodeId × Nat) × FileSystem) :=
  if (fs.itable dp).type ≠ T_DIR then
    .error .notDir
  else
    dirlookupLoop sb dp name ((fs.itable dp).size.toNat / Dirent.codec.width + 1) fs 0

def direntBytes (entries : List Dirent) : List Byte :=
  entries.flatMap fun de => (List.range Dirent.codec.width).map (Dirent.codec.encode de)

theorem direntBytes_length (entries : List Dirent) :
    (direntBytes entries).length = entries.length * Dirent.codec.width := by
  induction entries with
  | nil => exact (Nat.zero_mul _).symm
  | cons de entries ih =>
      rw [direntBytes, List.flatMap_cons, List.length_append, ← direntBytes, ih,
        List.length_map, List.length_range, List.length_cons, Nat.succ_mul, Nat.add_comm]

theorem getElem?_direntBytes {entries : List Dirent} (isEntry : entries[k]? = some de)
    (inEntry : i < Dirent.codec.width) :
    (direntBytes entries)[k * Dirent.codec.width + i]? = some (Dirent.codec.encode de i) := by
  induction entries generalizing k with
  | nil => cases isEntry
  | cons first entries ih =>
      rw [direntBytes, List.flatMap_cons, ← direntBytes]
      have firstLength : ((List.range Dirent.codec.width).map
          (Dirent.codec.encode first)).length = Dirent.codec.width := by
        rw [List.length_map, List.length_range]
      cases k with
      | zero =>
          obtain rfl : first = de := Option.some.inj isEntry
          rw [Nat.zero_mul, Nat.zero_add, List.getElem?_append_left (by omega), List.getElem?_map,
            List.getElem?_range inEntry]
          rfl
      | succ k =>
          rw [List.getElem?_append_right (by rw [Nat.succ_mul]; omega), firstLength,
            show (k + 1) * Dirent.codec.width + i - Dirent.codec.width =
              k * Dirent.codec.width + i by rw [Nat.succ_mul]; omega]
          exact ih isEntry

variable {dp : InodeId} {entries : List Dirent} {name : Name}

theorem readDirent_stored (sb : Superblock)
    (stored : Stored fs.blocks (fs.itable dp).toDinode (direntBytes entries))
    (sized : (direntBytes entries).length ≤ (fs.itable dp).size.toNat)
    (isEntry : entries[k]? = some de) :
    readDirent sb fs dp (k * Dirent.codec.width) = .ok (de, fs) := by
  obtain ⟨inList, _⟩ := List.getElem?_eq_some_iff.mp isEntry
  have inBytes : k * Dirent.codec.width + Dirent.codec.width ≤ (direntBytes entries).length := by
    rw [direntBytes_length, ← Nat.succ_mul]
    exact Nat.mul_le_mul_right _ inList
  have small := (fs.itable dp).size.isLt
  have offset : (BitVec.ofNat 32 (k * Dirent.codec.width)).toNat = k * Dirent.codec.width := by
    rw [BitVec.toNat_ofNat, Nat.mod_eq_of_lt (by omega)]
  have width : (BitVec.ofNat 32 Dirent.codec.width).toNat = Dirent.codec.width := rfl
  unfold readDirent
  rw [readi_stored sb stored (by rw [offset, width]; exact inBytes) sized
    (fun isUser => Bool.noConfusion isUser)]
  simp only [width, if_true, offset]
  refine congrArg (fun de => Except.ok (de, fs)) ?_
  calc Dirent.codec.decode _ = Dirent.codec.decode (Dirent.codec.encode de) :=
        Dirent.codec.decode_congr _ _ fun i inEntry => by
          rw [Space.bytes_store, memmove, if_pos (by omega), List.getD_eq_getElem?_getD,
            Nat.sub_zero, getElem?_direntBytes isEntry inEntry]
          rfl
    _ = de := Dirent.codec.decode_encode de

/-- The inode of an entry that has been found, with the offset of the entry. -/
def foundAt (fs : FileSystem) (de : Dirent) (off : Nat) :
    Except DirectoryPanic (Option (InodeId × Nat) × FileSystem) :=
  match iget fs de.inum.toNat with
  | .error panic => .error (.inode panic)
  | .ok (ip, fs) => .ok (some (ip, off), fs)

theorem dirlookupLoop_stored (sb : Superblock)
    (stored : Stored fs.blocks (fs.itable dp).toDinode (direntBytes entries))
    (sized : (direntBytes entries).length ≤ (fs.itable dp).size.toNat)
    (isEntry : entries[k]? = some de) (found : de.Matches name)
    (first : ∀ j other, j < k → entries[j]? = some other → ¬ other.Matches name) {j : Nat}
    (before : j ≤ k) (enough : k - j < rounds) :
    dirlookupLoop sb dp name rounds fs (j * Dirent.codec.width) =
      foundAt fs de (k * Dirent.codec.width) := by
  obtain ⟨inList, _⟩ := List.getElem?_eq_some_iff.mp isEntry
  induction rounds generalizing j with
  | zero => omega
  | succ rounds ih =>
      have inSize : j * Dirent.codec.width < (fs.itable dp).size.toNat := by
        rw [direntBytes_length] at sized
        have below : (j + 1) * Dirent.codec.width ≤ entries.length * Dirent.codec.width :=
          Nat.mul_le_mul_right _ (by omega)
        have positive : 0 < Dirent.codec.width := by decide
        rw [Nat.succ_mul] at below
        omega
      unfold dirlookupLoop
      rw [if_pos inSize]
      rcases Nat.lt_or_ge j k with earlier | here
      · have isOther : entries[j]? = some (entries.get ⟨j, by omega⟩) :=
          List.getElem?_eq_getElem (by omega)
        rw [readDirent_stored sb stored sized isOther]
        dsimp only
        rw [if_neg (first j _ earlier isOther), ← Nat.succ_mul]
        exact ih (by omega) (by omega)
      · obtain rfl : j = k := by omega
        rw [readDirent_stored sb stored sized isEntry]
        dsimp only
        rw [if_pos found]
        rfl

/-- **`dirlookup` finds the first entry with the name.** -/
theorem dirlookup_stored (sb : Superblock)
    (stored : Stored fs.blocks (fs.itable dp).toDinode (direntBytes entries))
    (sized : (direntBytes entries).length ≤ (fs.itable dp).size.toNat)
    (isDirectory : (fs.itable dp).type = T_DIR) (isEntry : entries[k]? = some de)
    (found : de.Matches name)
    (first : ∀ j other, j < k → entries[j]? = some other → ¬ other.Matches name) :
    dirlookup sb fs dp name = foundAt fs de (k * Dirent.codec.width) := by
  obtain ⟨inList, _⟩ := List.getElem?_eq_some_iff.mp isEntry
  have rounds : k < (fs.itable dp).size.toNat / Dirent.codec.width + 1 := by
    rw [direntBytes_length] at sized
    have quotient : entries.length ≤ (fs.itable dp).size.toNat / Dirent.codec.width :=
      (Nat.le_div_iff_mul_le (by decide)).mpr sized
    omega
  have result := dirlookupLoop_stored sb stored sized isEntry found first (Nat.zero_le k)
    (show k - 0 < (fs.itable dp).size.toNat / Dirent.codec.width + 1 by omega)
  rw [Nat.zero_mul] at result
  unfold dirlookup
  rw [if_neg (fun notDirectory => notDirectory isDirectory)]
  exact result

end Xv6.Fs
