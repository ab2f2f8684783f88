import Xv6.Fs.Files
import Xv6.Programs.Fallible
import Xv6.Tables.Cells

/-!
Contract: directories are finite maps from names to inode numbers.

A name counts up to its first NUL or `DIRSIZ` bytes.

Owns: `dirlink` of `kernel/fs.c`, the part of `sys_unlink` that clears an entry, the entries of
a directory as a table, and what lookups, links and removals do to it, in runs from any
directory without repeated names.

Does not own: the links an inode counts, and paths.
-/

namespace Xv6.Fs

open Xv6.Kernel
open Xv6.Format
open Xv6.Programs (exists_of_bind)
open Xv6.Tables

/-! ## dirlink and removal -/

/-- The panic of `dirlink` where `dirlookup` has its own. -/
def linkPanic : DirectoryPanic → DirectoryPanic
  | .read => .linkRead
  | panic => panic

/-- The loop of `dirlink`: the offset of an empty entry, or of the end. -/
def findEmptyLoop (sb : Superblock) (dp : InodeId) :
    Nat → FileSystem → Nat → Except DirectoryPanic (Nat × FileSystem)
  | 0, fs, off => .ok (off, fs)
  | rounds + 1, fs, off =>
      if off < (fs.itable dp).size.toNat then
        match readDirent sb fs dp off with
        | .error panic => .error (linkPanic panic)
        | .ok (de, fs) =>
            if de.inum = 0 then
              .ok (off, fs)
            else
              findEmptyLoop sb dp rounds fs (off + Dirent.codec.width)
      else
        .ok (off, fs)

/-- `writei(dp, 0, (uint64)&de, off, sizeof(de))` -/
def writeDirent (sb : Superblock) (fs : FileSystem) (dp : InodeId) (off : Nat) (de : Dirent) :
    Except Panic (Int × FileSystem) :=
  writei sb fs dp false ⟨fun _ => false, Dirent.codec.encode de⟩ 0 (BitVec.ofNat 32 off)
    (BitVec.ofNat 32 Dirent.codec.width)

def dirlink (sb : Superblock) (fs : FileSystem) (dp : InodeId) (name : Name) (inum : BitVec 32) :
    Except DirectoryPanic (Int × FileSystem) :=
  match dirlookup sb fs dp name with
  | .error panic => .error panic
  | .ok (some (ip, _), fs) =>
      -- The name is present.
      match iput sb fs ip with
      | .error panic => .error (.inode panic)
      | .ok fs => .ok (-1, fs)
  | .ok (none, fs) =>
      match findEmptyLoop sb dp ((fs.itable dp).size.toNat / Dirent.codec.width + 1) fs 0 with
      | .error panic => .error panic
      | .ok (off, fs) =>
          match writeDirent sb fs dp off (Dirent.ofName name inum.toNat) with
          | .error panic => .error (.inode panic)
          | .ok (tot, fs) => .ok (if tot ≠ Dirent.codec.width then -1 else 0, fs)

/-- The part of `sys_unlink` that finds an entry and clears it, with whether it was there. The
reference that `dirlookup` has taken is given back. -/
def clearEntry (sb : Superblock) (fs : FileSystem) (dp : InodeId) (name : Name) :
    Except DirectoryPanic (Bool × FileSystem) :=
  match dirlookup sb fs dp name with
  | .error panic => .error panic
  | .ok (none, fs) => .ok (false, fs)
  | .ok (some (ip, off), fs) =>
      match writeDirent sb fs dp off Dirent.zero with
      | .error panic => .error (.inode panic)
      | .ok (tot, fs) =>
          if tot ≠ Dirent.codec.width then
            .error .unlinkWrite
          else
            match iput sb fs ip with
            | .error panic => .error (.inode panic)
            | .ok fs => .ok (true, fs)

/-! ## Entries -/

/-- The key of an entry: its name up to the first NUL or `DIRSIZ` bytes. -/
def Dirent.key (de : Dirent) : Option (List Byte) :=
  if de.inum = 0 then none else some (cstring de.nameBytes DIRSIZ)

variable {de : Dirent} {inum i k : Nat}

theorem Dirent.key_eq_none : de.key = none ↔ de.inum = 0 := by
  unfold key
  split <;> simp_all

theorem Dirent.matches_iff {name : Name} :
    de.Matches name ↔ de.key = some (cstring name DIRSIZ) := by
  unfold Matches key
  rw [namecmp_eq_zero_iff]
  split
  · rename_i isEmpty
    exact iff_of_false (fun found => found.1 isEmpty) nofun
  · rename_i inUse
    exact ⟨fun found => congrArg some found.2.symm, fun same =>
      ⟨inUse, (Option.some.inj same).symm⟩⟩

theorem Dirent.key_ofName {name : Name} (inUse : BitVec.ofNat 16 inum ≠ 0) :
    (Dirent.ofName name inum).key = some (cstring name DIRSIZ) := by
  rw [key, if_neg (show (ofName name inum).inum ≠ 0 from inUse), cstring_ofName]

theorem direntBytes_append (first second : List Dirent) :
    direntBytes (first ++ second) = direntBytes first ++ direntBytes second :=
  List.flatMap_append ..

theorem direntBytes_cons (de : Dirent) (entries : List Dirent) :
    direntBytes (de :: entries) =
      firstBytes (Dirent.codec.encode de) Dirent.codec.width ++ direntBytes entries :=
  List.flatMap_cons ..

theorem direntBytes_put (entries : List Dirent) (inside : i ≤ entries.length) (de : Dirent) :
    direntBytes (put entries i de) = overwrite (direntBytes entries) (i * Dirent.codec.width)
      (firstBytes (Dirent.codec.encode de) Dirent.codec.width) := by
  have before : (direntBytes (entries.take i)).length = i * Dirent.codec.width := by
    rw [direntBytes_length, List.length_take, Nat.min_eq_left inside]
  have split : direntBytes entries =
      direntBytes (entries.take i) ++ direntBytes (entries.drop i) := by
    rw [← direntBytes_append, List.take_append_drop]
  have taken : (direntBytes entries).take (i * Dirent.codec.width) =
      direntBytes (entries.take i) := by
    rw [split, List.take_left' before]
  have dropped : (direntBytes entries).drop (i * Dirent.codec.width + Dirent.codec.width) =
      direntBytes (entries.drop (i + 1)) := by
    rw [← List.drop_drop, split, List.drop_left' before]
    cases rest : entries.drop i with
    | nil =>
        rw [← List.drop_drop, rest]
        exact List.drop_nil
    | cons de later =>
        rw [direntBytes_cons, List.drop_left' (firstBytes_length ..), ← List.drop_drop, rest]
        rfl
  rw [overwrite, firstBytes_length, taken, dropped, put, direntBytes_append, direntBytes_cons,
    List.append_assoc]

/-! ## Directories -/

/-- A directory with these entries, at an entry of the inode table that is locked. -/
structure Directory (sb : Superblock) (fs : FileSystem) (dp : InodeId) (entries : List Dirent) :
    Prop where
  ready : Ready sb fs
  live : 0 < (fs.itable dp).ref
  valid : (fs.itable dp).valid = true
  isDir : (fs.itable dp).type = T_DIR
  content : fs.content dp = direntBytes entries
  inRange : ∀ de ∈ entries, de.inum.toNat < sb.ninodes

variable {sb : Superblock} {fs fs' : FileSystem} {dp ip : InodeId} {entries : List Dirent}
  {name : Name}

theorem Directory.size (directory : Directory sb fs dp entries) :
    (fs.itable dp).size.toNat = entries.length * Dirent.codec.width := by
  rw [← fs.content_length dp, directory.content, direntBytes_length]

theorem Directory.stored (directory : Directory sb fs dp entries) :
    Stored fs.blocks (fs.itable dp).toDinode (direntBytes entries) := by
  rw [← directory.content]
  exact stored_content (directory.ready.mapped directory.live directory.valid)

theorem Directory.sized (directory : Directory sb fs dp entries) :
    (direntBytes entries).length ≤ (fs.itable dp).size.toNat := by
  rw [direntBytes_length, directory.size]

theorem Directory.setRef (directory : Directory sb fs dp entries) (live : 0 < (fs.itable ip).ref)
    {ref : Nat} (kept : dp = ip → 0 < ref) :
    Directory sb (fs.setInode ip { fs.itable ip with ref }) dp entries := by
  by_cases same : dp = ip
  · subst same
    have isSelf : (fs.setInode dp { fs.itable dp with ref }).itable dp =
        { fs.itable dp with ref } := Function.update_self ..
    refine ⟨directory.ready.setRef live ref, ?_, ?_, ?_, ?_, directory.inRange⟩
    · rw [isSelf]
      exact kept rfl
    · rw [isSelf]
      exact directory.valid
    · rw [isSelf]
      exact directory.isDir
    · rw [FileSystem.content, isSelf]
      exact directory.content
  · have isOther : (fs.setInode ip { fs.itable ip with ref }).itable dp = fs.itable dp :=
      Function.update_of_ne same ..
    refine ⟨directory.ready.setRef live ref, ?_, ?_, ?_, ?_, directory.inRange⟩
    · rw [isOther]
      exact directory.live
    · rw [isOther]
      exact directory.valid
    · rw [isOther]
      exact directory.isDir
    · rw [FileSystem.content, isOther]
      exact directory.content

/-! ## dirlookup -/

theorem dirlookup_unbound (directory : Directory sb fs dp entries)
    (absent : ∀ de, ¬ Binds Dirent.key entries (cstring name DIRSIZ) de) :
    dirlookup sb fs dp name = .ok (none, fs) := by
  have loop : ∀ rounds j, dirlookupLoop sb dp name rounds fs (j * Dirent.codec.width) =
      .ok (none, fs) := by
    intro rounds
    induction rounds with
    | zero => exact fun j => rfl
    | succ rounds ih =>
        intro j
        unfold dirlookupLoop
        rw [directory.size]
        by_cases inside : j * Dirent.codec.width < entries.length * Dirent.codec.width
        · have inList : j < entries.length := Nat.lt_of_mul_lt_mul_right inside
          have isEntry := List.getElem?_eq_getElem inList
          rw [if_pos inside, readDirent_stored sb directory.stored directory.sized isEntry]
          dsimp only
          rw [if_neg fun found => absent _ ⟨j, isEntry, Dirent.matches_iff.mp found⟩,
            ← Nat.succ_mul]
          exact ih (j + 1)
        · rw [if_neg inside]
  have atStart := loop ((fs.itable dp).size.toNat / Dirent.codec.width + 1) 0
  rw [Nat.zero_mul] at atStart
  unfold dirlookup
  rw [if_neg (fun notDirectory => notDirectory directory.isDir)]
  exact atStart

/-- In a directory without repeated names the entry with a name is the first one. -/
theorem dirlookup_bound (directory : Directory sb fs dp entries)
    (unique : Unique Dirent.key entries)
    (bound : BoundAt Dirent.key entries (cstring name DIRSIZ) k de) :
    dirlookup sb fs dp name = foundAt fs de (k * Dirent.codec.width) := by
  refine dirlookup_stored sb directory.stored directory.sized directory.isDir bound.1
    (Dirent.matches_iff.mpr bound.2) fun j other before isOther found => ?_
  have same := unique j k _ other de ⟨isOther, Dirent.matches_iff.mp found⟩ bound
  omega

/-! ## References -/

theorem iget_cases (got : iget fs inum = .ok (ip, fs')) :
    (0 < (fs.itable ip).ref ∧ (fs.itable ip).inum = inum ∧
        fs' = fs.setInode ip { fs.itable ip with ref := (fs.itable ip).ref + 1 }) ∨
      ((fs.itable ip).ref = 0 ∧ (∀ jp, 0 < (fs.itable jp).ref → (fs.itable jp).inum ≠ inum) ∧
        fs' = fs.setInode ip { fs.itable ip with inum, ref := 1, valid := false }) := by
  unfold iget at got
  split at got
  · rename_i found
    have listed := List.find?_some found
    rw [decide_eq_true_eq] at listed
    cases got
    exact .inl ⟨listed.1, listed.2, rfl⟩
  · rename_i absent
    split at got
    · rename_i found
      have isFree := List.find?_some found
      rw [decide_eq_true_eq] at isFree
      cases got
      refine .inr ⟨isFree, fun jp live isInode => ?_, rfl⟩
      have unlisted := List.find?_eq_none.mp absent jp (List.mem_finRange jp)
      exact unlisted (decide_eq_true ⟨live, isInode⟩)
    · cases got

theorem iget_error {panic : Panic} (failed : iget fs inum = .error panic) :
    panic = .noInodes ∧ ∀ jp, 0 < (fs.itable jp).ref ∧ (fs.itable jp).inum ≠ inum := by
  unfold iget at failed
  split at failed
  · cases failed
  · rename_i absent
    split at failed
    · cases failed
    · rename_i noneFree
      cases failed
      refine ⟨rfl, fun jp => ?_⟩
      have notFree := List.find?_eq_none.mp noneFree jp (List.mem_finRange jp)
      have unlisted := List.find?_eq_none.mp absent jp (List.mem_finRange jp)
      rw [decide_eq_true_eq] at notFree unlisted
      have live : 0 < (fs.itable jp).ref := by omega
      exact ⟨live, fun isInode => unlisted ⟨live, isInode⟩⟩

/-- The reference that is given back is not the last one of a file without links. -/
theorem iput_eq (sb : Superblock) (notLast : ¬ ((fs.itable ip).ref = 1 ∧
      (fs.itable ip).valid = true ∧ (fs.itable ip).nlink = 0)) :
    iput sb fs ip = .ok (fs.setInode ip { fs.itable ip with ref := (fs.itable ip).ref - 1 }) := by
  unfold iput
  dsimp only
  rw [if_neg notLast]
  rfl

/-- A reference that `iget` has just taken is not the last one of a valid entry. -/
def Spare (fs : FileSystem) (ip : InodeId) : Prop :=
  0 < (fs.itable ip).ref ∧ ((fs.itable ip).ref = 1 → (fs.itable ip).valid = false)

theorem Spare.iput (sb : Superblock) (spare : Spare fs ip) :
    iput sb fs ip = .ok (fs.setInode ip { fs.itable ip with ref := (fs.itable ip).ref - 1 }) := by
  refine iput_eq sb fun last => ?_
  rw [spare.2 last.1] at last
  cases last.2.1

theorem Directory.iget (directory : Directory sb fs dp entries) (inRange : inum < sb.ninodes)
    (got : iget fs inum = .ok (ip, fs')) :
    Directory sb fs' dp entries ∧ Spare fs' ip ∧ (dp = ip → 1 < (fs'.itable ip).ref) := by
  rcases iget_cases got with ⟨live, _, rfl⟩ | ⟨isFree, _, isNext⟩
  · have isSelf : (fs.setInode ip { fs.itable ip with ref := (fs.itable ip).ref + 1 }).itable ip =
        { fs.itable ip with ref := (fs.itable ip).ref + 1 } := Function.update_self ..
    unfold Spare
    rw [isSelf]
    exact ⟨directory.setRef live fun _ => Nat.succ_pos _, ⟨Nat.succ_pos _, fun isOne => by
      have isOne' : (fs.itable ip).ref + 1 = 1 := isOne
      omega⟩, fun _ => Nat.succ_lt_succ live⟩
  · have other : dp ≠ ip := by
      rintro rfl
      have live := directory.live
      omega
    have ready : Ready sb fs' := by
      rcases iget_spec directory.ready inRange with ⟨_, _, result, isReady⟩ | failed
      · rw [got] at result
        cases result
        exact isReady
      · rw [got] at failed
        cases failed
    subst isNext
    have isOther : (fs.setInode ip { fs.itable ip with inum, ref := 1, valid := false }).itable dp =
        fs.itable dp := Function.update_of_ne other ..
    have isSelf : (fs.setInode ip { fs.itable ip with inum, ref := 1, valid := false }).itable ip =
        { fs.itable ip with inum, ref := 1, valid := false } := Function.update_self ..
    refine ⟨⟨ready, ?_, ?_, ?_, ?_, directory.inRange⟩, ?_, fun same => absurd same other⟩
    · rw [isOther]
      exact directory.live
    · rw [isOther]
      exact directory.valid
    · rw [isOther]
      exact directory.isDir
    · rw [FileSystem.content, isOther]
      exact directory.content
    · unfold Spare
      rw [isSelf]
      exact ⟨Nat.one_pos, fun _ => rfl⟩

theorem Directory.iput (directory : Directory sb fs dp entries) (spare : Spare fs ip)
    (held : dp = ip → 1 < (fs.itable ip).ref) :
    ∃ fs', Fs.iput sb fs ip = .ok fs' ∧ Directory sb fs' dp entries := by
  refine ⟨_, spare.iput sb, directory.setRef spare.1 fun same => ?_⟩
  have more := held same
  omega

/-! ## Writing an entry -/

theorem Rewritten.directory {off t : Nat} {src : Bytes}
    (rewritten : Rewritten sb fs fs' dp off src t k) (directory : Directory sb fs dp entries)
    {entries' : List Dirent} (isContent : fs'.content dp = direntBytes entries')
    (inRange : ∀ de ∈ entries', de.inum.toNat < sb.ninodes) : Directory sb fs' dp entries' := by
  obtain ⟨addrs, size, isInode, _⟩ := rewritten.inode
  refine ⟨rewritten.ready, ?_, ?_, ?_, isContent, inRange⟩
  · rw [isInode]
    exact directory.live
  · rw [isInode]
    exact directory.valid
  · rw [isInode]
    exact directory.isDir

/-- An entry is written, or the directory cannot be extended and stays as it is. -/
theorem writeDirent_spec (directory : Directory sb fs dp entries) (inside : i ≤ entries.length)
    (inRange : de.inum.toNat < sb.ninodes) :
    ∃ r fs', writeDirent sb fs dp (i * Dirent.codec.width) de = .ok (r, fs') ∧
      (∀ jp, jp ≠ dp → fs'.itable jp = fs.itable jp) ∧
      (fs'.itable dp).ref = (fs.itable dp).ref ∧
      ((r = Dirent.codec.width ∧ Directory sb fs' dp (put entries i de)) ∨
        (r ≠ Dirent.codec.width ∧ i = entries.length ∧ Directory sb fs' dp entries ∧
          (MAXFILE * BSIZE < (i + 1) * Dirent.codec.width ∨ sb.Full fs'.blocks))) := by
  have mapped := directory.ready.mapped directory.live directory.valid
  have isSize := directory.size
  have bound := mapped.le
  have small := (fs.itable dp).size.isLt
  have place : i * Dirent.codec.width = i * 16 := rfl
  have nextPlace : (i + 1) * Dirent.codec.width = i * 16 + 16 := Nat.succ_mul ..
  have total : entries.length * Dirent.codec.width = entries.length * 16 := rfl
  have isWidth : (BitVec.ofNat 32 Dirent.codec.width).toNat = 16 := rfl
  have atMost : i * Dirent.codec.width ≤ (fs.itable dp).size.toNat := by
    rw [isSize]
    exact Nat.mul_le_mul_right _ inside
  have isOff : (BitVec.ofNat 32 (i * Dirent.codec.width)).toNat = i * Dirent.codec.width := by
    rw [BitVec.toNat_ofNat, Nat.mod_eq_of_lt (by omega)]
  unfold writeDirent
  by_cases refused : Refused fs dp (BitVec.ofNat 32 (i * Dirent.codec.width))
      (BitVec.ofNat 32 Dirent.codec.width)
  · have tooLong : MAXFILE * BSIZE < (i + 1) * Dirent.codec.width := by
      have limit : MAXFILE * BSIZE < 2 ^ 32 := by decide
      rcases refused with beyond | wraps | long
      · have less := BitVec.lt_def.mp beyond
        omega
      · omega
      · omega
    exact ⟨-1, fs, writei_refused sb refused _ _ _, fun _ _ => rfl, rfl,
      .inr ⟨by decide, by omega, directory, .inl tooLong⟩⟩
  · obtain ⟨t, k, fs₁, fs', wrote, copied, rewritten, _, sameMarks⟩ :=
      writei_accepted directory.ready directory.live directory.valid refused false
        ⟨fun _ => false, Dirent.codec.encode de⟩ 0
    obtain ⟨addrs, size, isInode, _⟩ := rewritten.inode
    have isContent := rewritten.content
    rw [isOff, isSize, directory.content] at isContent
    refine ⟨t, fs', wrote, rewritten.entries, by rw [isInode], ?_⟩
    have all : Space.available ⟨fun _ => false, Dirent.codec.encode de⟩ false 0
        (BitVec.ofNat 32 Dirent.codec.width).toNat = 16 := Space.available_of_covers nofun
    have stopped := copied.stopped
    rw [all, isWidth, isOff] at stopped
    cases stopped with
    | finished =>
        refine .inl ⟨rfl, rewritten.directory directory ?_ fun other member => ?_⟩
        · rw [isContent, direntBytes_put entries inside, List.take_of_length_le]
          · simp only [Nat.zero_add]
            rfl
          · rw [overwrite_length (by rw [direntBytes_length]; omega), direntBytes_length,
              firstBytes_length]
        · rcases mem_put member with rfl | old
          · exact inRange
          · exact directory.inRange other old
    | full less _ atStart vacant full =>
        have isStart : t = 0 := by
          rcases atStart with isZero | boundary
          · exact isZero
          · rw [place, show BSIZE = 1024 from rfl] at boundary
            omega
        have atEnd : i = entries.length := by
          by_contra earlier
          exact vacant (mapped.hasBlock (by omega))
        subst isStart
        refine .inr ⟨by decide, atEnd, rewritten.directory directory ?_ directory.inRange,
          .inr fun b inVolume => (sameMarks b).trans (full b inVolume)⟩
        have nothing : firstBytes (fun i => Dirent.codec.encode de (0 + i)) (0 + 0) = [] := rfl
        rw [isContent, nothing, overwrite_nil, List.take_of_length_le]
        rw [direntBytes_length]
        omega
    | fault less => omega

/-! ## dirlink -/

theorem findEmptyLoop_spec (directory : Directory sb fs dp entries) {rounds j : Nat}
    (before : j ≤ firstFree Dirent.key entries)
    (enough : firstFree Dirent.key entries - j < rounds) :
    findEmptyLoop sb dp rounds fs (j * Dirent.codec.width) =
      .ok (firstFree Dirent.key entries * Dirent.codec.width, fs) := by
  have inTable := firstFree_le Dirent.key entries
  have positive : 0 < Dirent.codec.width := by decide
  induction rounds generalizing j with
  | zero => omega
  | succ rounds ih =>
      unfold findEmptyLoop
      rw [directory.size]
      rcases Nat.lt_or_ge j entries.length with inside | atEnd
      · have isEntry := List.getElem?_eq_getElem inside
        rw [if_pos (Nat.mul_lt_mul_of_pos_right inside positive),
          readDirent_stored sb directory.stored directory.sized isEntry]
        dsimp only
        rcases Nat.lt_or_ge j (firstFree Dirent.key entries) with earlier | here
        · have inUse := key_before_firstFree earlier isEntry
          rw [if_neg fun isEmpty => inUse (Dirent.key_eq_none.mpr isEmpty), ← Nat.succ_mul]
          exact ih earlier (by omega)
        · obtain rfl : j = firstFree Dirent.key entries := by omega
          rw [if_pos (Dirent.key_eq_none.mp (key_firstFree isEntry))]
      · obtain rfl : j = firstFree Dirent.key entries := by omega
        rw [if_neg (Nat.not_lt.mpr (Nat.mul_le_mul_right _ atEnd))]

/-- **`dirlink` of a new name** adds the binding in the first free place or at the end, or
returns -1 and leaves the entries because the directory cannot be extended. -/
theorem dirlink_new (directory : Directory sb fs dp entries)
    (absent : ∀ de, ¬ Binds Dirent.key entries (cstring name DIRSIZ) de) {inum : BitVec 32}
    (inRange : (BitVec.ofNat 16 inum.toNat).toNat < sb.ninodes) :
    ∃ r fs', dirlink sb fs dp name inum = .ok (r, fs') ∧
      ((r = 0 ∧ Directory sb fs' dp (put entries (firstFree Dirent.key entries)
          (Dirent.ofName name inum.toNat))) ∨
        (r = -1 ∧ firstFree Dirent.key entries = entries.length ∧ Directory sb fs' dp entries ∧
          (MAXFILE * BSIZE < (entries.length + 1) * Dirent.codec.width ∨ sb.Full fs'.blocks))) := by
  have lookup := dirlookup_unbound directory absent
  have inTable := firstFree_le Dirent.key entries
  have search := findEmptyLoop_spec directory (Nat.zero_le _)
    (show firstFree Dirent.key entries - 0 < (fs.itable dp).size.toNat / Dirent.codec.width + 1 by
      rw [directory.size, Nat.mul_div_cancel _ (by decide)]
      omega)
  rw [Nat.zero_mul] at search
  obtain ⟨tot, fs', wrote, _, _, outcome⟩ := writeDirent_spec directory inTable
    (show (Dirent.ofName name inum.toNat).inum.toNat < sb.ninodes from inRange)
  have result : dirlink sb fs dp name inum =
      .ok (if tot ≠ Dirent.codec.width then -1 else 0, fs') := by
    simp only [dirlink, lookup, search, wrote]
  refine ⟨_, fs', result, ?_⟩
  rcases outcome with ⟨written, isDirectory⟩ | ⟨short, atEnd, isDirectory, reason⟩
  · exact .inl ⟨if_neg fun notAll => notAll written, isDirectory⟩
  · rw [atEnd] at reason
    exact .inr ⟨if_pos short, atEnd, isDirectory, reason⟩

/-- **`dirlink` of a name that is there** returns -1 and leaves the entries, unless the inode
table has no entry for the inode that is found. -/
theorem dirlink_present (directory : Directory sb fs dp entries)
    (unique : Unique Dirent.key entries) (bound : Binds Dirent.key entries (cstring name DIRSIZ) de)
    (inum : BitVec 32) :
    (∃ fs', dirlink sb fs dp name inum = .ok (-1, fs') ∧ Directory sb fs' dp entries) ∨
      (dirlink sb fs dp name inum = .error (.inode .noInodes) ∧
        iget fs de.inum.toNat = .error .noInodes) := by
  obtain ⟨k, isBound⟩ := bound
  have lookup := dirlookup_bound directory unique isBound
  unfold foundAt at lookup
  cases got : iget fs de.inum.toNat with
  | error panic =>
      obtain ⟨rfl, _⟩ := iget_error got
      rw [got] at lookup
      exact .inr ⟨by simp only [dirlink, lookup], rfl⟩
  | ok result =>
      obtain ⟨ip, fs₁⟩ := result
      rw [got] at lookup
      obtain ⟨directory₁, spare, held⟩ := directory.iget
        (directory.inRange de (List.mem_of_getElem? isBound.1)) got
      obtain ⟨fs₂, dropped, directory₂⟩ := directory₁.iput spare held
      exact .inl ⟨fs₂, by simp only [dirlink, lookup, dropped], directory₂⟩

/-! ## Removal -/

theorem clearEntry_spec (directory : Directory sb fs dp entries)
    (unique : Unique Dirent.key entries)
    {removed : Bool} (cleared : clearEntry sb fs dp name = .ok (removed, fs')) :
    (removed = false ∧ (∀ de, ¬ Binds Dirent.key entries (cstring name DIRSIZ) de) ∧
        Directory sb fs' dp entries) ∨
      (removed = true ∧ ∃ k de, BoundAt Dirent.key entries (cstring name DIRSIZ) k de ∧
        Directory sb fs' dp (put entries k Dirent.zero)) := by
  by_cases bound : ∃ de, Binds Dirent.key entries (cstring name DIRSIZ) de
  · obtain ⟨de, k, isBound⟩ := bound
    have lookup := dirlookup_bound directory unique isBound
    unfold foundAt at lookup
    have inside : k ≤ entries.length := Nat.le_of_lt (List.getElem?_eq_some_iff.mp isBound.1).1
    have deInRange := directory.inRange de (List.mem_of_getElem? isBound.1)
    cases got : iget fs de.inum.toNat with
    | error panic =>
        rw [got] at lookup
        simp only [clearEntry, lookup] at cleared
        cases cleared
    | ok result =>
        obtain ⟨ip, fs₁⟩ := result
        rw [got] at lookup
        obtain ⟨directory₁, spare, held⟩ := directory.iget deInRange got
        obtain ⟨tot, fs₂, wrote, others, sameRef, outcome⟩ := writeDirent_spec directory₁ inside
          (show Dirent.zero.inum.toNat < sb.ninodes from Nat.zero_lt_of_lt deInRange)
        rcases outcome with ⟨written, directory₂⟩ | ⟨_, atEnd, _⟩
        · -- The reference is still one that can be given back.
          have spare₂ : Spare fs₂ ip ∧ (dp = ip → 1 < (fs₂.itable ip).ref) := by
            by_cases same : dp = ip
            · have more := held same
              subst same
              refine ⟨⟨by omega, fun isOne => by omega⟩, fun _ => by omega⟩
            · unfold Spare
              rw [others ip (Ne.symm same)]
              exact ⟨spare, fun isSame => absurd isSame same⟩
          obtain ⟨fs₃, dropped, directory₃⟩ := directory₂.iput spare₂.1 spare₂.2
          have result : clearEntry sb fs dp name = .ok (true, fs₃) := by
            simp only [clearEntry, lookup, wrote, written, ne_eq, not_true_eq_false,
              if_false, dropped]
          rw [result] at cleared
          cases cleared
          exact .inr ⟨rfl, k, de, isBound, directory₃⟩
        · have inList := (List.getElem?_eq_some_iff.mp isBound.1).1
          omega
  · have absent : ∀ de, ¬ Binds Dirent.key entries (cstring name DIRSIZ) de :=
      fun de isBound => bound ⟨de, isBound⟩
    have lookup := dirlookup_unbound directory absent
    simp only [clearEntry, lookup] at cleared
    cases cleared
    exact .inl ⟨rfl, absent, directory⟩

/-! ## Runs -/

/-- A run of links of inodes and of removals in the directory at `dp`. -/
inductive DirectoryRun (sb : Superblock) (dp : InodeId) (start : FileSystem) :
    FileSystem → Prop where
  | start : DirectoryRun sb dp start start
  | link {fs fs' : FileSystem} {name : Name} {inum : BitVec 32} {r : Int}
      (run : DirectoryRun sb dp start fs) (inRange : inum.toNat < sb.ninodes)
      (linked : dirlink sb fs dp name inum = .ok (r, fs')) : DirectoryRun sb dp start fs'
  | clear {fs fs' : FileSystem} {name : Name} {removed : Bool} (run : DirectoryRun sb dp start fs)
      (cleared : clearEntry sb fs dp name = .ok (removed, fs')) : DirectoryRun sb dp start fs'

theorem ofNat_lt {inum : BitVec 32} {bound : Nat} (inRange : inum.toNat < bound) :
    (BitVec.ofNat 16 inum.toNat).toNat < bound := by
  rw [BitVec.toNat_ofNat]
  exact Nat.lt_of_le_of_lt (Nat.mod_le _ _) inRange

/-- A cell that is new or free keeps the names distinct. -/
theorem Directory.link_unique (unique : Unique Dirent.key entries)
    (absent : ∀ de, ¬ Binds Dirent.key entries (cstring name DIRSIZ) de) (inum : Nat) :
    Unique Dirent.key (put entries (firstFree Dirent.key entries) (Dirent.ofName name inum)) := by
  by_cases isFree : BitVec.ofNat 16 inum = 0
  · exact unique.remove (Dirent.key_eq_none.mpr isFree) (firstFree_le _ _)
  · exact unique.insert (Dirent.key_ofName isFree) absent

theorem DirectoryRun.directory {start : FileSystem} (run : DirectoryRun sb dp start fs)
    {first : List Dirent} (directory : Directory sb start dp first)
    (distinct : Unique Dirent.key first) :
    ∃ entries, Directory sb fs dp entries ∧ Unique Dirent.key entries := by
  induction run with
  | start => exact ⟨first, directory, distinct⟩
  | @link fs fs' name inum r run inRange linked ih =>
      obtain ⟨entries, isDirectory, unique⟩ := ih
      by_cases bound : ∃ de, Binds Dirent.key entries (cstring name DIRSIZ) de
      · obtain ⟨de, isBound⟩ := bound
        rcases dirlink_present isDirectory unique isBound inum with ⟨_, result, kept⟩ | ⟨failed, _⟩
        · rw [result] at linked
          cases linked
          exact ⟨entries, kept, unique⟩
        · rw [failed] at linked
          cases linked
      · have absent : ∀ de, ¬ Binds Dirent.key entries (cstring name DIRSIZ) de :=
          fun de isBound => bound ⟨de, isBound⟩
        obtain ⟨_, _, result, outcome⟩ := dirlink_new isDirectory absent (ofNat_lt inRange)
        rw [result] at linked
        cases linked
        rcases outcome with ⟨_, added⟩ | ⟨_, _, kept, _⟩
        · exact ⟨_, added, Directory.link_unique unique absent _⟩
        · exact ⟨entries, kept, unique⟩
  | clear run cleared ih =>
      obtain ⟨entries, isDirectory, unique⟩ := ih
      rcases clearEntry_spec isDirectory unique cleared with ⟨_, _, kept⟩ |
        ⟨_, k, de, bound, removed⟩
      · exact ⟨entries, kept, unique⟩
      · have inside := Nat.le_of_lt (List.getElem?_eq_some_iff.mp bound.1).1
        exact ⟨_, removed, unique.remove (Dirent.key_eq_none.mpr rfl) inside⟩

/-- `dirlookup` returns inode `inum`, from the entry at `off`. -/
def Finds (sb : Superblock) (fs : FileSystem) (dp : InodeId) (name : Name) (inum off : Nat) :
    Prop :=
  ∃ ip fs', dirlookup sb fs dp name = .ok (some (ip, off), fs') ∧ (fs'.itable ip).inum = inum

def EntryAt (entries : List Dirent) (name : Name) (inum k : Nat) : Prop :=
  ∃ de, entries[k]? = some de ∧ de.inum.toNat = inum ∧ de.Matches name

theorem exists_entryAt_iff : (∃ k, EntryAt entries name inum k) ↔
    ∃ de, Binds Dirent.key entries (cstring name DIRSIZ) de ∧ de.inum.toNat = inum := by
  constructor
  · rintro ⟨k, de, isEntry, isInode, found⟩
    exact ⟨de, ⟨k, isEntry, Dirent.matches_iff.mp found⟩, isInode⟩
  · rintro ⟨de, ⟨k, isEntry, isKey⟩, isInode⟩
    exact ⟨k, de, isEntry, isInode, Dirent.matches_iff.mpr isKey⟩

theorem iget_inum (got : iget fs inum = .ok (ip, fs')) :
    (fs'.itable ip).inum = inum := by
  rcases iget_cases got with ⟨_, isInode, rfl⟩ | ⟨_, _, rfl⟩
  · rw [show (fs.setInode ip _).itable ip = _ from Function.update_self ..]
    exact isInode
  · rw [show (fs.setInode ip _).itable ip = _ from Function.update_self ..]

/-- `dirlookup` finds an entry just when it is there, and `iget` returns its inode. -/
theorem finds_iff (directory : Directory sb fs dp entries) (unique : Unique Dirent.key entries)
    (name : Name) (inum off : Nat) :
    Finds sb fs dp name inum off ↔
      (∃ k, off = k * Dirent.codec.width ∧ EntryAt entries name inum k) ∧
        ∃ result, iget fs inum = .ok result := by
  constructor
  · rintro ⟨ip, fs', found, isInode⟩
    by_cases bound : ∃ de, Binds Dirent.key entries (cstring name DIRSIZ) de
    · obtain ⟨de, k, isBound⟩ := bound
      rw [dirlookup_bound directory unique isBound, foundAt] at found
      cases got : iget fs de.inum.toNat with
      | error panic =>
          rw [got] at found
          cases found
      | ok result =>
          obtain ⟨jp, next⟩ := result
          rw [got] at found
          cases found
          have isNumber := iget_inum got
          rw [isInode] at isNumber
          subst isNumber
          exact ⟨⟨k, rfl, de, isBound.1, rfl, Dirent.matches_iff.mpr isBound.2⟩, _, got⟩
    · rw [dirlookup_unbound directory fun de isBound => bound ⟨de, isBound⟩] at found
      cases found
  · rintro ⟨⟨k, rfl, de, isEntry, rfl, found⟩, ⟨ip, fs'⟩, got⟩
    refine ⟨ip, fs', ?_, iget_inum got⟩
    rw [dirlookup_bound directory unique ⟨isEntry, Dirent.matches_iff.mp found⟩, foundAt, got]

/-- **Directories are finite maps.** After any run of links and removals no two entries in use
have equal names; `dirlookup` finds just the entries that are there; `dirlink` of a new name
adds that binding in the first free place or at the end, or returns -1 and leaves the entries
when the directory cannot be extended; and `dirlink` of a name that is there returns -1 and
leaves the entries. Where `iget` has no entry of the inode table for the inode that is found,
it panics. -/
theorem directory_map {start : FileSystem} {first : List Dirent}
    (directory : Directory sb start dp first) (distinct : Unique Dirent.key first)
    (run : DirectoryRun sb dp start fs) :
    ∃ entries, Directory sb fs dp entries ∧
      (∀ (i j : Nat) (a b : Dirent), entries[i]? = some a → entries[j]? = some b → a.inum ≠ 0 →
        b.inum ≠ 0 → namecmp a.nameBytes b.nameBytes = 0 → i = j) ∧
      (∀ name inum off, Finds sb fs dp name inum off ↔
        (∃ k, off = k * Dirent.codec.width ∧ EntryAt entries name inum k) ∧
          ∃ result, iget fs inum = .ok result) ∧
      (∀ (name : Name) (inum : BitVec 32), inum ≠ 0 → inum.toNat < 2 ^ 16 →
        inum.toNat < sb.ninodes → (∀ de ∈ entries, ¬ de.Matches name) →
        ∃ r fs', dirlink sb fs dp name inum = .ok (r, fs') ∧
          ((r = 0 ∧ Directory sb fs' dp (put entries (firstFree Dirent.key entries)
              (Dirent.ofName name inum.toNat)) ∧
            ∀ other number, (∃ k, EntryAt (put entries (firstFree Dirent.key entries)
                (Dirent.ofName name inum.toNat)) other number k) ↔
              (namecmp other name = 0 ∧ number = inum.toNat) ∨ ∃ k,
                EntryAt entries other number k) ∨
            (r = -1 ∧ firstFree Dirent.key entries = entries.length ∧
              (MAXFILE * BSIZE < (entries.length + 1) * Dirent.codec.width ∨ sb.Full fs'.blocks) ∧
              Directory sb fs' dp entries ∧ (fs'.itable dp).size = (fs.itable dp).size))) ∧
      ∀ (name : Name) (inum : BitVec 32) (de : Dirent), de ∈ entries → de.Matches name →
        (∃ fs', dirlink sb fs dp name inum = .ok (-1, fs') ∧ Directory sb fs' dp entries ∧
          (fs'.itable dp).size = (fs.itable dp).size) ∨
        (dirlink sb fs dp name inum = .error (.inode .noInodes) ∧
          iget fs de.inum.toNat = .error .noInodes) := by
  obtain ⟨entries, isDirectory, unique⟩ := run.directory directory distinct
  have sameSize : ∀ fs', Directory sb fs' dp entries → (fs'.itable dp).size = (fs.itable dp).size :=
    fun fs' kept => BitVec.eq_of_toNat_eq (kept.size.trans isDirectory.size.symm)
  refine ⟨entries, isDirectory, ?_, finds_iff isDirectory unique, ?_, ?_⟩
  · intro i j a b isA isB aInUse bInUse sameName
    rw [namecmp_eq_zero_iff] at sameName
    refine unique i j (cstring a.nameBytes DIRSIZ) a b ⟨isA, if_neg aInUse⟩ ⟨isB, ?_⟩
    rw [sameName]
    exact if_neg bInUse
  · intro name inum number small inRange absent
    have inUse : BitVec.ofNat 16 inum.toNat ≠ 0 := by
      intro isZero
      have value := congrArg BitVec.toNat isZero
      rw [BitVec.toNat_ofNat, Nat.mod_eq_of_lt small] at value
      exact number (BitVec.eq_of_toNat_eq value)
    have unbound : ∀ de, ¬ Binds Dirent.key entries (cstring name DIRSIZ) de := by
      rintro de ⟨k, isEntry, isKey⟩
      exact absent de (List.mem_of_getElem? isEntry) (Dirent.matches_iff.mpr isKey)
    obtain ⟨r, fs', linked, outcome⟩ := dirlink_new isDirectory unbound (ofNat_lt inRange)
    refine ⟨r, fs', linked, ?_⟩
    rcases outcome with ⟨isZero, added⟩ | ⟨failed, atEnd, kept, reason⟩
    · refine .inl ⟨isZero, added, fun other number => ?_⟩
      have isNumber : (Dirent.ofName name inum.toNat).inum.toNat = inum.toNat := by
        show (BitVec.ofNat 16 inum.toNat).toNat = inum.toNat
        rw [BitVec.toNat_ofNat, Nat.mod_eq_of_lt small]
      rw [exists_entryAt_iff, exists_entryAt_iff, namecmp_eq_zero_iff]
      constructor
      · rintro ⟨de, binds, rfl⟩
        rcases (binds_insert (Dirent.key_ofName inUse)).mp binds with ⟨isName, rfl⟩ | old
        · exact .inl ⟨isName, isNumber⟩
        · exact .inr ⟨de, old, rfl⟩
      · rintro (⟨isName, rfl⟩ | ⟨de, old, rfl⟩)
        · exact ⟨_, (binds_insert (Dirent.key_ofName inUse)).mpr (.inl ⟨isName, rfl⟩), isNumber⟩
        · exact ⟨de, (binds_insert (Dirent.key_ofName inUse)).mpr (.inr old), rfl⟩
    · exact .inr ⟨failed, atEnd, reason, kept, sameSize fs' kept⟩
  · intro name inum de member found
    obtain ⟨k, isEntry⟩ := List.mem_iff_getElem?.mp member
    rcases dirlink_present isDirectory unique ⟨k, isEntry, Dirent.matches_iff.mp found⟩ inum with
      ⟨fs', linked, kept⟩ | failed
    · exact .inl ⟨fs', linked, kept, sameSize fs' kept⟩
    · exact .inr failed

/-- "." and ".." are linked in a new directory and "." is removed. Then ".." is the second entry,
and "." can be linked again, with another inode. -/
theorem directory_map_relink : ∃ (start fs fs' : FileSystem) (entries : List Dirent),
    Directory mkfsSuperblock start firstEntry [] ∧ Unique Dirent.key ([] : List Dirent) ∧
    DirectoryRun mkfsSuperblock firstEntry start fs ∧
    Directory mkfsSuperblock fs firstEntry entries ∧ EntryAt entries dotdot 1 1 ∧
    dirlink mkfsSuperblock fs firstEntry dot 2 = .ok (0, fs') ∧
    Directory mkfsSuperblock fs' firstEntry
      (put entries (firstFree Dirent.key entries) (Dirent.ofName dot 2)) := by
  obtain ⟨start, reachable, live, valid, isDir, isEmpty, passed⟩ := Reachable.exists_of_follow
    mkfsSuperblock (emptyImage mkfsSuperblock) [.ialloc T_DIR, .ilock firstEntry]
    (fun fs => 0 < (fs.itable firstEntry).ref ∧ (fs.itable firstEntry).valid = true ∧
      (fs.itable firstEntry).type = T_DIR ∧ fs.content firstEntry = [] ∧
      ((dirlink mkfsSuperblock fs firstEntry dot 1).bind fun first =>
        (dirlink mkfsSuperblock first.2 firstEntry dotdot 1).bind fun second =>
        (clearEntry mkfsSuperblock second.2 firstEntry dot).bind fun third =>
        (dirlookup mkfsSuperblock third.2 firstEntry dotdot).bind fun found =>
        (dirlink mkfsSuperblock third.2 firstEntry dot 2).bind fun last =>
        .ok (found.1.map fun place => ((found.2.itable place.1).inum, place.2), last.1)) =
          .ok (some (1, 16), 0)) (by decide +kernel)
  have directory : Directory mkfsSuperblock start firstEntry [] :=
    ⟨reachable.ready (emptyImage_wellFormed mkfsSuperblock), live, valid, isDir, isEmpty, nofun⟩
  obtain ⟨⟨_, fs₁⟩, linked, passed⟩ := exists_of_bind passed
  obtain ⟨⟨_, fs₂⟩, linked', passed⟩ := exists_of_bind passed
  obtain ⟨⟨_, fs⟩, cleared, passed⟩ := exists_of_bind passed
  obtain ⟨⟨found, fs₃⟩, looked, passed⟩ := exists_of_bind passed
  obtain ⟨⟨r, fs'⟩, relinked, isResult⟩ := exists_of_bind passed
  simp only [Except.ok.injEq, Prod.mk.injEq] at isResult
  obtain ⟨isFound, rfl⟩ := isResult
  have run := ((DirectoryRun.start.link (by decide) linked).link (by decide) linked').clear cleared
  obtain ⟨entries, isDirectory, -, finds, links, present⟩ := directory_map directory .nil run
  have absent : ∀ de ∈ entries, ¬ de.Matches dot := by
    intro de member isDot
    rcases present dot 2 de member isDot with ⟨fs'', again, -⟩ | ⟨failed, -⟩
    · rw [relinked] at again
      cases again
    · rw [relinked] at failed
      cases failed
  refine ⟨start, fs, fs', entries, directory, .nil, run, isDirectory, ?_, relinked, ?_⟩
  · obtain ⟨⟨ip, off⟩, rfl, isPlace⟩ := Option.map_eq_some_iff.mp isFound
    simp only [Prod.mk.injEq] at isPlace
    obtain ⟨isInode, rfl⟩ := isPlace
    obtain ⟨⟨k, isOff, isEntry⟩, -⟩ := (finds dotdot 1 16).mp ⟨ip, fs₃, looked, isInode⟩
    have isWidth : Dirent.codec.width = 16 := rfl
    rw [isWidth] at isOff
    obtain rfl : k = 1 := by omega
    exact isEntry
  · obtain ⟨r, fs'', again, ⟨-, added, -⟩ | ⟨failed, -⟩⟩ :=
      links dot 2 (by decide) (by decide) (by decide) absent
    · rw [relinked] at again
      cases again
      exact added
    · rw [relinked, failed] at again
      cases again

end Xv6.Fs
