import Xv6.Fs.Holes

/-!
Contract: reading and writing files.

Owns: the contents of a file under `readi` and `writei`, what a short `writei` from user memory
reports, and `filewrite` of a file in the file system, whose parts each fit into a transaction
of the log.

Does not own: pipes and devices, and the log itself.
-/

namespace Xv6.Fs

open Xv6.Kernel
open Xv6.Format

variable {sb : Superblock} {fs fs' : FileSystem} {ip : InodeId}

abbrev firstEntry : InodeId := ⟨0, zero_lt_NINODE⟩

/-! ## The contents of files -/

/-- **File contents.** A `writei` from memory that is there either is refused and changes
nothing, or writes the first `t` bytes, all of them unless no block is free, and leaves the
contents of all other inodes. `readi` delivers the part of the contents that was asked for; its
sum of offset and length is one of `uint`s. -/
theorem writei_readi_content (ready : Ready sb fs) (live : 0 < (fs.itable ip).ref)
    (valid : (fs.itable ip).valid = true) :
    (∀ (user : Bool) (space : Space) (src : Nat) (off n : BitVec 32),
      (user = true → space.Covers src n.toNat) →
      if off > (fs.itable ip).size ∨ 2 ^ 32 ≤ off.toNat + n.toNat ∨
          MAXFILE * BSIZE < off.toNat + n.toNat then
        writei sb fs ip user space src off n = .ok (-1, fs)
      else
        ∃ (t : Nat) (fs' : FileSystem), writei sb fs ip user space src off n = .ok (t, fs') ∧
          t ≤ n.toNat ∧ (t < n.toNat → sb.Full fs'.blocks) ∧
          fs'.content ip =
            overwrite (fs.content ip) off.toNat (firstBytes (fun i => space.bytes (src + i)) t) ∧
          (fs'.itable ip).size.toNat = max (fs.itable ip).size.toNat (off.toNat + t) ∧
          (∀ inum, inum < sb.ninodes → inum ≠ (fs.itable ip).inum →
            Fs.content fs'.blocks (sb.dinode fs'.blocks inum) =
              Fs.content fs.blocks (sb.dinode fs.blocks inum)) ∧
          ∀ jp, jp ≠ ip → fs'.itable jp = fs.itable jp) ∧
    ∀ (user : Bool) (space : Space) (dst : Nat) (off n : BitVec 32),
      Writable space user dst (min (off + n).toNat (fs.itable ip).size.toNat - off.toNat) →
      readi sb fs ip user space dst off n =
        .ok ((min (off + n).toNat (fs.itable ip).size.toNat - off.toNat : Nat),
          space.store dst (fun i => (fs.content ip).getD (off.toNat + i) 0)
            (min (off + n).toNat (fs.itable ip).size.toNat - off.toNat), fs) := by
  refine ⟨fun user space src off n covers => ?_, fun user space dst off n writable =>
    readi_content sb (ready.mapped live valid) writable⟩
  split
  · rename_i refused
    exact writei_refused sb refused user space src
  · rename_i accepted
    obtain ⟨t, k, fs₁, fs', wrote, copied, rewritten, _, sameMarks⟩ :=
      writei_accepted ready live valid accepted user space src
    obtain ⟨addrs, size, isInode, isSize⟩ := rewritten.inode
    have all : space.available user src n.toNat = n.toNat := Space.available_of_covers covers
    have noRest : k = 0 ∧ (t < n.toNat → sb.Full fs'.blocks) := by
      have stopped := copied.stopped
      rw [all] at stopped
      cases stopped with
      | finished => exact ⟨rfl, fun less => absurd less (Nat.lt_irrefl _)⟩
      | full _ _ _ _ full => exact ⟨rfl, fun _ b inVolume => (sameMarks b).trans (full b inVolume)⟩
      | fault less => exact absurd less (Nat.lt_irrefl _)
    obtain ⟨rfl, isFull⟩ := noRest
    have startsInside : off.toNat ≤ (fs.itable ip).size.toNat := by
      have notLess := BitVec.lt_def.not.mp fun beyond => accepted (.inl beyond)
      omega
    refine ⟨t, fs', wrote, copied.stopped.le, isFull, ?_, ?_, fun inum inRange other =>
      (rewritten.others inum inRange other).2, rewritten.entries⟩
    · rw [rewritten.content, Nat.add_zero, List.take_of_length_le]
      rw [overwrite_length (by rw [fs.content_length]; exact startsInside), fs.content_length,
        firstBytes_length]
    · rw [isInode, isSize]

/-- A new file is written from kernel memory. -/
theorem writei_readi_content_newFile : ∃ fs : FileSystem,
    Reachable mkfsSuperblock (emptyImage mkfsSuperblock) fs ∧
    ∃ (t : Nat) (fs' : FileSystem),
      writei mkfsSuperblock fs firstEntry false ⟨fun _ => false, fun _ => 7⟩ 0 0 3 =
        .ok (t, fs') ∧ fs'.content firstEntry = firstBytes (fun _ => 7) t := by
  obtain ⟨fs, reachable, live, valid, isEmpty⟩ := Reachable.exists_of_follow
    mkfsSuperblock (emptyImage mkfsSuperblock) [.ialloc 2, .ilock firstEntry]
    (fun fs => 0 < (fs.itable firstEntry).ref ∧ (fs.itable firstEntry).valid = true ∧
      (fs.itable firstEntry).size = 0) (by decide +kernel)
  have writes := (writei_readi_content (reachable.ready (emptyImage_wellFormed mkfsSuperblock)) live
    valid).1 false ⟨fun _ => false, fun _ => 7⟩ 0 0 3 (fun isUser => Bool.noConfusion isUser)
  rw [if_neg (by rw [isEmpty]; decide)] at writes
  obtain ⟨t, fs', wrote, _, _, isContent, _⟩ := writes
  refine ⟨fs, reachable, t, fs', wrote, isContent.trans ?_⟩
  have nothing : fs.content firstEntry = [] := by
    rw [← List.length_eq_zero_iff, fs.content_length, isEmpty]
    rfl
  rw [nothing, overwrite, List.take_nil, List.drop_nil, List.nil_append, List.append_nil]

/-- A file of four bytes has three from offset 1 on. With a length of `2 ^ 32 - 1` the sum of offset
and length is 0, and `readi` delivers none. -/
theorem readi_overflows : ∃ fs : FileSystem,
    Reachable mkfsSuperblock (emptyImage mkfsSuperblock) fs ∧ 0 < (fs.itable firstEntry).ref ∧
    (fs.itable firstEntry).valid = true ∧ fs.content firstEntry = [7, 8, 9, 10] ∧
    ((fs.content firstEntry).take (min (1 + (2 ^ 32 - 1)) 4)).drop 1 = [8, 9, 10] ∧
    ∀ space dst, readi mkfsSuperblock fs firstEntry false space dst 1
      (BitVec.ofNat 32 (2 ^ 32 - 1)) =
      .ok (0, space, fs) := by
  obtain ⟨fs, reachable, live, valid, isContent⟩ := Reachable.exists_of_follow
    mkfsSuperblock (emptyImage mkfsSuperblock)
    [.ialloc 2, .ilock firstEntry,
      .writei firstEntry false ⟨fun _ => false, fun i => BitVec.ofNat 8 (7 + i)⟩ 0 0 4]
    (fun fs => 0 < (fs.itable firstEntry).ref ∧ (fs.itable firstEntry).valid = true ∧
      fs.content firstEntry = [7, 8, 9, 10]) (by decide +kernel)
  refine ⟨fs, reachable, live, valid, isContent, by rw [isContent]; rfl, fun space dst => ?_⟩
  have overflows : (1 : BitVec 32) + BitVec.ofNat 32 (2 ^ 32 - 1) < 1 := by decide
  rw [readi, if_pos (.inr overflows)]

/-! ## Short writes -/

/-- What `readi` reads from the whole file. -/
def seen (sb : Superblock) (fs : FileSystem) (ip : InodeId) : Except Panic (List Byte) :=
  (readi sb fs ip false ⟨fun _ => false, fun _ => 0⟩ 0 0 (fs.itable ip).size).map fun result =>
    firstBytes result.2.1.bytes result.1.toNat

theorem seen_eq (sb : Superblock)
    (mapped : MappedTo fs.blocks (fs.itable ip).toDinode (fs.itable ip).size.toNat) :
    seen sb fs ip = .ok (fs.content ip) := by
  have stored : Stored fs.blocks (fs.itable ip).toDinode (fs.content ip) := stored_content mapped
  have isLength := fs.content_length ip
  have inside : (0 : BitVec 32).toNat + (fs.itable ip).size.toNat ≤ (fs.content ip).length := by
    rw [isLength]
    exact Nat.le_of_eq (Nat.zero_add _)
  have delivered := readi_stored sb stored inside (Nat.le_of_eq isLength)
    (fun isUser => Bool.noConfusion isUser :
      Writable ⟨fun _ => false, fun _ => 0⟩ false 0 (fs.itable ip).size.toNat)
  unfold seen
  rw [delivered, ← isLength]
  refine congrArg Except.ok (Eq.trans (firstBytes_congr fun i below => ?_) (firstBytes_getD _))
  have start : (0 : BitVec 32).toNat = 0 := rfl
  rw [Space.bytes_store, memmove, if_pos (by omega), start, Nat.zero_add, Nat.sub_zero]

/-- A `writei` from user memory that returns less than `n` has written what it reports. -/
def Reported (sb : Superblock) (fs : FileSystem) (ip : InodeId) (space : Space) (src : Nat)
    (off n : BitVec 32) : Prop :=
  ∀ r fs' old, writei sb fs ip true space src off n = .ok (r, fs') → r < n.toNat →
    seen sb fs ip = .ok old →
    seen sb fs' ip = .ok
      (overwrite old off.toNat (firstBytes (fun i => space.bytes (src + i)) r.toNat))

/-- Between the last block boundary before the first page that is not there, at byte `d` of the
buffer, and that byte, the buffer has the bytes of the file. -/
def AgreesBeforeFault (fs : FileSystem) (ip : InodeId) (space : Space) (src off n : Nat) : Prop :=
  ∀ d, d < n → space.Covers src d → space.mapped (PGROUNDDOWN (src + d)) = false →
    ∀ p, off ≤ p → (off + d) / BSIZE * BSIZE ≤ p → p < off + d → p < (fs.itable ip).size.toNat →
      (fs.content ip)[p]? = some (space.bytes (src + (p - off)))

theorem overwrite_nil (old : List Byte) (off : Nat) : overwrite old off [] = old := by
  rw [overwrite, List.append_nil, List.length_nil, Nat.add_zero, List.take_append_drop]

section ShortWrites

variable {space : Space} {src off n t k : Nat}

/-- The bytes that are put into the last block do not show if they are those of the file. -/
theorem take_overwrite_eq_iff {old : List Byte} (new : List Byte) (inside : off ≤ old.length)
    (some : t ≤ new.length) :
    (overwrite old off new).take (max old.length (off + t)) = overwrite old off (new.take t) ↔
      ∀ p, off + t ≤ p → p < off + new.length → p < old.length → old[p]? = new[p - off]? := by
  have isTaken : (new.take t).length = t := by
    rw [List.length_take]
    omega
  have taken : ∀ p, p < max old.length (off + t) →
      ((overwrite old off new).take (max old.length (off + t)))[p]? =
        if off ≤ p ∧ p < off + new.length then new[p - off]? else old[p]? := by
    intro p below
    rw [List.getElem?_take_of_lt below, getElem?_overwrite inside]
  have reported : ∀ p, (overwrite old off (new.take t))[p]? =
      if off ≤ p ∧ p < off + t then new[p - off]? else old[p]? := by
    intro p
    rw [getElem?_overwrite inside, isTaken]
    split
    · rw [List.getElem?_take_of_lt (by omega)]
    · rfl
  constructor
  · intro same p low high inFile
    have atPlace := congrArg (·[p]?) same
    rw [taken p (by omega), reported, if_pos (by omega), if_neg (by omega)] at atPlace
    exact atPlace.symm
  · intro agree
    refine List.ext_getElem? fun p => ?_
    rcases Nat.lt_or_ge p (max old.length (off + t)) with below | above
    · rw [taken p below, reported]
      by_cases isReported : off ≤ p ∧ p < off + t
      · rw [if_pos isReported, if_pos (by omega)]
      · rw [if_neg isReported]
        split
        · exact (agree p (by omega) (by omega) (by omega)).symm
        · rfl
    · rw [List.getElem?_eq_none (by rw [List.length_take]; omega),
        List.getElem?_eq_none (by rw [overwrite_length inside, isTaken]; omega)]

/-- Where the loop stops, what it has put into a block without counting it agrees with the
file just when the buffer does so before its first page that is not there. -/
theorem Copied.agrees_iff (copied : Copied sb true space fs fs' ip src off n t k)
    (mapped : MappedTo fs.blocks (fs.itable ip).toDinode (fs.itable ip).size.toNat) :
    (t < n → ∀ p, off + t ≤ p → p < off + (t + k) → p < (fs.itable ip).size.toNat →
      (fs.content ip)[p]? = some (space.bytes (src + (p - off)))) ↔
      AgreesBeforeFault fs ip space src off n := by
  have blockSize : 0 < BSIZE := by decide
  obtain ⟨atMost, covers, faults⟩ := space.available_spec true src n
  -- The byte of the first page that is not there is the one the copies came to.
  have isAvailable : ∀ d, d < n → space.Covers src d →
      space.mapped (PGROUNDDOWN (src + d)) = false →
      space.available true src n = d := fun d inside covered absent =>
    Space.available_eq (Nat.le_of_lt inside) (fun _ => covered) fun _ => ⟨rfl, absent⟩
  have stopped := copied.stopped
  cases stopped with
  | finished all =>
      refine ⟨fun _ d inside covered absent => ?_, fun _ less => absurd less (Nat.lt_irrefl _)⟩
      rw [isAvailable d inside covered absent] at all
      omega
  | full less reached atStart vacant =>
      refine ⟨fun _ d inside covered absent p low boundary high inFile =>
        ?_, fun _ _ p low high => by omega⟩
      -- The file ends before the block for which no block is free.
      rw [isAvailable d inside covered absent] at reached
      have isEnd : (fs.itable ip).size.toNat ≤ off + t := by
        by_contra longer
        exact vacant (mapped.hasBlock (by omega))
      have division := Nat.div_add_mod' (off + d) BSIZE
      have rest := Nat.mod_lt (off + d) blockSize
      rcases atStart with isZero | atBoundary
      · omega
      · have before : (off + t) / BSIZE ≤ (off + d) / BSIZE := Nat.div_le_div_right (by omega)
        have scaled := Nat.mul_le_mul_right BSIZE before
        have whole := Nat.div_add_mod' (off + t) BSIZE
        omega
  | fault less parts inBlock =>
      have isFault := (faults less).2
      generalize space.available true src n = a at *
      have division := Nat.div_add_mod' (off + a) BSIZE
      constructor
      · intro agree d inside covered absent p low boundary high inFile
        obtain rfl := isAvailable d inside covered absent
        exact agree (by omega) p (by omega) (by omega) inFile
      · intro agree _ p low high inFile
        exact agree a less (covers rfl) isFault p (by omega) (by omega) (by omega) inFile

end ShortWrites

/-- **Short writes report what they changed just when** they are refused or the buffer agrees
with the file in the part of the last block that was copied before the fault. -/
theorem reported_iff (ready : Ready sb fs) (live : 0 < (fs.itable ip).ref)
    (valid : (fs.itable ip).valid = true) (space : Space) (src : Nat) (off n : BitVec 32) :
    Reported sb fs ip space src off n ↔
      Refused fs ip off n ∨ AgreesBeforeFault fs ip space src off.toNat n.toNat := by
  have mapped := ready.mapped live valid
  have before := seen_eq sb mapped
  by_cases refused : Refused fs ip off n
  · refine iff_of_true ?_ (.inl refused)
    intro r fs' old wrote _ isOld
    rw [writei_refused sb refused true space src] at wrote
    cases wrote
    rw [isOld]
    exact congrArg Except.ok (overwrite_nil old off.toNat).symm
  · obtain ⟨t, k, fs₁, fs', wrote, copied, rewritten, _⟩ :=
      writei_accepted ready live valid refused true space src
    obtain ⟨addrs, size, isInode, isSize⟩ := rewritten.inode
    have startsInside : off.toNat ≤ (fs.content ip).length := by
      have notLess := BitVec.lt_def.not.mp fun beyond => refused (.inl beyond)
      rw [fs.content_length]
      omega
    have after : seen sb fs' ip = .ok (fs'.content ip) := by
      refine seen_eq sb (rewritten.ready.mapped ?_ ?_)
      · rw [isInode]
        exact live
      · rw [isInode]
        exact valid
    have shows := take_overwrite_eq_iff (t := t)
      (firstBytes (fun i => space.bytes (src + i)) (t + k)) startsInside
      (by rw [firstBytes_length]; omega)
    rw [take_firstBytes, fs.content_length, firstBytes_length, ← rewritten.content] at shows
    have isReported : Reported sb fs ip space src off n ↔ (t < n.toNat → fs'.content ip =
        overwrite (fs.content ip) off.toNat (firstBytes (fun i => space.bytes (src + i)) t)) := by
      constructor
      · intro reported less
        have isSeen := reported t fs' _ wrote (by omega) before
        rw [after] at isSeen
        exact Except.ok.inj isSeen
      · intro same r next old isWritten less isOld
        rw [wrote] at isWritten
        cases isWritten
        rw [before] at isOld
        cases isOld
        rw [after, same (by omega)]
        rfl
    rw [isReported, or_iff_right refused, ← copied.agrees_iff mapped, shows]
    refine forall_congr' fun _ => forall₄_congr fun p low high inFile => ?_
    rw [getElem?_firstBytes _ (by omega)]

/-- The buffer begins two bytes before a page that is not there, and the file begins with those
two bytes: `writei` returns 0, and the file is as before. -/
theorem reported_iff_agreeing : ∃ fs : FileSystem,
    Reachable mkfsSuperblock (emptyImage mkfsSuperblock) fs ∧
    ((writei mkfsSuperblock fs firstEntry true ⟨fun va => va = 0, fun _ => 7⟩ 4094 0 4).map
      fun result => (result.1, result.2.content firstEntry)) = .ok (0, [7, 7, 0, 0]) ∧
    fs.content firstEntry = [7, 7, 0, 0] ∧
    Reported mkfsSuperblock fs firstEntry ⟨fun va => va = 0, fun _ => 7⟩ 4094 0 4 := by
  obtain ⟨fs, reachable, live, valid, isWritten, isContent⟩ := Reachable.exists_of_follow
    mkfsSuperblock (emptyImage mkfsSuperblock)
    [.ialloc 2, .ilock firstEntry,
      .writei firstEntry false ⟨fun _ => false, fun i => if i < 2 then 7 else 0⟩ 0 0 4]
    (fun fs => 0 < (fs.itable firstEntry).ref ∧ (fs.itable firstEntry).valid = true ∧
      ((writei mkfsSuperblock fs firstEntry true ⟨fun va => va = 0, fun _ => 7⟩ 4094 0 4).map
        fun result => (result.1, result.2.content firstEntry)) = .ok (0, [7, 7, 0, 0]) ∧
      fs.content firstEntry = [7, 7, 0, 0]) (by decide +kernel)
  have ready := reachable.ready (emptyImage_wellFormed mkfsSuperblock)
  refine ⟨fs, reachable, isWritten, isContent,
    (reported_iff ready live valid _ _ _ _).mpr (.inr ?_)⟩
  intro d _ covered _ p _ _ beforeFault _
  have inPage : d ≤ 2 := by
    by_contra further
    exact absurd (covered 2 (by omega)) (by decide)
  have firstTwo : p = 0 ∨ p = 1 := by
    have isOff : (0 : BitVec 32).toNat = 0 := rfl
    omega
  rw [isContent]
  rcases firstTwo with rfl | rfl <;> rfl

/-- The file has four zeros, and the buffer begins two bytes before a page that is not there:
`writei` returns 0 and has changed two bytes. -/
theorem shortWrite_unreported : ∃ fs fs' : FileSystem,
    Reachable mkfsSuperblock (emptyImage mkfsSuperblock) fs ∧
    writei mkfsSuperblock fs firstEntry true ⟨fun va => va = 0, fun _ => 7⟩ 4094 0 4 =
      .ok (0, fs') ∧
    seen mkfsSuperblock fs firstEntry = .ok [0, 0, 0, 0] ∧
    seen mkfsSuperblock fs' firstEntry = .ok [7, 7, 0, 0] ∧
    ¬ Reported mkfsSuperblock fs firstEntry ⟨fun va => va = 0, fun _ => 7⟩ 4094 0 4 := by
  obtain ⟨fs, reachable, checked⟩ := Reachable.exists_of_follow
    mkfsSuperblock (emptyImage mkfsSuperblock)
    [.ialloc 2, .ilock firstEntry,
      .writei firstEntry false ⟨fun _ => false, fun _ => 0⟩ 0 0 4]
    (fun fs => (match writei mkfsSuperblock fs firstEntry true
        ⟨fun va => va = 0, fun _ => 7⟩ 4094 0 4 with
      | .ok (r, fs') => decide (r = 0 ∧
          seen mkfsSuperblock fs firstEntry = .ok [0, 0, 0, 0] ∧
          seen mkfsSuperblock fs' firstEntry = .ok [7, 7, 0, 0])
      | .error _ => false) = true) (by decide +kernel)
  split at checked
  · rename_i r fs' wrote
    obtain ⟨rfl, before, after⟩ := of_decide_eq_true checked
    refine ⟨fs, fs', reachable, wrote, before, after, fun reported => ?_⟩
    have claimed := reported 0 fs' _ wrote (by decide) before
    rw [after] at claimed
    exact absurd claimed (by decide)
  · cases checked

/-! ## Transactions of filewrite -/

/-- `int max = ((MAXOPBLOCKS-1-1-2) / 2) * BSIZE` -/
def maxChunk : Nat := (MAXOPBLOCKS - 1 - 1 - 2) / 2 * BSIZE

/-- The part of `filewrite` between `begin_op` and `end_op`, with the blocks it logs, the result
of `writei` and the new `f->off`. -/
def filewriteChunk (sb : Superblock) (fs : FileSystem) (ip : InodeId) (space : Space) (addr : Nat)
    (off : BitVec 32) (n1 : Int) : List Nat × Except Panic (Int × BitVec 32 × FileSystem) :=
  match ilock sb fs ip with
  | .error panic => ([], .error panic)
  | .ok locked =>
      match writei sb locked ip true space addr off (BitVec.ofInt 32 n1) with
      | .error panic => ([], .error panic)
      | .ok (r, fs') => (fs'.logged.drop fs.logged.length,
          .ok (r, if r > 0 then off + BitVec.ofInt 32 r else off, fs'))

/-- The loop of `filewrite` from byte `i` on, with the blocks that each part logs; `n` rounds are
enough. The inode is not locked between the parts: `others` is what other processes do there to
the file system and to `f->off`. -/
def filewriteLoop (sb : Superblock) (ip : InodeId) (space : Space) (addr : Nat) (n : Int)
    (others : Int → FileSystem → BitVec 32 → FileSystem × BitVec 32) :
    Nat → FileSystem → BitVec 32 → Int →
      List (List Nat) × Except Panic (Int × BitVec 32 × FileSystem)
  | 0, fs, off, i => ([], .ok (i, off, fs))
  | rounds + 1, fs, off, i =>
      if i < n then
        let n1 := if n - i > maxChunk then (maxChunk : Int) else n - i
        let (fs, off) := others i fs off
        match filewriteChunk sb fs ip space (addr + i.toNat) off n1 with
        | (logged, .error panic) => ([logged], .error panic)
        | (logged, .ok (r, off, fs)) =>
            if r ≠ n1 then
              ([logged], .ok (i, off, fs))
            else
              let (rest, result) := filewriteLoop sb ip space addr n others rounds fs off (i + r)
              (logged :: rest, result)
      else
        ([], .ok (i, off, fs))

def filewriteInode (sb : Superblock) (fs : FileSystem) (ip : InodeId) (space : Space) (addr : Nat)
    (off : BitVec 32) (n : Int)
    (others : Int → FileSystem → BitVec 32 → FileSystem × BitVec 32) :
    List (List Nat) × Except Panic (Int × BitVec 32 × FileSystem) :=
  let (sections, result) := filewriteLoop sb ip space addr n others n.toNat fs off 0
  (sections, result.map fun (i, off, fs) => (if i = n then n else -1, off, fs))

/-- Other processes keep the file system in order and the reference of the file. -/
def Friendly (sb : Superblock) (ip : InodeId)
    (others : Int → FileSystem → BitVec 32 → FileSystem × BitVec 32) : Prop :=
  ∀ i fs off, Ready sb fs → 0 < (fs.itable ip).ref →
    Ready sb (others i fs off).1 ∧ 0 < ((others i fs off).1.itable ip).ref

section Transactions

variable {space : Space} {src : Nat} {off n : BitVec 32}

/-- The blocks a part of `filewrite` may log: the inode, the indirect block and its bit, up to
four blocks of the contents, of which the first has been there if the offset is in its middle,
and the bits of the other three. -/
def footprint (sb : Superblock) (inum off : Nat) (slots : Slot → BitVec 32) : List Nat :=
  let block (bn : Nat) : Nat :=
    if inFile : bn < MAXFILE then (slots (contentSlot ⟨bn, inFile⟩)).toNat else 0
  sb.iblock inum :: (slots (.addr indirect)).toNat :: sb.bblock (slots (.addr indirect)).toNat ::
    ((List.range' (off / BSIZE) 4).map block ++
      (List.range' ((off + BSIZE - 1) / BSIZE) 3).map fun bn => sb.bblock (block bn))

theorem footprint_length (sb : Superblock) (inum off : Nat) (slots : Slot → BitVec 32) :
    (footprint sb inum off slots).length = MAXOPBLOCKS := by
  simp only [footprint, List.length_cons, List.length_append, List.length_map, List.length_range']
  rfl

/-- What `writei` of at most `maxChunk` bytes logs is in the footprint. -/
theorem Touched.mem_footprint {inum off n c : Nat} {before after : Slot → BitVec 32}
    (touched : Touched sb before after (fun bn => off / BSIZE ≤ bn ∧ bn * BSIZE < off + n) c)
    (short : n ≤ maxChunk)
    (there : ∀ bn : Fin MAXFILE, bn * BSIZE < off → before (contentSlot bn) ≠ 0) :
    c ∈ footprint sb inum off after := by
  unfold footprint
  simp only [List.mem_cons, List.mem_append, List.mem_map, List.mem_range'_1]
  have isShort : n ≤ 3 * BSIZE := short
  cases touched with
  | pointer => exact .inr (.inl rfl)
  | pointerBit => exact .inr (.inr (.inl rfl))
  | @data bn listed =>
      refine .inr (.inr (.inr (.inl ⟨bn, ⟨listed.1, ?_⟩, dif_pos bn.isLt⟩)))
      have inRange := listed.2
      unfold BSIZE at *
      omega
  | @dataBit bn listed vacant =>
      refine .inr (.inr (.inr (.inr ⟨bn, ⟨?_, ?_⟩, congrArg sb.bblock (dif_pos bn.isLt)⟩)))
      · -- A block that begins before the offset has been there.
        have atOrAfter : off ≤ bn * BSIZE := by
          by_contra starts
          exact there bn (by omega) vacant
        unfold BSIZE at *
        omega
      · have inRange := listed.2
        unfold BSIZE at *
        omega

theorem writei_footprint (ready : Ready sb fs) (live : 0 < (fs.itable ip).ref)
    (valid : (fs.itable ip).valid = true) (short : n.toNat ≤ maxChunk) {r : Int}
    (wrote : writei sb fs ip true space src off n = .ok (r, fs')) :
    Ready sb fs' ∧ (fs'.itable ip).ref = (fs.itable ip).ref ∧
      ∃ logged, fs'.logged = fs.logged ++ logged ∧ logged.dedup.length ≤ MAXOPBLOCKS := by
  by_cases refused : Refused fs ip off n
  · rw [writei_refused sb refused] at wrote
    cases wrote
    exact ⟨ready, rfl, [], (List.append_nil _).symm, by decide⟩
  · obtain ⟨t, k, fs₁, _, result, copied, rewritten, isLog, _⟩ :=
      writei_accepted ready live valid refused true space src
    rw [result] at wrote
    cases wrote
    obtain ⟨addrs, size, isInode, _⟩ := rewritten.inode
    obtain ⟨logged, isLog₁, touched⟩ := copied.logs
    refine ⟨rewritten.ready, by rw [isInode], logged ++ [sb.iblock (fs.itable ip).inum],
      by rw [isLog, isLog₁, List.append_assoc], ?_⟩
    have mapped := ready.mapped live valid
    have inside : off.toNat ≤ (fs.itable ip).size.toNat := by
      have notLess := BitVec.lt_def.not.mp fun beyond => refused (.inl beyond)
      omega
    have there : ∀ bn : Fin MAXFILE, bn * BSIZE < off.toNat → fs.slots ip (contentSlot bn) ≠ 0 :=
      fun bn before => (mapped bn (by omega)).2
    have listed : ∀ c ∈ logged ++ [sb.iblock (fs.itable ip).inum],
        c ∈ footprint sb (fs.itable ip).inum off.toNat (fs₁.slots ip) := by
      intro c member
      rcases List.mem_append.mp member with inLoop | isInode
      · exact (touched c inLoop).mem_footprint short there
      · rw [List.mem_singleton.mp isInode]
        exact List.mem_cons_self
    rw [← footprint_length sb (fs.itable ip).inum off.toNat (fs₁.slots ip)]
    refine (List.subperm_of_subset (List.nodup_dedup _) fun c member => ?_).length_le
    exact listed c (List.mem_dedup.mp member)

end Transactions

theorem filewriteChunk_spec (ready : Ready sb fs) (live : 0 < (fs.itable ip).ref) (space : Space)
    (addr : Nat) (off : BitVec 32) {n1 : Int} (short : n1.toNat ≤ maxChunk) (positive : 0 ≤ n1) :
    (filewriteChunk sb fs ip space addr off n1).1.dedup.length ≤ MAXOPBLOCKS ∧
      ∀ r off' fs', (filewriteChunk sb fs ip space addr off n1).2 = .ok (r, off', fs') →
        Ready sb fs' ∧ 0 < (fs'.itable ip).ref := by
  have noLog : ([] : List Nat).dedup.length ≤ MAXOPBLOCKS := by decide
  unfold filewriteChunk
  cases locks : ilock sb fs ip with
  | error panic => exact ⟨noLog, nofun⟩
  | ok locked =>
      obtain ⟨loaded, live', valid⟩ := ilock_loads locks
      have ready' : Ready sb locked := by
        rcases ilock_spec ready live with ⟨next, result, isReady⟩ | full | unallocated
        · rw [locks] at result
          cases result
          exact isReady
        · rw [locks] at full
          cases full
        · rw [locks] at unallocated
          cases unallocated
      have isLength : (BitVec.ofInt 32 n1).toNat = n1.toNat := by
        have small : maxChunk < 2 ^ 32 := by decide
        rw [BitVec.toNat_ofInt]
        omega
      cases wrote : writei sb locked ip true space addr off (BitVec.ofInt 32 n1) with
      | error panic =>
          simp only [wrote]
          exact ⟨noLog, nofun⟩
      | ok result =>
          obtain ⟨r, fs'⟩ := result
          obtain ⟨isReady, sameRef, logged, isLog, bound⟩ := writei_footprint ready' live' valid
            (by rw [isLength]; exact short) wrote
          simp only [wrote]
          refine ⟨?_, ?_⟩
          · rw [isLog, loaded.logged, List.drop_left]
            exact bound
          · rintro _ _ _ ⟨⟩
            rw [sameRef]
            exact ⟨isReady, live'⟩

theorem filewriteLoop_footprint (space : Space) (addr : Nat) (n : Int)
    {others : Int → FileSystem → BitVec 32 → FileSystem × BitVec 32}
    (friendly : Friendly sb ip others) {rounds : Nat} {off : BitVec 32} {i : Int}
    (ready : Ready sb fs) (live : 0 < (fs.itable ip).ref) :
    ∀ logged ∈ (filewriteLoop sb ip space addr n others rounds fs off i).1,
      logged.dedup.length ≤ MAXOPBLOCKS := by
  induction rounds generalizing fs off i with
  | zero => exact nofun
  | succ rounds ih =>
      unfold filewriteLoop
      by_cases more : i < n
      · rw [if_pos more]
        dsimp only
        generalize isPart : (if n - i > maxChunk then (maxChunk : Int) else n - i) = n1
        have part : n1.toNat ≤ maxChunk ∧ 0 ≤ n1 := by
          split at isPart <;> omega
        obtain ⟨ready₁, live₁⟩ := friendly i fs off ready live
        obtain ⟨bound, keeps⟩ := filewriteChunk_spec ready₁ live₁ space (addr + i.toNat)
          (others i fs off).2 part.1 part.2
        generalize filewriteChunk sb (others i fs off).1 ip space (addr + i.toNat)
          (others i fs off).2 n1 = chunk at bound keeps
        obtain ⟨logged, result⟩ := chunk
        have single : ∀ other ∈ [logged], other.dedup.length ≤ MAXOPBLOCKS := by
          intro other member
          rw [List.mem_singleton.mp member]
          exact bound
        cases result with
        | error panic => exact single
        | ok outcome =>
            obtain ⟨r, off', fs'⟩ := outcome
            obtain ⟨ready₂, live₂⟩ := keeps r off' fs' rfl
            dsimp only
            split
            · exact single
            · intro other member
              rcases List.mem_cons.mp member with isFirst | later
              · rw [isFirst]
                exact bound
              · exact ih ready₂ live₂ other later
      · rw [if_neg more]
        exact nofun

/-- **Every part of `filewrite` logs at most `MAXOPBLOCKS` different blocks.** -/
theorem filewrite_footprint (ready : Ready sb fs) (live : 0 < (fs.itable ip).ref) (space : Space)
    (addr : Nat) (off : BitVec 32) (n : Int)
    {others : Int → FileSystem → BitVec 32 → FileSystem × BitVec 32}
    (friendly : Friendly sb ip others) :
    ∀ logged ∈ (filewriteInode sb fs ip space addr off n others).1,
      logged.dedup.length ≤ MAXOPBLOCKS :=
  filewriteLoop_footprint space addr n friendly ready live

/-- Five thousand bytes are written in two parts. -/
theorem filewrite_footprint_twoParts : ∃ fs : FileSystem,
    Reachable mkfsSuperblock (emptyImage mkfsSuperblock) fs ∧
    (filewriteInode mkfsSuperblock fs firstEntry ⟨fun _ => true, fun _ => 7⟩ 0 0 5000
      fun _ fs off => (fs, off)).1.length = 2 ∧
    ∀ logged ∈ (filewriteInode mkfsSuperblock fs firstEntry ⟨fun _ => true, fun _ => 7⟩ 0 0 5000
      fun _ fs off => (fs, off)).1, logged.dedup.length ≤ 10 := by
  obtain ⟨fs, reachable, live, isTwo⟩ := Reachable.exists_of_follow
    mkfsSuperblock (emptyImage mkfsSuperblock) [.ialloc 2]
    (fun fs => 0 < (fs.itable firstEntry).ref ∧
      (filewriteInode mkfsSuperblock fs firstEntry ⟨fun _ => true, fun _ => 7⟩ 0 0 5000
        fun _ fs off => (fs, off)).1.length = 2) (by decide +kernel)
  exact ⟨fs, reachable, isTwo, filewrite_footprint
    (reachable.ready (emptyImage_wellFormed mkfsSuperblock)) live _ _ _ _
    fun _ _ _ ready live => ⟨ready, live⟩⟩

end Xv6.Fs
