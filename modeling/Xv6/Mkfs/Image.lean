import Xv6.Fs.Ownership
import Xv6.Mkfs.Append

/-!
Contract: the image while `mkfs` builds it.

Owns: the state between the calls of `ialloc` and `iappend` for given contents of the inodes
(`Made`), that the empty image has it, that each call keeps it, and when a call fails.

Does not own: the order of the calls (`Mkfs.Main`).
-/

namespace Xv6.Mkfs

open Xv6.Kernel
open Xv6.Format
open Xv6.Fs (Superblock Dinode Slot Block Stored Dirent Name mkfsSuperblock held contentSlot readsb
  direntBytes SuperblockFields IPB indirect dot dotdot slash)
open Function
open Xv6.Programs

/-! ## Writing an inode -/

/-- The blocks, when these are the inodes. -/
structure Laid (s : State) (inodes : Nat → Dinode) (contents : Nat → List Byte) : Prop where
  sectors : s.sectors = FSSIZE
  small : s.freeblock ≤ FSSIZE
  volume : Volume mkfsSuperblock s.blocks inodes s.freeblock
  kept : Kept mkfsSuperblock s.blocks inodes contents
  shaped : Shaped s.blocks inodes contents
  superblock : readsb s.blocks = sb

section Inodes

variable {s : State} {inodes : Nat → Dinode} {contents : Nat → List Byte} {inum : Nat}

theorem iblock_lt (inRange : inum < mkfsSuperblock.ninodes) : iblock inum < mkfsSuperblock.nmeta :=
  Superblock.iblock_lt_nmeta inRange

theorem nmeta_le : mkfsSuperblock.nmeta ≤ FSSIZE := by decide

theorem readsb_update {blocks : Nat → Block} {b : Nat} {data : Block} (different : 1 ≠ b) :
    readsb (update blocks b data) = readsb blocks := by
  rw [readsb, update_of_ne different, readsb]

theorem rinode_eq (sectors : s.sectors = FSSIZE) (inRange : inum < mkfsSuperblock.ninodes) :
    rinode s inum = .ok (mkfsSuperblock.dinode s.blocks inum) := by
  have isMeta := iblock_lt inRange
  have inside := nmeta_le
  rw [rinode, rsect_eq sectors (by omega), if_pos (by omega)]
  rfl

theorem winode_eq (sectors : s.sectors = FSSIZE) (inRange : inum < mkfsSuperblock.ninodes)
    (ip : Dinode) : winode s inum ip =
      .ok { s with
        blocks := update s.blocks (mkfsSuperblock.iblock inum)
          (Dinode.codec.write (s.blocks (mkfsSuperblock.iblock inum))
            (inum % IPB * Dinode.codec.width) ip) } := by
  have isMeta := iblock_lt inRange
  have inside := nmeta_le
  rw [winode, rsect_eq sectors (by omega), if_pos (by omega)]
  exact congrArg Except.ok (wsect_eq sectors (by omega) _)

/-- An inode in memory is written, with the block numbers it has there. -/
theorem winode_spec (laid : Laid s inodes contents) (inRange : inum < mkfsSuperblock.ninodes)
    (onDisk : ∀ other, other < mkfsSuperblock.ninodes → other ≠ inum →
      mkfsSuperblock.dinode s.blocks other = inodes other)
    {ip : Dinode} (sameAddrs : ip.addrs = (inodes inum).addrs) :
    ∃ s', winode s inum ip = .ok s' ∧ Laid s' (mkfsSuperblock.dinode s'.blocks) contents ∧
      (∀ other, other < mkfsSuperblock.ninodes →
        mkfsSuperblock.dinode s'.blocks other = if other = inum then ip else inodes other) ∧
      s'.freeblock = s.freeblock ∧ s'.freeinode = s.freeinode := by
  refine ⟨_, winode_eq laid.sectors inRange ip, ?_⟩
  have table : ∀ other, other < mkfsSuperblock.ninodes →
      mkfsSuperblock.dinode (update s.blocks (mkfsSuperblock.iblock inum)
        (Dinode.codec.write (s.blocks (mkfsSuperblock.iblock inum))
          (inum % IPB * Dinode.codec.width) ip)) other =
            if other = inum then ip else inodes other := by
    intro other otherInRange
    rw [Superblock.dinode_write]
    split
    · rfl
    · rename_i different
      exact onDisk other otherInRange different
  have addrs : ∀ other, other < mkfsSuperblock.ninodes →
      (mkfsSuperblock.dinode (update s.blocks (mkfsSuperblock.iblock inum)
        (Dinode.codec.write (s.blocks (mkfsSuperblock.iblock inum))
          (inum % IPB * Dinode.codec.width) ip)) other).addrs = (inodes other).addrs := by
    intro other otherInRange
    rw [table other otherInRange]
    split
    · rename_i same
      rw [same, sameAddrs]
    · rfl
  have isMeta := iblock_lt inRange
  refine ⟨⟨laid.sectors, laid.small, laid.volume.write_meta isMeta _ addrs,
    laid.kept.write_meta laid.volume isMeta _ addrs, fun other otherInRange slot => ?_, ?_⟩, table,
    rfl, rfl⟩
  · rw [← laid.shaped other otherInRange slot]
    exact Iff.of_eq (congrArg (· ≠ 0)
      (laid.volume.held_meta isMeta _ otherInRange (addrs other otherInRange) slot))
  · rw [← laid.superblock]
    exact readsb_update (Nat.ne_of_lt (Nat.lt_of_lt_of_le (by decide)
      (Nat.le_add_left (2 + LOGSIZE) _)))

end Inodes

/-! ## Between the calls -/

def needed (contents : Nat → List Byte) : Nat :=
  ∑ inum ∈ Finset.range mkfsSuperblock.ninodes, blocksFor (contents inum).length

/-- The contents are small enough for an inode, and for the image. -/
def Fits (contents : Nat → List Byte) : Prop :=
  (∀ inum, inum < mkfsSuperblock.ninodes → (contents inum).length ≤ MAXFILE * BSIZE) ∧
    nmeta + needed contents ≤ FSSIZE

/-- The type of an inode when there are `count`. -/
def kind (count inum : Nat) : BitVec 16 :=
  if inum = 0 ∨ count < inum then 0 else if inum = ROOTINO then T_DIR else T_FILE

/-- `count` inodes are in use and have these contents. -/
structure Made (s : State) (contents : Nat → List Byte) (count : Nat) : Prop extends
    Laid s (mkfsSuperblock.dinode s.blocks) contents where
  freeinode : s.freeinode = count + 1
  inTable : count < mkfsSuperblock.ninodes
  counted : s.freeblock = nmeta + needed contents
  inFile : ∀ inum, inum < mkfsSuperblock.ninodes → (contents inum).length ≤ MAXFILE * BSIZE
  sizes : ∀ inum, inum < mkfsSuperblock.ninodes →
    (mkfsSuperblock.dinode s.blocks inum).size.toNat = (contents inum).length
  types : ∀ inum, inum < mkfsSuperblock.ninodes →
    (mkfsSuperblock.dinode s.blocks inum).type = kind count inum
  unused : ∀ inum, inum = 0 ∨ count < inum → contents inum = []

section Calls

variable {s : State} {contents contents' : Nat → List Byte} {count inum : Nat}

theorem Fits.mono (fits : Fits contents')
    (shorter : ∀ inum, inum < mkfsSuperblock.ninodes →
      (contents inum).length ≤ (contents' inum).length) : Fits contents := by
  refine ⟨fun inum inRange => Nat.le_trans (shorter inum inRange) (fits.1 inum inRange), ?_⟩
  have fewer : needed contents ≤ needed contents' := Finset.sum_le_sum fun inum inRange =>
    blocksFor_mono (shorter inum (Finset.mem_range.mp inRange))
  exact Nat.le_trans (Nat.add_le_add_left fewer _) fits.2

theorem needed_update (contents : Nat → List Byte) (inRange : inum < mkfsSuperblock.ninodes)
    (content : List Byte) :
    needed (update contents inum content) + blocksFor (contents inum).length =
      needed contents + blocksFor content.length := by
  have member := Finset.mem_range.mpr inRange
  have others : ∑ other ∈ (Finset.range mkfsSuperblock.ninodes).erase inum,
      blocksFor (update contents inum content other).length =
        ∑ other ∈ (Finset.range mkfsSuperblock.ninodes).erase inum,
          blocksFor (contents other).length :=
    Finset.sum_congr rfl fun other isOther => by
      rw [update_of_ne (Finset.ne_of_mem_erase isOther)]
  rw [needed, needed, ← Finset.add_sum_erase _ _ member, others, update_self,
    ← Finset.add_sum_erase _ (fun other => blocksFor (contents other).length) member]
  omega

/-- `iappend` puts the bytes at the end of the inode, unless they do not fit. -/
theorem iappend_spec (made : Made s contents count) (inUse : inum ≤ count) (isInode : inum ≠ 0)
    (p : Bytes) (n : Nat) :
    Ends (Fits (update contents inum (contents inum ++ firstBytes p n)))
      (fun s' => Made s' (update contents inum (contents inum ++ firstBytes p n)) count)
      (iappend s inum p n) := by
  have inRange : inum < mkfsSuperblock.ninodes := Nat.lt_of_le_of_lt inUse made.inTable
  have more := needed_update contents inRange (contents inum ++ firstBytes p n)
  rw [List.length_append, firstBytes_length] at more
  have size := made.sizes inum inRange
  have appending : Appending (mkfsSuperblock.dinode s.blocks) inum contents s
      (mkfsSuperblock.dinode s.blocks inum) (mkfsSuperblock.dinode s.blocks inum).size.toNat := by
    refine ⟨?_, ?_, ?_, made.sectors, made.small,
      size, by rw [size]; exact made.inFile inum inRange⟩
    · rw [update_eq_self]
      exact made.volume
    · rw [update_eq_self]
      exact made.kept
    · rw [update_eq_self]
      exact made.shaped
  have counted := made.counted
  unfold iappend
  rw [rinode_eq made.sectors inRange]
  refine ((appendLoop_spec (Nat.le_refl n) appending inRange p).mono ?_ fun _ post => post).bind ?_
  · rintro ⟨shorts, room⟩
    have short := shorts inum inRange
    rw [update_self, List.length_append, firstBytes_length] at short
    rw [size]
    omega
  · rintro ⟨s₁, din, off⟩ ⟨appended, beside, freeblock⟩
    dsimp only at appended beside freeblock ⊢
    have offset : (BitVec.ofNat 32 off).toNat = off := by
      have bound := appended.inFile
      unfold MAXFILE NDIRECT NINDIRECT BSIZE at bound
      rw [BitVec.toNat_ofNat, Nat.mod_eq_of_lt (by omega)]
    have type : din.type = kind count inum :=
      (congrArg Dinode.type beside.fields).trans (made.types inum inRange)
    have sameTable : ∀ other, other < mkfsSuperblock.ninodes →
        mkfsSuperblock.dinode s₁.blocks other = mkfsSuperblock.dinode s.blocks other := by
      intro other otherInRange
      exact congrArg (Dinode.codec.read · (other % IPB * Dinode.codec.width))
        (beside.below _ (Superblock.iblock_lt_nmeta otherInRange))
    have laid : Laid s₁ (update (mkfsSuperblock.dinode s.blocks) inum din)
        (update contents inum (contents inum ++ firstBytes p n)) := by
      refine ⟨appended.sectors, appended.small, appended.volume, appended.kept, appended.shaped, ?_⟩
      rw [← made.superblock]
      exact congrArg (SuperblockFields.codec.read · 0) (beside.below 1 (by decide))
    obtain ⟨s₂, written, laid₂, table, freeblock₂, freeinode⟩ := winode_spec laid inRange
      (fun other otherInRange different => by
        rw [sameTable other otherInRange, update_of_ne different])
      (show { din with size := BitVec.ofNat 32 off }.addrs = _ by rw [update_self])
    rw [written]
    refine { laid₂ with
      freeinode := by rw [freeinode, beside.freeinode, made.freeinode]
      inTable := made.inTable
      counted := ?_, inFile := ?_, sizes := ?_, types := ?_, unused := ?_ }
    · rw [size] at freeblock
      omega
    · intro other otherInRange
      by_cases same : other = inum
      · rw [same, ← appended.atEnd]
        exact appended.inFile
      · rw [update_of_ne same]
        exact made.inFile other otherInRange
    · intro other otherInRange
      rw [table other otherInRange]
      by_cases same : other = inum
      · rw [if_pos same, same, ← appended.atEnd]
        exact offset
      · rw [if_neg same, update_of_ne same, update_of_ne same]
        exact made.sizes other otherInRange
    · intro other otherInRange
      rw [table other otherInRange]
      by_cases same : other = inum
      · rw [if_pos same, same]
        exact type
      · rw [if_neg same, update_of_ne same]
        exact made.types other otherInRange
    · intro other isUnused
      rw [update_of_ne (by omega)]
      exact made.unused other isUnused

theorem kind_succ {other : Nat} (different : other ≠ count + 1) :
    kind (count + 1) other = kind count other := by
  have same : (other = 0 ∨ count + 1 < other) ↔ (other = 0 ∨ count < other) := by omega
  simp only [kind, same]

theorem ialloc_spec (made : Made s contents count) (room : count + 1 < mkfsSuperblock.ninodes)
    {type : BitVec 16} (isKind : type = kind (count + 1) (count + 1)) :
    ∃ s', ialloc s type = .ok (count + 1, s') ∧ Made s' contents (count + 1) := by
  have isEmpty := made.unused (count + 1) (.inr (Nat.lt_succ_self _))
  have next : (s.freeinode + 1) % 2 ^ 32 = count + 1 + 1 := by
    have table : mkfsSuperblock.ninodes = 200 := rfl
    rw [made.freeinode]
    omega
  have noAddrs : ({ Dinode.zero with type, nlink := 1 } : Dinode).addrs =
      (mkfsSuperblock.dinode s.blocks (count + 1)).addrs := by
    funext slot
    have isShaped := made.shaped (count + 1) room (.addr slot)
    rw [isEmpty] at isShaped
    exact Eq.symm (Decidable.not_not.mp fun number =>
      absurd (isShaped.mp number) (Nat.not_lt_zero _))
  have laid : Laid { s with freeinode := (s.freeinode + 1) % 2 ^ 32 }
      (mkfsSuperblock.dinode s.blocks) contents :=
    ⟨made.sectors, made.small, made.volume, made.kept, made.shaped, made.superblock⟩
  obtain ⟨s', written, laid', table, freeblock, freeinode⟩ := winode_spec laid room
    (fun _ _ _ => rfl) noAddrs
  refine ⟨s', ?_, { laid' with
    freeinode := freeinode.trans next
    inTable := room
    counted := freeblock.trans made.counted
    inFile := made.inFile
    sizes := ?_, types := ?_, unused := ?_ }⟩
  · unfold ialloc
    rw [← made.freeinode] at written ⊢
    dsimp only
    rw [written]
    rfl
  · intro other otherInRange
    rw [table other otherInRange]
    by_cases same : other = count + 1
    · rw [if_pos same, same, isEmpty]
      rfl
    · rw [if_neg same]
      exact made.sizes other otherInRange
  · intro other otherInRange
    rw [table other otherInRange]
    by_cases same : other = count + 1
    · rw [if_pos same, same]
      exact isKind
    · rw [if_neg same, kind_succ same]
      exact made.types other otherInRange
  · intro other isUnused
    exact made.unused other (by omega)

/-! ## The empty image -/

theorem foldl_zero {n : Nat} (inside : n ≤ FSSIZE) :
    (List.range n).foldl (fun s i => wsect s i fun _ => 0)
      { blocks := fun _ _ => 0, sectors := 0, freeinode := 1, freeblock := nmeta } =
        { blocks := fun _ _ => 0, sectors := n, freeinode := 1, freeblock := nmeta } := by
  induction n with
  | zero => rfl
  | succ n ih =>
      rw [List.range_succ, List.foldl_append, ih (by omega), List.foldl_cons,
        List.foldl_nil, wsect, position_eq (by omega)]
      simp

theorem format_eq : format =
    { blocks := update (fun _ _ => 0) 1 (SuperblockFields.codec.write (fun _ => 0) 0 sb)
      sectors := FSSIZE
      freeinode := 1
      freeblock := nmeta } := by
  rw [format, foldl_zero (Nat.le_refl _)]
  exact wsect_eq rfl (by decide) _

theorem format_made : Made format (fun _ => []) 0 := by
  rw [format_eq]
  have table : ∀ inum, mkfsSuperblock.dinode (update (fun _ _ => 0) 1
      (SuperblockFields.codec.write (fun _ => 0) 0 sb)) inum = Dinode.zero := by
    intro inum
    rw [Superblock.dinode_update_of_ne, Fs.dinode_zeros]
    exact Nat.ne_of_gt (Nat.lt_of_lt_of_le (by decide) (Nat.le_add_left (2 + LOGSIZE) _))
  have nothing : ∀ blocks slot, held blocks Dinode.zero slot = 0 := by
    intro blocks slot
    cases slot <;> rfl
  have noBlocks : needed (fun _ => []) = 0 := Finset.sum_eq_zero fun _ _ =>
    (by decide : blocksFor 0 = 0)
  have unheld : ∀ place, Fs.holds mkfsSuperblock (update (fun _ _ => 0) 1
      (SuperblockFields.codec.write (fun _ => 0) 0 sb)) (mkfsSuperblock.dinode
        (update (fun _ _ => 0) 1 (SuperblockFields.codec.write (fun _ => 0) 0 sb))) place =
          none := by
    rintro ⟨inum, slot⟩
    refine Fs.holds_of_zero ?_
    rw [table, nothing]
  have volume : Volume mkfsSuperblock (update (fun _ _ => 0) 1
      (SuperblockFields.codec.write (fun _ => 0) 0 sb)) (mkfsSuperblock.dinode
        (update (fun _ _ => 0) 1 (SuperblockFields.codec.write (fun _ => 0) 0 sb))) nmeta := by
    refine ⟨Nat.le_refl _, ⟨?_, ?_, ?_, ?_⟩, fun b isData => ?_⟩
    · intro place b isHeld
      rw [unheld] at isHeld
      cases isHeld
    · intro place b isHeld
      rw [unheld] at isHeld
      cases isHeld
    · intro place _ b isHeld
      rw [unheld] at isHeld
      cases isHeld
    · intro b isData isUsed
      exact absurd isUsed (Nat.not_lt.mpr isData)
    · refine update_of_ne ?_ ..
      rintro rfl
      exact absurd isData (by decide)
  refine {
    sectors := rfl
    small := by decide
    volume := volume
    kept := fun _ _ _ _ isByte => nomatch isByte
    shaped := fun inum _ slot => ?_
    superblock := ?_
    freeinode := rfl
    inTable := by decide
    counted := ?_
    inFile := fun _ _ => Nat.zero_le _
    sizes := fun inum _ => ?_
    types := fun inum _ => ?_
    unused := fun _ _ => rfl }
  · rw [table, nothing]
    simp
  · exact Codec.read_write ..
  · rw [noBlocks]
    rfl
  · rw [table]
    rfl
  · rw [table, kind, if_pos (by omega)]
    rfl

end Calls

end Xv6.Mkfs
