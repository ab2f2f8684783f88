import Xv6.Fs.Contents

/-!
Contract: `itrunc` gives back exactly the blocks of the inode.

Owns: the state while the blocks of an inode are given back (`Draining`), the
specifications of `bfree` and of the two loops of `itrunc`, and that `itrunc`
returns with the file system in order and the inode without blocks.

The second loop frees the blocks listed in the indirect block without erasing the
list. Its invariant is stated for the volume in which the entries done so far are
erased in a ghost copy of the indirect block; the ghost disappears when the block
itself is given back.
-/

namespace Xv6.Fs

open Xv6.Kernel
open Xv6.Format
open Function

variable {sb : Superblock} {start fs fs' : FileSystem} {ip : InodeId}

def FileSystem.release (fs : FileSystem) (sb : Superblock) (b : Nat) : FileSystem :=
  fs.logWrite (sb.bblock b) (clearBit (fs.blocks (sb.bblock b)) (b % BPB))

theorem bfree_spec {b : Nat} (isUsed : sb.used fs.blocks b = true) :
    bfree sb fs b = .ok (fs.release sb b) := by
  unfold bfree
  dsimp only
  rw [if_neg]
  · rfl
  · rw [and_mask_eq_zero_iff]
    intro isFree
    rw [Superblock.used, isFree] at isUsed
    cases isUsed

/-- The inodes, with the copy at `ip` in the place of its inode, without contents. -/
def FileSystem.emptied (fs : FileSystem) (sb : Superblock) (ip : InodeId) : Nat → Dinode :=
  update (sb.dinode fs.blocks) (fs.itable ip).inum
    { (fs.itable ip).toDinode with size := 0 }

theorem FileSystem.emptied_self (fs : FileSystem) (sb : Superblock) (ip : InodeId) :
    fs.emptied sb ip (fs.itable ip).inum = { (fs.itable ip).toDinode with size := 0 } :=
  update_self ..

/-- While `itrunc`, called in `start`, gives back the blocks of the inode at `ip`. -/
structure Draining (sb : Superblock) (start fs : FileSystem) (ip : InodeId) : Prop where
  live : 0 < (fs.itable ip).ref
  sound : Sound sb fs.blocks (fs.emptied sb ip)
  coherent : Coherent sb fs.blocks fs.itable (· = ip)
  others : ∀ jp, jp ≠ ip → fs.itable jp = start.itable jp
  same : ∃ addrs, fs.itable ip = { start.itable ip with addrs }
  allocations : fs.allocations = start.allocations

theorem Ready.drain (ready : Ready sb fs) (live : 0 < (fs.itable ip).ref)
    (valid : (fs.itable ip).valid = true) : Draining sb fs fs ip := by
  have editing := ready.edit live valid
  refine ⟨live, ?_, editing.coherent, fun _ _ => rfl, ⟨_, rfl⟩, rfl⟩
  have noContents : Sound sb fs.blocks (update (fs.view sb ip) (fs.itable ip).inum
      { (fs.itable ip).toDinode with size := 0 }) :=
    editing.sound.replace (fs.view_self sb ip) _ rfl
      (fun isFree => absurd isFree editing.allocated) .zero
  rw [FileSystem.view, update_idem] at noContents
  exact noContents

theorem Draining.inRange (draining : Draining sb start fs ip) :
    (fs.itable ip).inum < sb.ninodes :=
  draining.coherent.inRange ip draining.live

/-! ## The first loop -/

/-- A number of the copy is cleared, in a volume that is in order without it. -/
theorem Draining.clear (draining : Draining sb start fs ip) (address : Fin (NDIRECT + 1))
    (sameTable : fs'.itable = fs.itable) (sameAllocations : fs'.allocations = fs.allocations)
    (disk : ∀ inum, inum < sb.ninodes → sb.dinode fs'.blocks inum = sb.dinode fs.blocks inum)
    (sound : Sound sb fs'.blocks (update (fs.emptied sb ip) (fs.itable ip).inum
      (Dinode.setAddr { (fs.itable ip).toDinode with size := 0 } address 0))) :
    Draining sb start (fs'.setAddr ip address 0) ip := by
  have isNext : (fs'.setAddr ip address 0).itable ip = { fs.itable ip with
      toDinode := (fs.itable ip).toDinode.setAddr address 0 } := by
    rw [← sameTable]
    exact update_self ..
  have others : ∀ jp, jp ≠ ip → (fs'.setAddr ip address 0).itable jp = fs.itable jp := by
    intro jp different
    rw [← sameTable]
    exact update_of_ne different ..
  constructor
  · rw [isNext]
    exact draining.live
  · apply sound.congr
    intro inum inRange
    rw [FileSystem.emptied, isNext]
    by_cases isEdited : inum = (fs.itable ip).inum
    · rw [isEdited, update_self, update_self]
      rfl
    · rw [update_of_ne isEdited, update_of_ne isEdited, FileSystem.emptied,
        update_of_ne isEdited]
      exact disk inum inRange
  · exact draining.coherent.edit others (by rw [isNext]) (by rw [isNext])
      (fun inum inRange _ => disk inum inRange) (fun _ listed => listed) draining.live
  · intro jp different
    rw [others jp different, draining.others jp different]
  · obtain ⟨addrs, isCopy⟩ := draining.same
    rw [isNext, isCopy]
    exact ⟨_, rfl⟩
  · exact sameAllocations.trans draining.allocations

theorem addrs_setAddr (fs : FileSystem) (ip : InodeId) (address other : Fin (NDIRECT + 1))
    (addr : BitVec 32) :
    ((fs.setAddr ip address addr).itable ip).addrs other =
      if other = address then addr else (fs.itable ip).addrs other := by
  have isNext : (fs.setAddr ip address addr).itable ip = { fs.itable ip with
      toDinode := (fs.itable ip).toDinode.setAddr address addr } := update_self ..
  rw [isNext]
  exact update_apply ..

theorem truncSlot_spec (draining : Draining sb start fs ip) {address : Fin (NDIRECT + 1)}
    (direct : address ≠ indirect) :
    ∃ fs', truncSlot sb ip fs address = .ok fs' ∧ Draining sb start fs' ip ∧
      ∀ other, (fs'.itable ip).addrs other =
        if other = address then 0 else (fs.itable ip).addrs other := by
  unfold truncSlot
  dsimp only
  by_cases vacant : (fs.itable ip).addrs address = 0
  · rw [if_pos vacant]
    refine ⟨fs, rfl, draining, fun other => ?_⟩
    split
    · rename_i same
      rw [same, vacant]
    · rfl
  · rw [if_neg vacant]
    have isInode := fs.emptied_self sb ip
    have isUsed : sb.used fs.blocks ((fs.itable ip).addrs address).toNat = true :=
      (draining.sound.of_held draining.inRange isInode (.addr address) vacant).2
    have sound := draining.sound.drop_addr draining.inRange isInode vacant
      (fun isPointer => absurd isPointer direct) rfl
    rw [bfree_spec isUsed]
    refine ⟨_, rfl, ?_, fun other => addrs_setAddr ..⟩
    exact draining.clear address rfl rfl (fun inum inRange => dinode_freed inRange) sound

theorem truncSlots_spec (draining : Draining sb start fs ip) (addresses : List (Fin (NDIRECT + 1)))
    (direct : ∀ address ∈ addresses, address ≠ indirect) :
    ∃ fs', addresses.foldlM (truncSlot sb ip) fs = .ok fs' ∧ Draining sb start fs' ip ∧
      ∀ other, (fs'.itable ip).addrs other =
        if other ∈ addresses then 0 else (fs.itable ip).addrs other := by
  induction addresses generalizing fs with
  | nil => exact ⟨fs, rfl, draining, fun other => by simp⟩
  | cons address addresses ih =>
      obtain ⟨fs₁, round, draining₁, cleared⟩ := truncSlot_spec draining (direct address (by simp))
      obtain ⟨fs', loop, draining', clearedAll⟩ :=
        ih draining₁ fun other member => direct other (by simp [member])
      refine ⟨fs', by rw [List.foldlM_cons, round]; exact loop, draining', fun other => ?_⟩
      rw [clearedAll, cleared]
      grind

/-! ## The second loop -/

section Entries

variable {inodes : Nat → Dinode} {dinode : Dinode} {inum : Nat} {blocks : Nat → Block}
  {ghost : Block}

theorem freed_update {b c : Nat} {data : Block} (inVolume : b < sb.size) (isData : sb.nmeta ≤ c) :
    freed sb (update blocks c data) b = update (freed sb blocks b) c data := by
  have inBitmap := sb.bblock_lt inVolume
  have different : sb.bblock b ≠ c := by omega
  rw [freed, freed, update_of_ne different, update_comm different]

theorem truncEntries_spec (inRange : inum < sb.ninodes) (isInode : inodes inum = dinode)
    (hasPointer : dinode.addrs indirect ≠ 0) (noContent : dinode.size = 0) (entries : List Nat)
    (inBlock : ∀ j ∈ entries, j < NINDIRECT) (distinct : entries.Nodup)
    (sound : Sound sb (update fs.blocks (dinode.addrs indirect).toNat ghost) inodes)
    (agree : ∀ j ∈ entries, entry ghost j = entry (fs.blocks (dinode.addrs indirect).toNat) j) :
    ∃ fs' ghost', entries.foldlM (truncEntry sb (dinode.addrs indirect).toNat) fs = .ok fs' ∧
      Sound sb (update fs'.blocks (dinode.addrs indirect).toNat ghost') inodes ∧
      fs'.itable = fs.itable ∧ fs'.allocations = fs.allocations ∧
      (∀ other, other < sb.ninodes → sb.dinode fs'.blocks other = sb.dinode fs.blocks other) ∧
      ∀ j, entry ghost' j = if j ∈ entries then 0 else entry ghost j := by
  induction entries generalizing fs ghost with
  | nil => exact ⟨fs, ghost, rfl, sound, rfl, rfl, fun _ _ => rfl, fun j => by simp⟩
  | cons j entries ih =>
      obtain ⟨notAgain, distinct⟩ := List.nodup_cons.mp distinct
      have restInBlock : ∀ k ∈ entries, k < NINDIRECT := fun k member =>
        inBlock k (by simp [member])
      have pointerData := (sound.pointer inRange isInode hasPointer).1
      by_cases vacant : entry (fs.blocks (dinode.addrs indirect).toNat) j = 0
      · have round : truncEntry sb (dinode.addrs indirect).toNat fs j = .ok fs := by
          rw [truncEntry, if_pos vacant]
        obtain ⟨fs', ghost', loop, sound', sameTable, sameAllocations, disk, erased⟩ :=
          ih restInBlock distinct sound
            fun k member => agree k (by simp [member])
        refine ⟨fs', ghost', by rw [List.foldlM_cons, round]; exact loop, sound', sameTable,
          sameAllocations, disk, fun k => ?_⟩
        have isZero : entry ghost j = 0 := by rw [agree j (by simp), vacant]
        rw [erased k]
        grind
      · -- The entry is still in the ghost, so that its block is held and used.
        have isNumber : held (update fs.blocks (dinode.addrs indirect).toNat ghost) dinode
            (.entry ⟨j, inBlock j (by simp)⟩) =
              entry (fs.blocks (dinode.addrs indirect).toNat) j := by
          rw [held, if_neg hasPointer, update_self, ← agree j (by simp)]
        have number : held (update fs.blocks (dinode.addrs indirect).toNat ghost) dinode
            (.entry ⟨j, inBlock j (by simp)⟩) ≠ 0 := by rwa [isNumber]
        obtain ⟨isData, isUsed⟩ := sound.of_held inRange isInode _ number
        have dropped := sound.drop_entry inRange isInode hasPointer number noContent
        rw [isNumber] at isData isUsed dropped
        rw [sb.used_update_data isData.2 pointerData.1] at isUsed
        rw [freed_update isData.2 pointerData.1, update_idem, update_self]
          at dropped
        have round : truncEntry sb (dinode.addrs indirect).toNat fs j = .ok (fs.release sb
            (entry (fs.blocks (dinode.addrs indirect).toNat) j).toNat) := by
          rw [truncEntry, if_neg vacant, bfree_spec isUsed]
        have kept : (fs.release sb (entry (fs.blocks (dinode.addrs indirect).toNat) j).toNat).blocks
            (dinode.addrs indirect).toNat = fs.blocks (dinode.addrs indirect).toNat :=
          freed_of_data isData.2 pointerData.1
        have remaining : Sound sb (update (fs.release sb
            (entry (fs.blocks (dinode.addrs indirect).toNat) j).toNat).blocks
            (dinode.addrs indirect).toNat (setEntry ghost j 0)) inodes := dropped
        obtain ⟨fs', ghost', loop, sound', sameTable, sameAllocations, disk, erased⟩ :=
          ih restInBlock distinct remaining fun k member => by
            have different : k ≠ j := fun same => notAgain (same ▸ member)
            rw [entry_setEntry, if_neg different, agree k (by simp [member]), kept]
        refine ⟨fs', ghost', by rw [List.foldlM_cons, round]; exact loop, sound', sameTable,
          sameAllocations, fun other otherInRange => (disk other otherInRange).trans
            (dinode_freed otherInRange), fun k => ?_⟩
        rw [erased k, entry_setEntry]
        grind

/-- The indirect block itself is given back when its entries are, whatever they
still say. -/
theorem Sound.drop_indirect (inRange : inum < sb.ninodes) (isInode : inodes inum = dinode)
    (hasPointer : dinode.addrs indirect ≠ 0) (noContent : dinode.size = 0)
    (sound : Sound sb (update blocks (dinode.addrs indirect).toNat ghost) inodes)
    (erased : ∀ j, j < NINDIRECT → entry ghost j = 0) :
    sb.used blocks (dinode.addrs indirect).toNat = true ∧
      Sound sb (freed sb blocks (dinode.addrs indirect).toNat)
        (update inodes inum (dinode.setAddr indirect 0)) := by
  obtain ⟨isData, isUsed⟩ := sound.pointer inRange isInode hasPointer
  rw [sb.used_update_data isData.2 isData.1] at isUsed
  have noEntries : ∀ j : Fin NINDIRECT, held (update blocks
      (dinode.addrs indirect).toNat ghost) dinode (.entry j) = 0 := by
    intro j
    rw [held, if_neg hasPointer, update_self]
    exact erased j j.isLt
  have dropped := sound.drop_addr inRange isInode hasPointer (fun _ => noEntries) noContent
  rw [freed_update isData.2 isData.1] at dropped
  refine ⟨isUsed, dropped.frame ?_ ?_⟩
  · intro c inVolume
    exact (sb.used_update_data inVolume isData.1).symm
  · -- No inode points to the block any more.
    intro other otherInRange slot
    apply held_congr
    intro otherPointer
    refine (update_of_ne ?_ ..).symm
    by_cases same : other = inum
    · rw [same, update_self, Dinode.addrs_setAddr_self] at otherPointer
      exact absurd rfl otherPointer
    · rw [update_of_ne same] at otherPointer ⊢
      intro samePointer
      exact same (sound.pointer_inj otherInRange inRange otherPointer
        (by rw [isInode, samePointer]))

end Entries

theorem truncIndirect_spec (draining : Draining sb start fs ip) :
    ∃ fs', truncIndirect sb ip fs = .ok fs' ∧ Draining sb start fs' ip ∧
      ∀ other, (fs'.itable ip).addrs other =
        if other = indirect then 0 else (fs.itable ip).addrs other := by
  unfold truncIndirect
  dsimp only
  by_cases vacant : (fs.itable ip).addrs indirect = 0
  · rw [if_pos vacant]
    refine ⟨fs, rfl, draining, fun other => ?_⟩
    split
    · rename_i same
      rw [same, vacant]
    · rfl
  · rw [if_neg vacant]
    have isInode := fs.emptied_self sb ip
    have sound : Sound sb (update fs.blocks ((fs.itable ip).addrs indirect).toNat
        (fs.blocks ((fs.itable ip).addrs indirect).toNat)) (fs.emptied sb ip) := by
      rw [update_eq_self]
      exact draining.sound
    obtain ⟨fs₁, ghost, loop, sound₁, sameTable, sameAllocations, disk, erased⟩ :=
      truncEntries_spec draining.inRange isInode vacant rfl (List.range NINDIRECT)
        (fun j member => List.mem_range.mp member) List.nodup_range sound (fun _ _ => rfl)
    obtain ⟨isUsed, dropped⟩ := sound₁.drop_indirect draining.inRange isInode vacant rfl
      fun j inBlock => by rw [erased j, if_pos (List.mem_range.mpr inBlock)]
    have entriesLoop : (List.range NINDIRECT).foldlM
        (truncEntry sb ((fs.itable ip).addrs indirect).toNat) fs = .ok fs₁ := loop
    have pointerFreed : truncSlot sb ip fs₁ indirect = .ok ((fs₁.release sb
        ((fs.itable ip).addrs indirect).toNat).setAddr ip indirect 0) := by
      rw [truncSlot, sameTable, if_neg vacant, bfree_spec isUsed]
      rfl
    refine ⟨_, by rw [entriesLoop]; exact pointerFreed, ?_, fun other => ?_⟩
    · have released : (fs₁.release sb ((fs.itable ip).addrs indirect).toNat).itable = fs.itable :=
        sameTable
      apply draining.clear indirect released sameAllocations _ dropped
      intro inum inRange
      exact (dinode_freed inRange).trans (disk inum inRange)
    · rw [addrs_setAddr]
      show (if other = indirect then _ else (fs₁.itable ip).addrs other) = _
      rw [sameTable]

theorem Draining.finish (draining : Draining sb start fs ip) (ready : Ready sb start)
    (allocated : (start.itable ip).type ≠ 0) :
    Ready sb (iupdate sb (fs.setSize ip 0) ip) := by
  have resized : (fs.setSize ip 0).itable ip = { fs.itable ip with size := 0 } :=
    update_self ..
  have others : ∀ jp, jp ≠ ip → (fs.setSize ip 0).itable jp = fs.itable jp :=
    fun jp different => update_of_ne different ..
  have live : 0 < ((fs.setSize ip 0).itable ip).ref := by
    rw [resized]
    exact draining.live
  have sound : Sound sb (fs.setSize ip 0).blocks ((fs.setSize ip 0).view sb ip) := by
    rw [FileSystem.view, resized]
    exact draining.sound
  have coherent : Coherent sb (fs.setSize ip 0).blocks (fs.setSize ip 0).itable (· = ip) :=
    draining.coherent.edit others (by rw [resized]) (by rw [resized])
      (fun _ _ _ => rfl) (fun _ listed => listed) draining.live
  obtain ⟨disk, sound', coherent'⟩ := iupdate_spec live sound coherent
  refine ⟨sound', coherent'.settle fun _ _ => ⟨?_, ?_⟩, ?_⟩
  · rw [disk]
    exact ((fs.setSize ip 0).view_self sb ip).symm
  · show ((fs.setSize ip 0).itable ip).type ≠ 0
    obtain ⟨addrs, isCopy⟩ := draining.same
    rw [resized, isCopy]
    exact allocated
  · show ∀ a ∈ fs.allocations, a.Fresh sb
    rw [draining.allocations]
    exact ready.fresh

theorem itrunc_spec (ready : Ready sb fs) (live : 0 < (fs.itable ip).ref)
    (valid : (fs.itable ip).valid = true) :
    ∃ fs', itrunc sb fs ip = .ok fs' ∧ Ready sb fs' ∧
      fs'.itable ip = { fs.itable ip with size := 0, addrs := fun _ => 0 } := by
  have draining := ready.drain live valid
  have direct : ∀ address ∈ (List.finRange NDIRECT).map Fin.castSucc, address ≠ indirect := by
    intro address member
    obtain ⟨i, _, rfl⟩ := List.mem_map.mp member
    exact Fin.ne_of_lt (Fin.castSucc_lt_last i)
  obtain ⟨fs₁, slots, draining₁, cleared₁⟩ := truncSlots_spec draining _ direct
  obtain ⟨fs₂, pointer, draining₂, cleared₂⟩ := truncIndirect_spec draining₁
  have noNumbers : (fs₂.itable ip).addrs = fun _ => 0 := by
    funext address
    rw [cleared₂, cleared₁]
    by_cases isPointer : address = indirect
    · rw [if_pos isPointer]
    · rw [if_neg isPointer, if_pos]
      exact List.mem_map.mpr ⟨⟨address, Fin.val_lt_last isPointer⟩, List.mem_finRange _, rfl⟩
  have returned : itrunc sb fs ip = .ok (iupdate sb (fs₂.setSize ip 0) ip) := by
    rw [itrunc, slots]
    show (truncIndirect sb ip fs₁).map _ = _
    rw [pointer]
    rfl
  refine ⟨_, returned, draining₂.finish ready (ready.coherent.copies ip id live valid).2, ?_⟩
  have resized : (fs₂.setSize ip 0).itable ip = { fs₂.itable ip with size := 0 } :=
    update_self ..
  obtain ⟨addrs, isCopy⟩ := draining₂.same
  rw [isCopy] at noNumbers resized
  show (fs₂.setSize ip 0).itable ip = _
  rw [resized, ← noNumbers]

end Xv6.Fs
