import Xv6.Fs.Layout
import Xv6.Ownership.Exact

/-!
Contract: which blocks the inodes hold, and how a change of the blocks or of one
inode changes that.

Owns: the slots of an inode for block numbers, the state of a volume in order
(`Sound`) for given contents of the inodes, and its rules for marking and storing
a free block, for writing a data block, for replacing an inode and for giving
blocks back.

Does not own: where the contents of the inodes are, on disk or in the inode table.
-/

namespace Xv6.Fs

open Xv6.Kernel
open Xv6.Format
open Xv6.Ownership
open Function

/-- A place of an inode for a block number: in `addrs[]`, or in the indirect
block. -/
inductive Slot where
  | addr (slot : Fin (NDIRECT + 1))
  | entry (j : Fin NINDIRECT)
deriving DecidableEq

/-- The number in a slot. Without an indirect block its entries are 0. -/
def held (blocks : Nat → Block) (dinode : Dinode) : Slot → BitVec 32
  | .addr slot => dinode.addrs slot
  | .entry j =>
      if dinode.addrs indirect = 0 then 0
      else entry (blocks (dinode.addrs indirect).toNat) j

def contentSlot (bn : Fin MAXFILE) : Slot :=
  if direct : bn.val < NDIRECT then .addr ⟨bn, Nat.lt_succ_of_lt direct⟩
  else .entry ⟨bn - NDIRECT, by have := bn.isLt; unfold MAXFILE at this; omega⟩

def MappedTo (blocks : Nat → Block) (dinode : Dinode) (upto : Nat) : Prop :=
  ∀ bn : Nat, bn * BSIZE < upto → ∃ inFile : bn < MAXFILE,
    held blocks dinode (contentSlot ⟨bn, inFile⟩) ≠ 0

def holds (sb : Superblock) (blocks : Nat → Block) (inodes : Nat → Dinode) (place : Nat × Slot) :
    Option Nat :=
  if place.1 < sb.ninodes ∧ held blocks (inodes place.1) place.2 ≠ 0 then
    some (held blocks (inodes place.1) place.2).toNat
  else
    none

/-- A volume in order, when these are the inodes. -/
structure Sound (sb : Superblock) (blocks : Nat → Block) (inodes : Nat → Dinode) : Prop where
  reserved : ∀ b, b < sb.nmeta → sb.used blocks b = true
  owned : Exact sb.IsData (fun b => sb.used blocks b = true) (holds sb blocks inodes)
  /-- A free inode has no blocks. -/
  empty : ∀ inum, inum < sb.ninodes → (inodes inum).type = 0 →
    ∀ slot, (inodes inum).addrs slot = 0
  mapped : ∀ inum, inum < sb.ninodes →
    MappedTo blocks (inodes inum) (inodes inum).size.toNat

/-! ## Slots -/

section Slots

variable {sb : Superblock} {blocks blocks' : Nat → Block} {inodes inodes' : Nat → Dinode}
  {dinode dinode' : Dinode} {inum b : Nat} {slot : Slot}

/-- What an inode holds depends on the block its pointer leads to. -/
theorem held_congr (slot : Slot) (same : dinode.addrs indirect ≠ 0 →
      blocks' (dinode.addrs indirect).toNat = blocks (dinode.addrs indirect).toNat) :
    held blocks' dinode slot = held blocks dinode slot := by
  cases slot with
  | addr slot => rfl
  | entry j =>
      by_cases noPointer : dinode.addrs indirect = 0
      · rw [held, held, if_pos noPointer, if_pos noPointer]
      · rw [held, held, if_neg noPointer, if_neg noPointer, same noPointer]

theorem holds_eq_some : holds sb blocks inodes (inum, slot) = some b ↔
    inum < sb.ninodes ∧ held blocks (inodes inum) slot ≠ 0 ∧
      (held blocks (inodes inum) slot).toNat = b := by
  unfold holds
  split
  · rename_i holding
    constructor
    · intro same
      exact ⟨holding.1, holding.2, Option.some.inj same⟩
    · rintro ⟨_, _, rfl⟩
      rfl
  · rename_i nothing
    constructor
    · intro impossible
      cases impossible
    · rintro ⟨inRange, number, _⟩
      exact absurd ⟨inRange, number⟩ nothing

theorem holds_of_zero (nothing : held blocks (inodes inum) slot = 0) :
    holds sb blocks inodes (inum, slot) = none := by
  rw [holds, if_neg]
  rintro ⟨_, something⟩
  exact something nothing

theorem holds_congr (same : held blocks' (inodes' inum) slot = held blocks (inodes inum) slot) :
    holds sb blocks' inodes' (inum, slot) = holds sb blocks inodes (inum, slot) := by
  simp only [holds, same]

theorem contentSlot_ne_indirect (bn : Fin MAXFILE) : contentSlot bn ≠ .addr indirect := by
  unfold contentSlot
  split
  · rename_i direct
    intro same
    have isLast := congrArg Fin.val (Slot.addr.inj same)
    have last : (indirect : Fin (NDIRECT + 1)).val = NDIRECT := rfl
    rw [last] at isLast
    exact absurd isLast (Nat.ne_of_lt direct)
  · exact fun same => by cases same

theorem contentSlot_inj {bn bn' : Fin MAXFILE} (same : contentSlot bn = contentSlot bn') :
    bn = bn' := by
  unfold contentSlot at same
  split at same <;> split at same
  · have sameAddress := congrArg Fin.val (Slot.addr.inj same)
    exact Fin.ext sameAddress
  · cases same
  · cases same
  · have sameEntry := congrArg Fin.val (Slot.entry.inj same)
    dsimp only at sameEntry
    exact Fin.ext (by omega)

theorem MappedTo.mono {upto upto' : Nat} (mapped : MappedTo blocks dinode upto)
    (smaller : upto' ≤ upto)
    (kept : ∀ slot, held blocks dinode slot ≠ 0 → held blocks' dinode' slot ≠ 0) :
    MappedTo blocks' dinode' upto' := by
  intro bn below
  obtain ⟨inFile, number⟩ := mapped bn (Nat.lt_of_lt_of_le below smaller)
  exact ⟨inFile, kept _ number⟩

theorem MappedTo.zero : MappedTo blocks dinode 0 :=
  fun _ below => absurd below (Nat.not_lt_zero _)

end Slots

/-! ## A volume in order -/

section Volume

variable {sb : Superblock} {blocks blocks' : Nat → Block} {inodes inodes' : Nat → Dinode}
  {dinode : Dinode} {inum b c other : Nat} {slot : Slot} {data : Block}
  {address : Fin (NDIRECT + 1)} {j : Fin NINDIRECT}

theorem Sound.of_held (sound : Sound sb blocks inodes) (inRange : inum < sb.ninodes)
    (isInode : inodes inum = dinode) (slot : Slot) (number : held blocks dinode slot ≠ 0) :
    sb.IsData (held blocks dinode slot).toNat ∧
      sb.used blocks (held blocks dinode slot).toNat = true := by
  subst isInode
  have isHeld := holds_eq_some.mpr ⟨inRange, number, rfl⟩
  exact ⟨sound.owned.inside _ _ isHeld, sound.owned.marked _ _ isHeld⟩

theorem Sound.held_ne (sound : Sound sb blocks inodes) (place slot : Slot)
    (otherInRange : other < sb.ninodes) (inRange : inum < sb.ninodes)
    (different : (other, place) ≠ (inum, slot)) (otherNumber : held blocks (inodes other) place ≠ 0)
    (number : held blocks (inodes inum) slot ≠ 0) :
    (held blocks (inodes other) place).toNat ≠ (held blocks (inodes inum) slot).toNat := by
  intro same
  have first : holds sb blocks inodes (other, place) =
      some (held blocks (inodes inum) slot).toNat :=
    holds_eq_some.mpr ⟨otherInRange, otherNumber, same⟩
  have second : holds sb blocks inodes (inum, slot) = some (held blocks (inodes inum) slot).toNat :=
    holds_eq_some.mpr ⟨inRange, number, rfl⟩
  exact different (sound.owned.single _ _ _ first second)

theorem Sound.frame (sound : Sound sb blocks inodes)
    (sameMarks : ∀ c, c < sb.size → sb.used blocks' c = sb.used blocks c)
    (sameSlots : ∀ inum, inum < sb.ninodes → ∀ slot,
      held blocks' (inodes inum) slot = held blocks (inodes inum) slot) :
    Sound sb blocks' inodes := by
  have nmeta_le : sb.nmeta ≤ sb.size := Nat.sub_le ..
  constructor
  · intro b isMeta
    rw [sameMarks b (Nat.lt_of_lt_of_le isMeta nmeta_le)]
    exact sound.reserved b isMeta
  · apply sound.owned.congr
    · intro c isData
      rw [sameMarks c isData.2]
    · rintro ⟨inum, slot⟩
      by_cases inRange : inum < sb.ninodes
      · exact holds_congr (sameSlots inum inRange slot)
      · simp [holds, inRange]
  · exact sound.empty
  · intro inum inRange
    apply (sound.mapped inum inRange).mono (Nat.le_refl _)
    intro slot number
    rwa [sameSlots inum inRange slot]

theorem Sound.congr (sound : Sound sb blocks inodes)
    (same : ∀ inum, inum < sb.ninodes → inodes' inum = inodes inum) :
    Sound sb blocks inodes' := by
  constructor
  · exact sound.reserved
  · apply sound.owned.congr (fun _ _ => Iff.rfl)
    rintro ⟨inum, slot⟩
    by_cases inRange : inum < sb.ninodes
    · exact holds_congr (by rw [same inum inRange])
    · simp [holds, inRange]
  · intro inum inRange
    rw [same inum inRange]
    exact sound.empty inum inRange
  · intro inum inRange
    rw [same inum inRange]
    exact sound.mapped inum inRange

theorem Sound.pointer (sound : Sound sb blocks inodes) (inRange : inum < sb.ninodes)
    (isInode : inodes inum = dinode) (hasPointer : dinode.addrs indirect ≠ 0) :
    sb.IsData (dinode.addrs indirect).toNat ∧
      sb.used blocks (dinode.addrs indirect).toNat = true :=
  sound.of_held inRange isInode (.addr indirect) hasPointer

theorem Sound.pointer_inj (sound : Sound sb blocks inodes) (otherInRange : other < sb.ninodes)
    (inRange : inum < sb.ninodes) (hasPointer : (inodes other).addrs indirect ≠ 0)
    (same : ((inodes other).addrs indirect).toNat = ((inodes inum).addrs indirect).toNat) :
    other = inum := by
  have number : (inodes inum).addrs indirect ≠ 0 := BitVec.eq_of_toNat_eq same ▸ hasPointer
  by_contra different
  exact sound.held_ne (.addr indirect) (.addr indirect) otherInRange inRange
    (fun samePlace => different (congrArg Prod.fst samePlace)) hasPointer number same

theorem Sound.write_meta (sound : Sound sb blocks inodes) (isMeta : c < sb.nmeta)
    (sameMarks : ∀ b, b < sb.size →
      sb.used (update blocks c data) b = sb.used blocks b) :
    Sound sb (update blocks c data) inodes := by
  apply sound.frame sameMarks
  intro inum inRange slot
  apply held_congr
  intro hasPointer
  have isData := (sound.pointer inRange rfl hasPointer).1
  exact update_of_ne (fun same => absurd isData.1 (by omega)) ..

theorem Sound.write_content (sound : Sound sb blocks inodes) (inRange : inum < sb.ninodes)
    (isInode : inodes inum = dinode) {bn : Fin MAXFILE} {addr : BitVec 32}
    (isHeld : held blocks dinode (contentSlot bn) = addr) (number : addr ≠ 0) (data : Block) :
    sb.nmeta ≤ addr.toNat ∧
    (∀ other, other < sb.ninodes → ∀ slot,
      held (update blocks addr.toNat data) (inodes other) slot =
        held blocks (inodes other) slot) ∧
    Sound sb (update blocks addr.toNat data) inodes := by
  subst isInode isHeld
  have isData := (sound.of_held inRange rfl _ number).1
  have sameSlots : ∀ other, other < sb.ninodes → ∀ slot, held (update blocks
      (held blocks (inodes inum) (contentSlot bn)).toNat data) (inodes other) slot =
        held blocks (inodes other) slot := by
    intro other otherInRange slot
    apply held_congr
    intro hasPointer
    apply update_of_ne
    exact sound.held_ne (.addr indirect) (contentSlot bn) otherInRange inRange
      (fun samePlace => contentSlot_ne_indirect bn (congrArg Prod.snd samePlace).symm) hasPointer
      number
  refine ⟨isData.1, sameSlots, sound.frame ?_ sameSlots⟩
  intro b inVolume
  exact sb.used_update_data inVolume isData.1

theorem Sound.replace (sound : Sound sb blocks inodes) (isInode : inodes inum = dinode)
    (dinode' : Dinode) (sameAddrs : dinode'.addrs = dinode.addrs)
    (isEmpty : dinode'.type = 0 → ∀ slot, dinode'.addrs slot = 0)
    (isMapped : MappedTo blocks dinode' dinode'.size.toNat) :
    Sound sb blocks (update inodes inum dinode') := by
  subst isInode
  have sameSlots : ∀ slot, held blocks dinode' slot = held blocks (inodes inum) slot := by
    intro slot
    cases slot <;> simp only [held, sameAddrs]
  constructor
  · exact sound.reserved
  · apply sound.owned.congr (fun _ _ => Iff.rfl)
    rintro ⟨other, slot⟩
    apply holds_congr
    by_cases same : other = inum
    · rw [same, update_self, sameSlots slot]
    · rw [update_of_ne same]
  · intro other inRange
    by_cases same : other = inum
    · rw [same, update_self]
      exact isEmpty
    · rw [update_of_ne same]
      exact sound.empty other inRange
  · intro other inRange
    by_cases same : other = inum
    · rw [same, update_self]
      exact isMapped
    · rw [update_of_ne same]
      exact sound.mapped other inRange

/-! ## Taking a block -/

def taken (sb : Superblock) (blocks : Nat → Block) (b : Nat) : Nat → Block :=
  update (update blocks (sb.bblock b)
    (setBit (blocks (sb.bblock b)) (b % BPB))) b fun _ => 0

theorem taken_of_ne (isData : sb.IsData b) (different : c ≠ b) (cData : sb.nmeta ≤ c) :
    taken sb blocks b c = blocks c := by
  have inBitmap := sb.bblock_lt isData.2
  rw [taken, update_of_ne different, update_of_ne (by omega)]

theorem used_taken (isData : sb.IsData b) (inVolume : c < sb.size) :
    sb.used (taken sb blocks b) c = (decide (c = b) || sb.used blocks c) := by
  rw [taken, sb.used_update_data inVolume isData.1, sb.used_setBit]

theorem dinode_taken (isData : sb.IsData b) (inRange : inum < sb.ninodes) :
    sb.dinode (taken sb blocks b) inum = sb.dinode blocks inum := by
  have above := sb.bmapstart_lt_nmeta
  have isMeta := isData.1
  rw [taken, sb.dinode_update_above inRange (by omega),
    sb.dinode_update_above inRange (sb.bmapstart_le_bblock b)]

theorem Sound.held_taken (sound : Sound sb blocks inodes) (isData : sb.IsData b)
    (free : sb.used blocks b = false) (inRange : inum < sb.ninodes) (slot : Slot) :
    held (taken sb blocks b) (inodes inum) slot = held blocks (inodes inum) slot := by
  apply held_congr
  intro hasPointer
  obtain ⟨pointerData, pointerUsed⟩ := sound.pointer inRange rfl hasPointer
  apply taken_of_ne isData _ pointerData.1
  intro same
  rw [same, free] at pointerUsed
  cases pointerUsed

theorem IsData.pos (isData : sb.IsData b) : b ≠ 0 := by
  have positive := sb.nmeta_pos
  have isMeta := isData.1
  omega

theorem IsData.toNat_ofNat (isData : sb.IsData b) : (BitVec.ofNat 32 b).toNat = b := by
  have small := sb.size_lt
  have inVolume := isData.2
  rw [BitVec.toNat_ofNat]
  exact Nat.mod_eq_of_lt (by omega)

theorem IsData.ofNat_ne_zero (isData : sb.IsData b) : BitVec.ofNat 32 b ≠ 0 := by
  intro isZero
  have same := IsData.toNat_ofNat isData
  rw [isZero] at same
  exact IsData.pos isData same.symm

/-- The rule behind both ways of storing a new block: some blocks and one inode
change so that a slot that was empty holds `b` and all others hold what they
held. -/
theorem Sound.store (sound : Sound sb blocks inodes) (slot : Slot) (isData : sb.IsData b)
    (free : sb.used blocks b = false) (inRange : inum < sb.ninodes)
    (vacant : held blocks (inodes inum) slot = 0)
    (marks : ∀ c, c < sb.size → sb.used blocks' c = (decide (c = b) || sb.used blocks c))
    (sameKind : ∀ other, (inodes' other).type = (inodes other).type ∧
      (inodes' other).size = (inodes other).size)
    (stored : held blocks' (inodes' inum) slot = BitVec.ofNat 32 b)
    (others : ∀ other, other < sb.ninodes → ∀ place, (other, place) ≠ (inum, slot) →
      held blocks' (inodes' other) place = held blocks (inodes other) place)
    (allocated : (inodes inum).type ≠ 0) :
    Sound sb blocks' inodes' := by
  have nmeta_le : sb.nmeta ≤ sb.size := Nat.sub_le ..
  constructor
  · intro c isMeta
    rw [marks c (by omega), sound.reserved c isMeta, Bool.or_true]
  · refine sound.owned.take (s := (inum, slot)) (b := b) isData (by simp [free])
      (holds_of_zero vacant) ?_ ?_ ?_
    · intro c cData
      simp [marks c cData.2]
    · rw [holds_eq_some, stored]
      exact ⟨inRange, IsData.ofNat_ne_zero isData, IsData.toNat_ofNat isData⟩
    · rintro ⟨other, place⟩ different
      by_cases otherInRange : other < sb.ninodes
      · exact holds_congr (others other otherInRange place different)
      · simp [holds, otherInRange]
  · intro other otherInRange isFree
    rw [(sameKind other).1] at isFree
    have different : other ≠ inum := fun same => allocated (same ▸ isFree)
    intro address
    have same := others other otherInRange (.addr address) (by simp [different])
    exact same.trans (sound.empty other otherInRange isFree address)
  · intro other otherInRange
    rw [(sameKind other).2]
    apply (sound.mapped other otherInRange).mono (Nat.le_refl _)
    intro place number
    by_cases same : (other, place) = (inum, slot)
    · cases same
      exact absurd vacant number
    · rwa [others other otherInRange place same]

theorem Sound.store_addr (sound : Sound sb blocks inodes) (isData : sb.IsData b)
    (free : sb.used blocks b = false) (inRange : inum < sb.ninodes) (isInode : inodes inum = dinode)
    (vacant : dinode.addrs address = 0) (allocated : dinode.type ≠ 0) :
    (∀ place, place ≠ .addr address → held (taken sb blocks b)
      (dinode.setAddr address (BitVec.ofNat 32 b)) place = held blocks dinode place) ∧
    Sound sb (taken sb blocks b) (update inodes inum
      (dinode.setAddr address (BitVec.ofNat 32 b))) := by
  subst isInode
  have ownSlots : ∀ place, place ≠ .addr address → held (taken sb blocks b)
      ((inodes inum).setAddr address (BitVec.ofNat 32 b)) place =
        held blocks (inodes inum) place := by
    intro place different
    cases place with
    | addr other => exact Dinode.addrs_setAddr_of_ne _ _ fun same => different (by rw [same])
    | entry j =>
        by_cases isPointer : address = indirect
        · -- A new indirect block is zeroed.
          rw [isPointer] at vacant ⊢
          rw [held, if_neg, Dinode.addrs_setAddr_self, IsData.toNat_ofNat isData, taken,
            update_self, entry_zero, held, if_pos vacant]
          rw [Dinode.addrs_setAddr_self]
          exact IsData.ofNat_ne_zero isData
        · have samePointer := Dinode.addrs_setAddr_of_ne (inodes inum) (BitVec.ofNat 32 b)
            (Ne.symm isPointer)
          rw [← sound.held_taken isData free inRange (.entry j), held, held, samePointer]
  refine ⟨ownSlots, sound.store (.addr address) isData free inRange vacant
    (fun c inVolume => used_taken isData inVolume) ?_ ?_ ?_ allocated⟩
  · intro other
    by_cases same : other = inum
    · rw [same, update_self]
      exact ⟨rfl, rfl⟩
    · rw [update_of_ne same]
      exact ⟨rfl, rfl⟩
  · rw [update_self, held, Dinode.addrs_setAddr_self]
  · intro other otherInRange place different
    by_cases same : other = inum
    · rw [same, update_self]
      exact ownSlots place fun samePlace => different (by rw [same, samePlace])
    · rw [update_of_ne same]
      exact sound.held_taken isData free otherInRange place

theorem Sound.store_entry (sound : Sound sb blocks inodes) (isData : sb.IsData b)
    (free : sb.used blocks b = false) (inRange : inum < sb.ninodes) (isInode : inodes inum = dinode)
    (hasPointer : dinode.addrs indirect ≠ 0) (vacant : held blocks dinode (.entry j) = 0)
    (allocated : dinode.type ≠ 0) :
    let pointer := (dinode.addrs indirect).toNat
    let after := update (taken sb blocks b) pointer
      (setEntry (taken sb blocks b pointer) j (BitVec.ofNat 32 b))
    held after dinode (.entry j) = BitVec.ofNat 32 b ∧
      (∀ place, place ≠ .entry j → held after dinode place = held blocks dinode place) ∧
      Sound sb after inodes := by
  intro pointer after
  subst isInode
  obtain ⟨pointerData, _⟩ := sound.pointer inRange rfl hasPointer
  have atPointer : after ((inodes inum).addrs indirect).toNat =
      setEntry (taken sb blocks b pointer) j (BitVec.ofNat 32 b) := update_self ..
  have stored : held after (inodes inum) (.entry j) = BitVec.ofNat 32 b := by
    rw [held, if_neg hasPointer, atPointer, entry_setEntry, if_pos rfl]
  have ownSlots : ∀ place, place ≠ .entry j → held after (inodes inum) place =
      held blocks (inodes inum) place := by
    intro place different
    rw [← sound.held_taken isData free inRange place]
    cases place with
    | addr other => rfl
    | entry k =>
        have distinct : k.val ≠ j.val := fun same => different (by rw [Fin.ext same])
        rw [held, held, if_neg hasPointer, if_neg hasPointer, atPointer, entry_setEntry,
          if_neg distinct]
  refine ⟨stored, ownSlots, sound.store (.entry j) isData free inRange vacant ?_
    (fun _ => ⟨rfl, rfl⟩) stored ?_ allocated⟩
  · intro c inVolume
    rw [sb.used_update_data inVolume pointerData.1, used_taken isData inVolume]
  · intro other otherInRange place different
    by_cases same : other = inum
    · rw [same]
      exact ownSlots place fun samePlace => different (by rw [same, samePlace])
    · rw [← sound.held_taken isData free otherInRange place]
      apply held_congr
      intro otherPointer
      apply update_of_ne
      intro samePointer
      exact same (sound.pointer_inj otherInRange inRange otherPointer samePointer)

/-! ## Giving a block back -/

def freed (sb : Superblock) (blocks : Nat → Block) (b : Nat) : Nat → Block :=
  update blocks (sb.bblock b) (clearBit (blocks (sb.bblock b)) (b % BPB))

theorem freed_of_data (inVolume : b < sb.size) (isData : sb.nmeta ≤ c) :
    freed sb blocks b c = blocks c := by
  have inBitmap := sb.bblock_lt inVolume
  rw [freed, update_of_ne (by omega)]

theorem dinode_freed (inRange : inum < sb.ninodes) :
    sb.dinode (freed sb blocks b) inum = sb.dinode blocks inum :=
  sb.dinode_update_above inRange (sb.bmapstart_le_bblock b)

/-- The rule behind both ways of giving a block back: the slot is cleared and all
others hold what they held. The inode has no contents any more. -/
theorem Sound.drop (sound : Sound sb blocks inodes) (slot : Slot) (inRange : inum < sb.ninodes)
    (number : held blocks (inodes inum) slot ≠ 0)
    (marks : ∀ c, c < sb.size → sb.used blocks' c =
      (decide (c ≠ (held blocks (inodes inum) slot).toNat) && sb.used blocks c))
    (sameKind : ∀ other, (inodes' other).type = (inodes other).type ∧
      (inodes' other).size = (inodes other).size)
    (cleared : held blocks' (inodes' inum) slot = 0)
    (others : ∀ other, other < sb.ninodes → ∀ place, (other, place) ≠ (inum, slot) →
      held blocks' (inodes' other) place = held blocks (inodes other) place)
    (noContent : (inodes inum).size = 0) :
    Sound sb blocks' inodes' := by
  have nmeta_le : sb.nmeta ≤ sb.size := Nat.sub_le ..
  have isData := (sound.of_held inRange rfl _ number).1
  constructor
  · intro c isMeta
    have different : c ≠ (held blocks (inodes inum) slot).toNat := fun same =>
      absurd isData.1 (by omega)
    rw [marks c (by omega), sound.reserved c isMeta, Bool.and_true, decide_eq_true different]
  · refine sound.owned.release (holds_eq_some.mpr ⟨inRange, number, rfl⟩) ?_
      (holds_of_zero cleared) ?_
    · intro c cData
      simp [marks c cData.2]
    · rintro ⟨other, place⟩ different
      by_cases otherInRange : other < sb.ninodes
      · exact holds_congr (others other otherInRange place different)
      · simp [holds, otherInRange]
  · intro other otherInRange isFree address
    rw [(sameKind other).1] at isFree
    by_cases same : (other, Slot.addr address) = (inum, slot)
    · obtain ⟨rfl, rfl⟩ := Prod.mk.inj same
      exact cleared
    · exact (others other otherInRange (.addr address) same).trans
        (sound.empty other otherInRange isFree address)
  · intro other otherInRange
    rw [(sameKind other).2]
    by_cases same : other = inum
    · rw [same, noContent]
      exact .zero
    · apply (sound.mapped other otherInRange).mono (Nat.le_refl _)
      intro place number
      rwa [others other otherInRange place (by simp [same])]

theorem Sound.held_freed (sound : Sound sb blocks inodes) (inVolume : b < sb.size)
    (inRange : inum < sb.ninodes) (slot : Slot) :
    held (freed sb blocks b) (inodes inum) slot = held blocks (inodes inum) slot := by
  apply held_congr
  intro hasPointer
  exact freed_of_data inVolume (sound.pointer inRange rfl hasPointer).1.1

/-- Clearing a number in `addrs[]`; the indirect block goes last. -/
theorem Sound.drop_addr (sound : Sound sb blocks inodes) (inRange : inum < sb.ninodes)
    (isInode : inodes inum = dinode) (number : dinode.addrs address ≠ 0)
    (noEntries : address = indirect → ∀ j, held blocks dinode (.entry j) = 0)
    (noContent : dinode.size = 0) :
    Sound sb (freed sb blocks (dinode.addrs address).toNat)
      (update inodes inum (dinode.setAddr address 0)) := by
  subst isInode
  have isData : sb.IsData ((inodes inum).addrs address).toNat :=
    (sound.of_held inRange rfl (.addr address) number).1
  refine sound.drop (.addr address) inRange number
    (fun c _ => sb.used_clearBit blocks c _) ?_ ?_ ?_ noContent
  · intro other
    by_cases same : other = inum
    · rw [same, update_self]
      exact ⟨rfl, rfl⟩
    · rw [update_of_ne same]
      exact ⟨rfl, rfl⟩
  · rw [update_self, held, Dinode.addrs_setAddr_self]
  · intro other otherInRange place different
    rw [← sound.held_freed isData.2 otherInRange place]
    by_cases same : other = inum
    · rw [same, update_self]
      rw [same] at different
      cases place with
      | addr other =>
          exact Dinode.addrs_setAddr_of_ne _ _ fun sameAddress => different (by rw [sameAddress])
      | entry j =>
          by_cases isPointer : address = indirect
          · rw [sound.held_freed isData.2 inRange, noEntries isPointer j, held, if_pos]
            rw [isPointer, Dinode.addrs_setAddr_self]
          · simp only [held, Dinode.addrs_setAddr_of_ne _ _ (Ne.symm isPointer)]
    · rw [update_of_ne same]

theorem Sound.drop_entry (sound : Sound sb blocks inodes) (inRange : inum < sb.ninodes)
    (isInode : inodes inum = dinode) (hasPointer : dinode.addrs indirect ≠ 0)
    (number : held blocks dinode (.entry j) ≠ 0) (noContent : dinode.size = 0) :
    Sound sb (update (freed sb blocks (held blocks dinode (.entry j)).toNat)
      (dinode.addrs indirect).toNat
      (setEntry (blocks (dinode.addrs indirect).toNat) j 0)) inodes := by
  subst isInode
  have isData := (sound.of_held inRange rfl _ number).1
  obtain ⟨pointerData, _⟩ := sound.pointer inRange rfl hasPointer
  refine sound.drop (.entry j) inRange number ?_ (fun _ => ⟨rfl, rfl⟩) ?_ ?_ noContent
  · intro c inVolume
    rw [sb.used_update_data inVolume pointerData.1]
    exact sb.used_clearBit blocks c _
  · rw [held, if_neg hasPointer, update_self, entry_setEntry, if_pos rfl]
  · intro other otherInRange place different
    by_cases same : other = inum
    · rw [same] at different ⊢
      cases place with
      | addr other => rfl
      | entry k =>
          have distinct : k.val ≠ j.val := fun sameEntry => different (by rw [Fin.ext sameEntry])
          simp only [held, if_neg hasPointer, update_self, entry_setEntry, if_neg distinct]
    · rw [← sound.held_freed isData.2 otherInRange place]
      apply held_congr
      intro otherPointer
      apply update_of_ne
      intro samePointer
      exact same (sound.pointer_inj otherInRange inRange otherPointer samePointer)

end Volume

end Xv6.Fs
