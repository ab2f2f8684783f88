import Xv6.Fs.Reading

/-!
Contract: a volume whose data blocks are handed out in order.

Owns: `Volume`: the data blocks below `freeblock` are held by one slot of one inode each, and
the blocks from there on are zero; its rules for storing the next block in an inode or in an
indirect block and for writing the contents of a block; and what these changes leave of the
bytes that are stored.

Does not own: the bitmap, which `mkfs` writes at its end, and where the inodes are.
-/

namespace Xv6.Mkfs

open Xv6.Kernel
open Xv6.Format
open Xv6.Fs
open Xv6.Ownership
open Function

/-- A volume when these are the inodes. -/
structure Volume (sb : Superblock) (blocks : Nat → Block) (inodes : Nat → Dinode)
    (freeblock : Nat) : Prop where
  low : sb.nmeta ≤ freeblock
  owned : Exact (sb.nmeta ≤ ·) (· < freeblock) (holds sb blocks inodes)
  blank : ∀ b, freeblock ≤ b → blocks b = fun _ => 0

/-- The inodes hold these bytes. -/
def Kept (sb : Superblock) (blocks : Nat → Block) (inodes : Nat → Dinode)
    (contents : Nat → List Byte) : Prop :=
  ∀ inum, inum < sb.ninodes → Stored blocks (inodes inum) (contents inum)

section Rules

variable {sb : Superblock} {blocks blocks' : Nat → Block} {inodes inodes' : Nat → Dinode}
  {freeblock inum other c : Nat} {slot : Slot} {contents : Nat → List Byte}
  {address : Fin (NDIRECT + 1)} {j : Fin NINDIRECT} {bn : Fin MAXFILE}

theorem Volume.of_held (volume : Volume sb blocks inodes freeblock) (inRange : inum < sb.ninodes)
    (slot : Slot) (number : held blocks (inodes inum) slot ≠ 0) :
    sb.nmeta ≤ (held blocks (inodes inum) slot).toNat ∧
      (held blocks (inodes inum) slot).toNat < freeblock := by
  have isHeld := holds_eq_some.mpr ⟨inRange, number, rfl⟩
  exact ⟨volume.owned.inside _ _ isHeld, volume.owned.marked _ _ isHeld⟩

theorem Volume.same_place (volume : Volume sb blocks inodes freeblock) (inRange : inum < sb.ninodes)
    (otherInRange : other < sb.ninodes) (slot place : Slot)
    (number : held blocks (inodes inum) slot ≠ 0)
    (same : (held blocks (inodes other) place).toNat = (held blocks (inodes inum) slot).toNat) :
    other = inum ∧ place = slot := by
  have sameNumber := BitVec.eq_of_toNat_eq same
  have first := holds_eq_some.mpr ⟨otherInRange, sameNumber ▸ number, same⟩
  have second := holds_eq_some.mpr ⟨inRange, number, rfl⟩
  exact Prod.mk.inj (volume.owned.single _ _ _ first second)

theorem Volume.frame (volume : Volume sb blocks inodes freeblock)
    (sameSlots : ∀ inum, inum < sb.ninodes → ∀ slot,
      held blocks' (inodes' inum) slot = held blocks (inodes inum) slot)
    (sameBlank : ∀ b, freeblock ≤ b → blocks' b = blocks b) :
    Volume sb blocks' inodes' freeblock := by
  refine ⟨volume.low, volume.owned.congr (fun _ _ => Iff.rfl) ?_, fun b isFree => ?_⟩
  · rintro ⟨inum, slot⟩
    by_cases inRange : inum < sb.ninodes
    · exact holds_congr (sameSlots inum inRange slot)
    · simp [holds, inRange]
  · rw [sameBlank b isFree, volume.blank b isFree]

theorem Volume.next_ne_zero (volume : Volume sb blocks inodes freeblock)
    (small : freeblock < 2 ^ 32) :
    BitVec.ofNat 32 freeblock ≠ 0 := by
  intro isZero
  have low := volume.low
  have positive := sb.nmeta_pos
  have value := congrArg BitVec.toNat isZero
  rw [BitVec.toNat_ofNat, Nat.mod_eq_of_lt small] at value
  change freeblock = 0 at value
  omega

/-- The rule behind both ways of storing the next block. -/
theorem Volume.store (volume : Volume sb blocks inodes freeblock) (slot : Slot)
    (inRange : inum < sb.ninodes) (small : freeblock < 2 ^ 32)
    (vacant : held blocks (inodes inum) slot = 0)
    (stored : held blocks' (inodes' inum) slot = BitVec.ofNat 32 freeblock)
    (others : ∀ other, other < sb.ninodes → ∀ place, (other, place) ≠ (inum, slot) →
      held blocks' (inodes' other) place = held blocks (inodes other) place)
    (sameBlank : ∀ b, freeblock < b → blocks' b = blocks b) :
    Volume sb blocks' inodes' (freeblock + 1) := by
  have number : (BitVec.ofNat 32 freeblock).toNat = freeblock := by
    rw [BitVec.toNat_ofNat, Nat.mod_eq_of_lt small]
  refine ⟨Nat.le_succ_of_le volume.low, ?_, fun b isFree => ?_⟩
  · refine volume.owned.take (s := (inum, slot)) (b := freeblock) volume.low (Nat.lt_irrefl _)
      (holds_of_zero vacant) (fun c _ => by omega) ?_ ?_
    · rw [holds_eq_some, stored]
      exact ⟨inRange, volume.next_ne_zero small, number⟩
    · rintro ⟨other, place⟩ different
      by_cases otherInRange : other < sb.ninodes
      · exact holds_congr (others other otherInRange place different)
      · simp [holds, otherInRange]
  · rw [sameBlank b isFree, volume.blank b (Nat.le_of_lt isFree)]

/-- The other slots when the next block is stored in `addrs[]`: a new indirect block is
zero. -/
theorem Volume.held_setAddr (volume : Volume sb blocks inodes freeblock)
    (small : freeblock < 2 ^ 32) {dinode : Dinode} (vacant : dinode.addrs address = 0)
    {place : Slot} (different : place ≠ .addr address) :
    held blocks (dinode.setAddr address (BitVec.ofNat 32 freeblock)) place =
      held blocks dinode place := by
  cases place with
  | addr other => exact Dinode.addrs_setAddr_of_ne _ _ fun same => different (by rw [same])
  | entry j =>
      by_cases isPointer : address = indirect
      · subst isPointer
        rw [held, held, if_pos vacant, Dinode.addrs_setAddr_self]
        split
        · rfl
        · rw [BitVec.toNat_ofNat, Nat.mod_eq_of_lt small,
            volume.blank _ (Nat.le_refl _), entry_zero]
      · rw [held, held, Dinode.addrs_setAddr_of_ne _ _ (Ne.symm isPointer)]

theorem Volume.store_addr (volume : Volume sb blocks inodes freeblock) (small : freeblock < 2 ^ 32)
    (inRange : inum < sb.ninodes) (vacant : (inodes inum).addrs address = 0) :
    Volume sb blocks (update inodes inum
      ((inodes inum).setAddr address (BitVec.ofNat 32 freeblock))) (freeblock + 1) := by
  refine volume.store (.addr address) inRange small vacant ?_ ?_ fun _ _ => rfl
  · rw [update_self]
    exact Dinode.addrs_setAddr_self ..
  · intro other _ place different
    by_cases same : other = inum
    · subst same
      rw [update_self]
      exact volume.held_setAddr small vacant fun samePlace => different (by rw [samePlace])
    · rw [update_of_ne same]

theorem Volume.held_setEntry (volume : Volume sb blocks inodes freeblock)
    (inRange : inum < sb.ninodes) (hasPointer : (inodes inum).addrs indirect ≠ 0)
    (value : BitVec 32) (otherInRange : other < sb.ninodes) {place : Slot}
    (different : (other, place) ≠ (inum, .entry j)) :
    held (update blocks ((inodes inum).addrs indirect).toNat
      (setEntry (blocks ((inodes inum).addrs indirect).toNat) j value)) (inodes other) place =
        held blocks (inodes other) place := by
  by_cases same : other = inum
  · subst same
    cases place with
    | addr address => rfl
    | entry k =>
        have distinct : k.val ≠ j.val := fun sameEntry => different (by rw [Fin.ext sameEntry])
        rw [held, held, if_neg hasPointer, if_neg hasPointer, update_self, entry_setEntry,
          if_neg distinct]
  · apply held_congr
    intro otherPointer
    refine update_of_ne (fun samePointer => ?_) ..
    exact same (volume.same_place inRange otherInRange (.addr indirect) (.addr indirect) hasPointer
      samePointer).1

theorem Volume.store_entry (volume : Volume sb blocks inodes freeblock) (small : freeblock < 2 ^ 32)
    (inRange : inum < sb.ninodes) (hasPointer : (inodes inum).addrs indirect ≠ 0)
    (vacant : held blocks (inodes inum) (.entry j) = 0) :
    Volume sb (update blocks ((inodes inum).addrs indirect).toNat
      (setEntry (blocks ((inodes inum).addrs indirect).toNat) j (BitVec.ofNat 32 freeblock)))
        inodes (freeblock + 1) := by
  refine volume.store (.entry j) inRange small vacant ?_ ?_ ?_
  · rw [held, if_neg hasPointer, update_self, entry_setEntry, if_pos rfl]
  · intro other otherInRange place different
    exact volume.held_setEntry inRange hasPointer _ otherInRange different
  · intro b isFree
    have below := (volume.of_held inRange (.addr indirect) hasPointer).2
    change ((inodes inum).addrs indirect).toNat < freeblock at below
    exact update_of_ne (by omega) ..

theorem Volume.held_write (volume : Volume sb blocks inodes freeblock) (inRange : inum < sb.ninodes)
    (number : held blocks (inodes inum) (contentSlot bn) ≠ 0) (data : Block)
    (otherInRange : other < sb.ninodes) (place : Slot) :
    held (update blocks (held blocks (inodes inum) (contentSlot bn)).toNat data)
      (inodes other) place = held blocks (inodes other) place := by
  apply held_congr
  intro otherPointer
  refine update_of_ne (fun samePointer => ?_) ..
  have samePlace := (volume.same_place inRange otherInRange (contentSlot bn) (.addr indirect) number
    samePointer).2
  exact contentSlot_ne_indirect bn samePlace.symm

theorem Volume.write (volume : Volume sb blocks inodes freeblock) (inRange : inum < sb.ninodes)
    (number : held blocks (inodes inum) (contentSlot bn) ≠ 0) (data : Block) :
    Volume sb (update blocks (held blocks (inodes inum) (contentSlot bn)).toNat data)
      inodes freeblock := by
  refine volume.frame (fun other otherInRange place =>
    volume.held_write inRange number data otherInRange place) fun b isFree => ?_
  have below := (volume.of_held inRange _ number).2
  exact update_of_ne (by omega) ..

/-! ## Stored bytes -/

theorem Kept.frame (kept : Kept sb blocks inodes contents)
    (sameSlots : ∀ inum, inum < sb.ninodes → ∀ slot, held blocks (inodes inum) slot ≠ 0 →
      held blocks' (inodes' inum) slot = held blocks (inodes inum) slot)
    (sameBlocks : ∀ inum, inum < sb.ninodes → ∀ bn,
      held blocks (inodes inum) (contentSlot bn) ≠ 0 →
        blocks' (held blocks (inodes inum) (contentSlot bn)).toNat =
          blocks (held blocks (inodes inum) (contentSlot bn)).toNat) :
    Kept sb blocks' inodes' contents := by
  intro inum inRange off byte isByte
  obtain ⟨inFile, number, isStored⟩ := kept inum inRange off byte isByte
  refine ⟨inFile, ?_, ?_⟩
  · rw [sameSlots inum inRange _ number]
    exact number
  · rw [sameSlots inum inRange _ number, sameBlocks inum inRange _ number, isStored]

theorem Kept.store_addr (kept : Kept sb blocks inodes contents)
    (volume : Volume sb blocks inodes freeblock) (small : freeblock < 2 ^ 32)
    (vacant : (inodes inum).addrs address = 0) :
    Kept sb blocks (update inodes inum
      ((inodes inum).setAddr address (BitVec.ofNat 32 freeblock))) contents := by
  refine kept.frame (fun other _ place number => ?_) fun _ _ _ _ => rfl
  by_cases same : other = inum
  · subst same
    rw [update_self]
    refine volume.held_setAddr small vacant ?_
    rintro rfl
    exact number vacant
  · rw [update_of_ne same]

theorem Kept.store_entry (kept : Kept sb blocks inodes contents)
    (volume : Volume sb blocks inodes freeblock) (inRange : inum < sb.ninodes)
    (hasPointer : (inodes inum).addrs indirect ≠ 0)
    (vacant : held blocks (inodes inum) (.entry j) = 0) (value : BitVec 32) :
    Kept sb (update blocks ((inodes inum).addrs indirect).toNat
      (setEntry (blocks ((inodes inum).addrs indirect).toNat) j value)) inodes contents := by
  refine kept.frame (fun other otherInRange place number => ?_)
    fun other otherInRange bn number => ?_
  · refine volume.held_setEntry inRange hasPointer value otherInRange ?_
    rintro ⟨⟩
    exact number vacant
  · refine update_of_ne (fun same => ?_) ..
    have samePlace := (volume.same_place inRange otherInRange (.addr indirect) _ hasPointer same).2
    exact contentSlot_ne_indirect bn samePlace

/-- A block outside the data area is written, and inodes with the same block numbers take the
place of the others. -/
theorem Volume.held_meta (volume : Volume sb blocks inodes freeblock) (isMeta : c < sb.nmeta)
    (data : Block) (inRange : inum < sb.ninodes) (same : (inodes' inum).addrs = (inodes inum).addrs)
    (slot : Slot) :
    held (update blocks c data) (inodes' inum) slot = held blocks (inodes inum) slot := by
  have sameSlot : held blocks (inodes' inum) slot = held blocks (inodes inum) slot := by
    cases slot <;> simp only [held, same]
  rw [← sameSlot]
  refine held_congr slot fun hasPointer => update_of_ne ?_ ..
  rw [same] at hasPointer ⊢
  have low := (volume.of_held inRange (.addr indirect) hasPointer).1
  change sb.nmeta ≤ ((inodes inum).addrs indirect).toNat at low
  omega

theorem Volume.write_meta (volume : Volume sb blocks inodes freeblock) (isMeta : c < sb.nmeta)
    (data : Block) (same : ∀ inum, inum < sb.ninodes → (inodes' inum).addrs = (inodes inum).addrs) :
    Volume sb (update blocks c data) inodes' freeblock := by
  refine volume.frame (fun inum inRange slot =>
    volume.held_meta isMeta data inRange (same inum inRange) slot) fun b isFree => ?_
  have low := volume.low
  exact update_of_ne (by omega) ..

theorem Kept.write_meta (kept : Kept sb blocks inodes contents)
    (volume : Volume sb blocks inodes freeblock) (isMeta : c < sb.nmeta) (data : Block)
    (same : ∀ inum, inum < sb.ninodes → (inodes' inum).addrs = (inodes inum).addrs) :
    Kept sb (update blocks c data) inodes' contents := by
  refine kept.frame (fun inum inRange slot _ =>
    volume.held_meta isMeta data inRange (same inum inRange) slot) fun inum inRange bn number => ?_
  have low := (volume.of_held inRange _ number).1
  exact update_of_ne (by omega) ..

/-- Bytes are written after the last one, in the block that is there for them. -/
theorem Kept.append (kept : Kept sb blocks inodes contents)
    (volume : Volume sb blocks inodes freeblock) (inRange : inum < sb.ninodes)
    (number : held blocks (inodes inum) (contentSlot bn) ≠ 0)
    (isBlock : (contents inum).length / BSIZE = bn) (p : Bytes) {m : Nat}
    (inBlock : (contents inum).length + m ≤ (bn + 1) * BSIZE) :
    Kept sb (update blocks (held blocks (inodes inum) (contentSlot bn)).toNat
      (memmove (blocks (held blocks (inodes inum) (contentSlot bn)).toNat)
        ((contents inum).length - bn * BSIZE) p m)) inodes
      (update contents inum (contents inum ++ firstBytes p m)) := by
  have length := Nat.div_add_mod' (contents inum).length BSIZE
  rw [isBlock] at length
  intro other otherInRange off byte isByte
  have slots := fun place => volume.held_write inRange number
    (memmove (blocks (held blocks (inodes inum) (contentSlot bn)).toNat)
      ((contents inum).length - bn * BSIZE) p m) otherInRange place
  -- A byte that was there keeps its place and, if its block is the written one, is below.
  have before : (contents other)[off]? = some byte →
      (other = inum → off < (contents inum).length) → ∃ inFile : off / BSIZE < MAXFILE,
        held blocks (inodes other) (contentSlot ⟨off / BSIZE, inFile⟩) ≠ 0 ∧
          update blocks (held blocks (inodes inum) (contentSlot bn)).toNat
            (memmove (blocks (held blocks (inodes inum) (contentSlot bn)).toNat)
              ((contents inum).length - bn * BSIZE) p m)
            (held blocks (inodes other) (contentSlot ⟨off / BSIZE, inFile⟩)).toNat (off % BSIZE) =
              byte := by
    intro wasByte below
    obtain ⟨inFile, isNumber, isStored⟩ := kept other otherInRange off byte wasByte
    refine ⟨inFile, isNumber, ?_⟩
    by_cases same : (held blocks (inodes other) (contentSlot ⟨off / BSIZE, inFile⟩)).toNat =
        (held blocks (inodes inum) (contentSlot bn)).toNat
    · obtain ⟨sameInode, sameSlot⟩ := volume.same_place inRange otherInRange _ _ number same
      have sameBlock : off / BSIZE = bn := congrArg Fin.val (contentSlot_inj sameSlot)
      have place := Nat.div_add_mod' off BSIZE
      rw [sameBlock] at place
      have lower := below sameInode
      rw [same, update_self, memmove, if_neg (by omega), ← same, isStored]
    · rw [update_of_ne same, isStored]
  simp only [slots]
  by_cases same : other = inum
  · subst same
    rw [update_self] at isByte
    rcases Nat.lt_or_ge off (contents other).length with below | above
    · rw [List.getElem?_append_left below] at isByte
      exact before isByte fun _ => below
    · rw [List.getElem?_append_right above] at isByte
      have inNew : off - (contents other).length < m := by
        have inList := (List.getElem?_eq_some_iff.mp isByte).1
        rwa [firstBytes_length] at inList
      rw [getElem?_firstBytes p inNew] at isByte
      have sameBlock : off / BSIZE = bn := by
        have inFile := bn.isLt
        unfold BSIZE at *
        omega
      have place := Nat.div_add_mod' off BSIZE
      rw [sameBlock] at place
      have isSlot : (⟨off / BSIZE, sameBlock ▸ bn.isLt⟩ : Fin MAXFILE) = bn := Fin.ext sameBlock
      refine ⟨sameBlock ▸ bn.isLt, ?_, ?_⟩
      · rw [isSlot]
        exact number
      · rw [isSlot, update_self, memmove, if_pos (by omega), ← Option.some.inj isByte]
        exact congrArg p (by omega)
  · rw [update_of_ne same] at isByte
    exact before isByte fun sameInode => absurd sameInode same

end Rules

end Xv6.Mkfs
