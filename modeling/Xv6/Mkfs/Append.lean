import Xv6.Mkfs.Program
import Xv6.Mkfs.Volume
import Xv6.Programs.Fallible

/-!
Contract: `iappend` of `mkfs` puts bytes after those an inode has.

Owns: the blocks that an inode of a given size needs, that `iappend` finds or takes exactly
these, writes the bytes and nothing else, and that it fails only when the file is too large or
the blocks do not fit in the image.

Does not own: the inodes on disk before and after a call (`Mkfs.Image`).
-/

namespace Xv6.Mkfs

open Xv6.Kernel
open Xv6.Format
open Xv6.Fs (Superblock Dinode Slot Block Stored mkfsSuperblock held contentSlot entry setEntry
  indirect entry_setEntry)
open Function
open Xv6.Programs

/-! ## Blocks of an inode -/

/-- The first block of the contents for which the slot is needed. -/
def first : Slot → Nat
  | .addr slot => slot
  | .entry j => NDIRECT + j

/-- The blocks of an inode with this many bytes, with the indirect block. -/
def blocksFor (size : Nat) : Nat :=
  (size + BSIZE - 1) / BSIZE + if NDIRECT * BSIZE < size then 1 else 0

/-- The inodes have exactly the blocks that their bytes need. -/
def Shaped (blocks : Nat → Block) (inodes : Nat → Dinode) (contents : Nat → List Byte) : Prop :=
  ∀ inum, inum < mkfsSuperblock.ninodes → ∀ slot,
    held blocks (inodes inum) slot ≠ 0 ↔ first slot * BSIZE < (contents inum).length

theorem blocksFor_succ (off : Nat) : blocksFor (off + 1) = blocksFor off +
    (if off % BSIZE = 0 then 1 else 0) + if off = NDIRECT * BSIZE then 1 else 0 := by
  unfold blocksFor NDIRECT BSIZE
  split_ifs <;> omega

/-- The bytes of one block need the same blocks as the first of them. -/
theorem blocksFor_block {off m : Nat} (positive : 0 < m)
    (inBlock : off + m ≤ (off / BSIZE + 1) * BSIZE) :
    blocksFor (off + m) = blocksFor (off + 1) := by
  unfold blocksFor NDIRECT BSIZE at *
  split_ifs <;> omega

theorem blocksFor_mono {size size' : Nat} (smaller : size ≤ size') :
    blocksFor size ≤ blocksFor size' := by
  unfold blocksFor NDIRECT BSIZE
  split_ifs <;> omega

theorem first_contentSlot (bn : Fin MAXFILE) : first (contentSlot bn) = bn := by
  unfold contentSlot
  split
  · rfl
  · show NDIRECT + (bn.val - NDIRECT) = bn
    omega

/-! ## Sectors -/

section Sectors

variable {s : State} {sec : Nat}

theorem position_eq (small : sec ≤ FSSIZE + 1) : position sec = sec := by
  unfold position BSIZE FSSIZE at *
  omega

theorem rsect_eq (sectors : s.sectors = FSSIZE) (small : sec ≤ FSSIZE + 1) :
    rsect s sec = if sec < FSSIZE then .ok (s.blocks sec) else .error .read := by
  rw [rsect, position_eq small, sectors]

theorem wsect_eq (sectors : s.sectors = FSSIZE) (inside : sec < FSSIZE) (buf : Block) :
    wsect s sec buf = { s with blocks := update s.blocks sec buf } := by
  have same : max FSSIZE (sec + 1) = FSSIZE := Nat.max_eq_left inside
  rw [wsect, position_eq (by omega), sectors, same, ← sectors]

theorem blocks_wsect (small : sec ≤ FSSIZE + 1) (buf : Block) :
    (wsect s sec buf).blocks = update s.blocks sec buf := by
  rw [wsect, position_eq small]

theorem freeblock_nextBlock (small : s.freeblock ≤ FSSIZE + 1) :
    s.nextBlock.freeblock = s.freeblock + 1 := by
  unfold FSSIZE at small
  exact Nat.mod_eq_of_lt (by omega)

end Sectors

/-! ## Finding a block -/

/-- What a call on an inode in memory leaves as it is. -/
structure Beside (s : State) (din : Dinode) (s' : State) (din' : Dinode) : Prop where
  below : ∀ b, b < mkfsSuperblock.nmeta → s'.blocks b = s.blocks b
  sectors : s'.sectors = s.sectors
  freeinode : s'.freeinode = s.freeinode
  fields : { din' with addrs := din.addrs } = din

theorem Beside.refl (s : State) (din : Dinode) : Beside s din s din :=
  ⟨fun _ _ => rfl, rfl, rfl, rfl⟩

theorem Beside.trans {s s' s'' : State} {din din' din'' : Dinode} (earlier : Beside s din s' din')
    (later : Beside s' din' s'' din'') : Beside s din s'' din'' := by
  refine ⟨fun b isMeta => (later.below b isMeta).trans (earlier.below b isMeta),
    later.sectors.trans earlier.sectors, later.freeinode.trans earlier.freeinode, ?_⟩
  have rest := earlier.fields
  rw [← later.fields] at rest
  exact rest

/-- From `s` to `s'` the inode in memory got the slots in `added`, and all that was there is
still there. -/
structure Grown (inodes : Nat → Dinode) (inum : Nat) (added : Slot → Prop) (s : State)
    (din : Dinode) (s' : State) (din' : Dinode) : Prop extends Beside s din s' din' where
  volume : Volume mkfsSuperblock s'.blocks (update inodes inum din') s'.freeblock
  kept : ∀ contents, Kept mkfsSuperblock s.blocks (update inodes inum din) contents →
    Kept mkfsSuperblock s'.blocks (update inodes inum din') contents
  slots : ∀ other, other < mkfsSuperblock.ninodes → ∀ slot,
    held s'.blocks (update inodes inum din' other) slot ≠ 0 ↔
      held s.blocks (update inodes inum din other) slot ≠ 0 ∨ other = inum ∧ added slot

section Finding

variable {inodes : Nat → Dinode} {inum : Nat} {added added' : Slot → Prop} {s s' s'' : State}
  {din din' din'' : Dinode}

theorem Grown.refl (volume : Volume mkfsSuperblock s.blocks (update inodes inum din)
      s.freeblock) (there : ∀ slot, added slot → held s.blocks din slot ≠ 0) :
    Grown inodes inum added s din s din := by
  refine ⟨Beside.refl s din, volume, fun _ kept => kept, fun other inRange slot => ?_⟩
  constructor
  · exact .inl
  · rintro (number | ⟨rfl, isAdded⟩)
    · exact number
    · rw [update_self]
      exact there slot isAdded

theorem Grown.trans (earlier : Grown inodes inum added s din s' din')
    (later : Grown inodes inum added' s' din' s'' din'') :
    Grown inodes inum (fun slot => added slot ∨ added' slot) s din s'' din'' := by
  refine ⟨earlier.toBeside.trans later.toBeside, later.volume,
    fun contents kept => later.kept contents (earlier.kept contents kept),
    fun other inRange slot => ?_⟩
  rw [later.slots other inRange slot, earlier.slots other inRange slot]
  tauto

/-- Slots that were there may be counted as added or not. -/
theorem Grown.congr (grown : Grown inodes inum added s din s' din')
    (same : ∀ slot, held s.blocks din slot ≠ 0 ∨ added slot ↔ held s.blocks din slot ≠ 0 ∨
    added' slot) :
    Grown inodes inum added' s din s' din' := by
  refine { grown with slots := fun other inRange slot => ?_ }
  rw [grown.slots other inRange slot]
  by_cases isInode : other = inum
  · subst isInode
    rw [update_self]
    simpa using same slot
  · simp [isInode]

theorem grown_setAddr (volume : Volume mkfsSuperblock s.blocks (update inodes inum din)
      s.freeblock) (small : s.freeblock ≤ FSSIZE) (inRange : inum < mkfsSuperblock.ninodes)
    {slot : Fin (NDIRECT + 1)} (vacant : din.addrs slot = 0) :
    Grown inodes inum (· = .addr slot) s din s.nextBlock
      (din.setAddr slot (BitVec.ofNat 32 s.freeblock)) := by
  have fits : s.freeblock < 2 ^ 32 := by
    unfold FSSIZE at small
    omega
  have isVacant : (update inodes inum din inum).addrs slot = 0 := by
    rw [update_self, vacant]
  have next : (s.freeblock + 1) % 2 ^ 32 = s.freeblock + 1 := by
    unfold FSSIZE at small
    omega
  have stored := volume.store_addr fits inRange isVacant
  simp only [update_self, update_idem] at stored
  refine ⟨⟨fun _ _ => rfl, rfl, rfl, rfl⟩, ?_, fun contents kept => ?_,
    fun other otherInRange place => ?_⟩
  · show Volume _ s.blocks _ ((s.freeblock + 1) % 2 ^ 32)
    rw [next]
    exact stored
  · have keeps := kept.store_addr volume fits isVacant
    simp only [update_self, update_idem] at keeps
    exact keeps
  · show held s.blocks _ place ≠ 0 ↔ _
    by_cases isInode : other = inum
    · subst isInode
      simp only [update_self, true_and]
      by_cases isSlot : place = .addr slot
      · subst isSlot
        have stored : held s.blocks (din.setAddr slot (BitVec.ofNat 32 s.freeblock)) (.addr slot) =
            BitVec.ofNat 32 s.freeblock := Dinode.addrs_setAddr_self ..
        rw [stored]
        exact iff_of_true (volume.next_ne_zero fits) (.inr rfl)
      · rw [volume.held_setAddr fits vacant isSlot]
        simp [isSlot]
    · simp [isInode]

theorem grown_setEntry (volume : Volume mkfsSuperblock s.blocks (update inodes inum din)
      s.freeblock) (small : s.freeblock ≤ FSSIZE + 1) (inRange : inum < mkfsSuperblock.ninodes)
    (hasPointer : din.addrs indirect ≠ 0) (sectors : s.sectors = FSSIZE)
    (inside : (din.addrs indirect).toNat < FSSIZE) {j : Fin NINDIRECT}
    (vacant : held s.blocks din (.entry j) = 0) :
    Grown inodes inum (· = .entry j) s din (wsect s.nextBlock (din.addrs indirect).toNat
      (setEntry (s.blocks (din.addrs indirect).toNat) j (BitVec.ofNat 32 s.freeblock))) din := by
  have fits : s.freeblock < 2 ^ 32 := by
    unfold FSSIZE at small
    omega
  have next : (s.freeblock + 1) % 2 ^ 32 = s.freeblock + 1 := by
    unfold FSSIZE at small
    omega
  have isInode : update inodes inum din inum = din := update_self ..
  have isVacant : held s.blocks (update inodes inum din inum) (.entry j) = 0 := by
    rw [isInode, vacant]
  have pointer : (update inodes inum din inum).addrs indirect ≠ 0 := by
    rw [isInode]
    exact hasPointer
  have low : mkfsSuperblock.nmeta ≤ (din.addrs indirect).toNat := by
    have bounds := (volume.of_held inRange (.addr indirect) pointer).1
    rw [isInode] at bounds
    exact bounds
  rw [wsect_eq (show s.nextBlock.sectors = FSSIZE from sectors) inside]
  refine ⟨⟨fun b isMeta => ?_, rfl, rfl, rfl⟩, ?_, fun contents kept => ?_,
    fun other otherInRange place => ?_⟩
  · exact update_of_ne (by omega) ..
  · have stored := volume.store_entry fits inRange pointer isVacant
    rw [isInode, ← next] at stored
    exact stored
  · have keeps := kept.store_entry volume inRange pointer isVacant (BitVec.ofNat 32 s.freeblock)
    rw [isInode] at keeps
    exact keeps
  · show held (update s.blocks _ _) _ place ≠ 0 ↔ _
    by_cases isSlot : (other, place) = (inum, .entry j)
    · obtain ⟨rfl, rfl⟩ := Prod.mk.inj isSlot
      rw [isInode, held, if_neg hasPointer, update_self, entry_setEntry, if_pos rfl]
      exact iff_of_true (volume.next_ne_zero fits) (.inr ⟨rfl, rfl⟩)
    · have others := volume.held_setEntry inRange pointer (BitVec.ofNat 32 s.freeblock) otherInRange
        isSlot
      rw [isInode] at others
      rw [others]
      constructor
      · exact .inl
      · rintro (number | ⟨rfl, rfl⟩)
        · exact number
        · exact absurd rfl isSlot

theorem fillSlot_spec (volume : Volume mkfsSuperblock s.blocks (update inodes inum din)
      s.freeblock) (small : s.freeblock ≤ FSSIZE) (inRange : inum < mkfsSuperblock.ninodes)
    (slot : Fin (NDIRECT + 1)) :
    Grown inodes inum (· = .addr slot) s din (fillSlot s din slot).2 (fillSlot s din slot).1 ∧
      (fillSlot s din slot).2.freeblock = s.freeblock + (if din.addrs slot = 0 then 1 else 0) ∧
      (din.addrs slot = 0 → ((fillSlot s din slot).1.addrs slot).toNat = s.freeblock) := by
  unfold fillSlot
  by_cases vacant : din.addrs slot = 0
  · have next : (s.freeblock + 1) % 2 ^ 32 = s.freeblock + 1 := by
      unfold FSSIZE at small
      omega
    simp only [vacant, if_true]
    refine ⟨grown_setAddr volume small inRange vacant, next, fun _ => ?_⟩
    rw [Dinode.addrs_setAddr_self, BitVec.toNat_ofNat, Nat.mod_eq_of_lt (by omega)]
  · simp only [vacant, if_false]
    refine ⟨Grown.refl volume ?_, rfl, fun isZero => isZero.elim⟩
    rintro _ rfl
    exact vacant

theorem fillEntry_spec (volume : Volume mkfsSuperblock s.blocks (update inodes inum din)
      s.freeblock) (small : s.freeblock ≤ FSSIZE + 1) (inRange : inum < mkfsSuperblock.ninodes)
    (hasPointer : din.addrs indirect ≠ 0) (sectors : s.sectors = FSSIZE) (j : Fin NINDIRECT) :
    Ends ((din.addrs indirect).toNat < FSSIZE)
      (fun found => Grown inodes inum (· = .entry j) s din found.2 din ∧
        held found.2.blocks din (.entry j) = found.1 ∧
        found.2.freeblock = s.freeblock + (if held s.blocks din (.entry j) = 0 then 1 else 0) ∧
        (held s.blocks din (.entry j) = 0 → found.1.toNat = s.freeblock))
      (fillEntry s (din.addrs indirect).toNat j) := by
  have below : (din.addrs indirect).toNat < s.freeblock := by
    have bounds := (volume.of_held inRange (.addr indirect) (by rwa [update_self])).2
    rw [update_self] at bounds
    exact bounds
  have isEntry : held s.blocks din (.entry j) = entry (s.blocks (din.addrs indirect).toNat) j :=
    if_neg hasPointer
  have next : (s.freeblock + 1) % 2 ^ 32 = s.freeblock + 1 := by
    unfold FSSIZE at small
    omega
  by_cases inside : (din.addrs indirect).toNat < FSSIZE
  · have reads : fillEntry s (din.addrs indirect).toNat j =
        if entry (s.blocks (din.addrs indirect).toNat) j = 0 then
          .ok (entry (setEntry (s.blocks (din.addrs indirect).toNat) j
              (BitVec.ofNat 32 s.freeblock)) j,
            wsect s.nextBlock (din.addrs indirect).toNat
              (setEntry (s.blocks (din.addrs indirect).toNat) j (BitVec.ofNat 32 s.freeblock)))
        else
          .ok (entry (s.blocks (din.addrs indirect).toNat) j, s) := by
      rw [fillEntry, rsect_eq sectors (by omega), if_pos inside]
      rfl
    by_cases vacant : entry (s.blocks (din.addrs indirect).toNat) j = 0
    · have isVacant : held s.blocks din (.entry j) = 0 := isEntry.trans vacant
      have stored : held (wsect s.nextBlock (din.addrs indirect).toNat
          (setEntry (s.blocks (din.addrs indirect).toNat) j (BitVec.ofNat 32 s.freeblock))).blocks
            din (.entry j) = BitVec.ofNat 32 s.freeblock := by
        rw [blocks_wsect (by omega), held, if_neg hasPointer, update_self, entry_setEntry,
          if_pos rfl]
      rw [reads, if_pos vacant, entry_setEntry, if_pos rfl]
      refine ⟨grown_setEntry volume small inRange hasPointer sectors inside isVacant, stored, ?_,
        fun _ => ?_⟩
      · rw [if_pos isVacant]
        exact freeblock_nextBlock small
      · rw [BitVec.toNat_ofNat, Nat.mod_eq_of_lt (by unfold FSSIZE at small; omega)]
    · have isThere : held s.blocks din (.entry j) ≠ 0 := fun isZero =>
        vacant (isEntry.symm.trans isZero)
      rw [reads, if_neg vacant]
      refine ⟨Grown.refl volume ?_, isEntry, ?_, fun isZero => absurd isZero isThere⟩
      · rintro _ rfl
        exact isThere
      · rw [if_neg isThere]
        rfl
  · rw [fillEntry, rsect_eq sectors (by omega), if_neg inside]
    exact inside

/-- The slots that block `bn` of the contents needs and no block before it. -/
theorem first_eq_direct {bn : Nat} (direct : bn < NDIRECT) (slot : Slot) :
    first slot = bn ↔ slot = .addr ⟨bn, Nat.lt_succ_of_lt direct⟩ := by
  cases slot with
  | addr slot => simp [first, Fin.ext_iff]
  | entry j =>
      constructor
      · intro same
        change NDIRECT + j.val = bn at same
        omega
      · intro same
        cases same

theorem first_eq_indirect {bn : Nat} (inFile : bn < MAXFILE) (notDirect : NDIRECT ≤ bn)
    (slot : Slot) :
    first slot = bn ↔ slot = .entry ⟨bn - NDIRECT, by unfold MAXFILE at inFile; omega⟩ ∨
      bn = NDIRECT ∧ slot = .addr indirect := by
  cases slot with
  | addr slot =>
      have bound := slot.isLt
      have isLast : (indirect : Fin (NDIRECT + 1)).val = NDIRECT := rfl
      simp only [first, Slot.addr.injEq, Fin.ext_iff, isLast]
      constructor
      · intro same
        exact .inr ⟨by omega, by omega⟩
      · rintro (impossible | ⟨isFirst, same⟩)
        · cases impossible
        · omega
  | entry j =>
      simp only [first, Slot.entry.injEq, Fin.ext_iff]
      constructor
      · intro same
        exact .inl (by omega)
      · rintro (same | ⟨_, impossible⟩)
        · omega
        · cases impossible

/-- `iappend` finds the block for the byte at `off`, with the blocks that the bytes before it
have. -/
theorem findBlock_spec (volume : Volume mkfsSuperblock s.blocks (update inodes inum din)
      s.freeblock) (small : s.freeblock ≤ FSSIZE) (inRange : inum < mkfsSuperblock.ninodes)
    (sectors : s.sectors = FSSIZE) {off : Nat}
    (shaped : ∀ slot, held s.blocks din slot ≠ 0 ↔ first slot * BSIZE < off) (bn : Fin MAXFILE)
    (isBlock : off / BSIZE = bn) :
    Ends (s.freeblock + blocksFor (off + 1) ≤ FSSIZE + blocksFor off)
      (fun found => Grown inodes inum (fun slot => first slot = bn) s din found.2.2 found.2.1 ∧
        held found.2.2.blocks found.2.1 (contentSlot bn) = found.1 ∧
        found.2.2.freeblock + blocksFor off = s.freeblock + blocksFor (off + 1) ∧
        (found.2.2.freeblock = s.freeblock ∨ found.1.toNat + 1 = found.2.2.freeblock))
      (findBlock s din bn) := by
  have offset := Nat.div_add_mod' off BSIZE
  rw [isBlock] at offset
  have isMore := blocksFor_succ off
  unfold findBlock contentSlot
  by_cases direct : bn.val < NDIRECT
  · simp only [direct, dite_true]
    obtain ⟨grown, freeblock, number⟩ := fillSlot_spec volume small inRange
      ⟨bn, Nat.lt_succ_of_lt direct⟩
    have vacant : din.addrs ⟨bn, Nat.lt_succ_of_lt direct⟩ = 0 ↔ off % BSIZE = 0 := by
      have isShaped := shaped (.addr ⟨bn, Nat.lt_succ_of_lt direct⟩)
      change din.addrs _ ≠ 0 ↔ bn.val * BSIZE < off at isShaped
      rw [← not_iff_not, ← ne_eq, isShaped]
      omega
    have notLast : off ≠ NDIRECT * BSIZE := by
      unfold NDIRECT BSIZE at *
      omega
    refine ⟨grown.congr fun slot => ?_, rfl, ?_, ?_⟩
    · rw [first_eq_direct direct slot]
    · rw [freeblock, isMore, if_neg notLast]
      simp only [vacant]
      omega
    · rw [freeblock]
      by_cases isVacant : din.addrs ⟨bn, Nat.lt_succ_of_lt direct⟩ = 0
      · right
        rw [if_pos isVacant, number isVacant]
      · left
        rw [if_neg isVacant]
        rfl
  · have notDirect : NDIRECT ≤ bn := Nat.le_of_not_lt direct
    have inIndirect : bn - NDIRECT < NINDIRECT := by
      have inFile := bn.isLt
      unfold MAXFILE at inFile
      omega
    obtain ⟨grown, freeblock, number⟩ := fillSlot_spec volume small inRange indirect
    simp only [direct, dite_false]
    generalize fillSlot s din indirect = filled at *
    obtain ⟨din₁, s₁⟩ := filled
    dsimp only at grown freeblock number ⊢
    have slots := grown.slots inum inRange
    simp only [update_self, true_and] at slots
    have hasPointer : din₁.addrs indirect ≠ 0 := (slots (.addr indirect)).mpr (.inr rfl)
    have noPointer : din.addrs indirect = 0 ↔ off = NDIRECT * BSIZE := by
      have isShaped := shaped (.addr indirect)
      change din.addrs indirect ≠ 0 ↔ NDIRECT * BSIZE < off at isShaped
      have low : NDIRECT * BSIZE ≤ bn * BSIZE := Nat.mul_le_mul_right _ notDirect
      rw [← not_iff_not, ← ne_eq, isShaped]
      omega
    have noEntry : held s₁.blocks din₁ (.entry ⟨bn - NDIRECT, inIndirect⟩) = 0 ↔
        off % BSIZE = 0 := by
      have isShaped := shaped (.entry ⟨bn - NDIRECT, inIndirect⟩)
      have isBlock : first (.entry ⟨bn - NDIRECT, inIndirect⟩) = bn := by
        show NDIRECT + (bn - NDIRECT) = bn
        omega
      rw [isBlock] at isShaped
      rw [← not_iff_not, ← ne_eq, slots, isShaped]
      constructor
      · rintro (below | impossible)
        · omega
        · cases impossible
      · intro inside
        exact .inl (by omega)
    have bound : s₁.freeblock ≤ FSSIZE + 1 := by
      rw [freeblock]
      split <;> omega
    have ends := fillEntry_spec grown.volume bound inRange hasPointer (grown.sectors.trans sectors)
      ⟨bn - NDIRECT, inIndirect⟩
    refine (ends.mono (fun enough => ?_) fun _ found => found).bind ?_
    · -- The indirect block is in the image, if there is room for it.
      have below := (grown.volume.of_held inRange (.addr indirect)
        (by rwa [update_self])).2
      rw [update_self] at below
      change (din₁.addrs indirect).toNat < s₁.freeblock at below
      by_cases isNew : din.addrs indirect = 0
      · rw [number isNew]
        rw [isMore, if_pos (noPointer.mp isNew)] at enough
        omega
      · rw [if_neg isNew] at freeblock
        omega
    · rintro ⟨x, s₂⟩ ⟨grown₂, isFound, freeblock₂, number₂⟩
      dsimp only at grown₂ isFound freeblock₂ number₂
      simp only [noEntry] at freeblock₂ number₂
      simp only [noPointer] at freeblock
      refine ⟨(grown.trans grown₂).congr fun slot => ?_, isFound, ?_, ?_⟩
      · -- The indirect block is new only if this is the first block in it.
        have pointerThere : bn.val ≠ NDIRECT → held s.blocks din (.addr indirect) ≠ 0 := by
          intro notFirst
          refine (shaped (.addr indirect)).mpr ?_
          have below : (NDIRECT + 1) * BSIZE ≤ bn * BSIZE := Nat.mul_le_mul_right _ (by omega)
          change NDIRECT * BSIZE < off
          rw [Nat.succ_mul] at below
          have positive : 0 < BSIZE := by decide
          omega
        rw [first_eq_indirect bn.isLt notDirect slot]
        constructor
        · rintro (isThere | rfl | isEntry)
          · exact .inl isThere
          · rcases Decidable.em (bn.val = NDIRECT) with isFirst | notFirst
            · exact .inr (.inr ⟨isFirst, rfl⟩)
            · exact .inl (pointerThere notFirst)
          · exact .inr (.inl isEntry)
        · rintro (isThere | isEntry | ⟨_, isPointer⟩)
          · exact .inl isThere
          · exact .inr (.inr isEntry)
          · exact .inr (.inl isPointer)
      · show s₂.freeblock + _ = _
        rw [isMore, freeblock₂, freeblock]
        omega
      · show s₂.freeblock = s.freeblock ∨ x.toNat + 1 = s₂.freeblock
        by_cases isVacant : off % BSIZE = 0
        · right
          rw [number₂ isVacant, freeblock₂, if_pos isVacant]
        · left
          have pointerOld : off ≠ NDIRECT * BSIZE := by
            rintro rfl
            exact isVacant (Nat.mul_mod_left ..)
          rw [freeblock₂, if_neg isVacant, freeblock, if_neg pointerOld]
          rfl

end Finding

/-! ## The loop -/

/-- The loop of `iappend`: the inode in memory has these contents, and the others have theirs. -/
structure Appending (inodes : Nat → Dinode) (inum : Nat) (contents : Nat → List Byte) (s : State)
    (din : Dinode) (off : Nat) : Prop where
  volume : Volume mkfsSuperblock s.blocks (update inodes inum din) s.freeblock
  kept : Kept mkfsSuperblock s.blocks (update inodes inum din) contents
  shaped : Shaped s.blocks (update inodes inum din) contents
  sectors : s.sectors = FSSIZE
  small : s.freeblock ≤ FSSIZE
  atEnd : off = (contents inum).length
  inFile : off ≤ MAXFILE * BSIZE

section Appending

variable {inodes : Nat → Dinode} {inum off : Nat} {contents : Nat → List Byte} {s s' : State}
  {din din' : Dinode}

theorem first_lt_iff {k bn m : Nat} (isBlock : off / BSIZE = bn) (positive : 0 < m)
    (inBlock : off + m ≤ (bn + 1) * BSIZE) :
    k * BSIZE < off + m ↔ k * BSIZE < off ∨ k = bn := by
  unfold BSIZE at *
  omega

/-- One round: `m` bytes are written to the block that was found for them. -/
theorem Appending.write (appending : Appending inodes inum contents s din off)
    (inRange : inum < mkfsSuperblock.ninodes) {bn : Fin MAXFILE} (isBlock : off / BSIZE = bn)
    (grown : Grown inodes inum (fun slot => first slot = bn) s din s' din') {x : BitVec 32}
    (isFound : held s'.blocks din' (contentSlot bn) = x) (inside : x.toNat < FSSIZE)
    (small : s'.freeblock ≤ FSSIZE) (p : Bytes) {m : Nat} (positive : 0 < m)
    (inBlock : off + m ≤ (bn + 1) * BSIZE) :
    Appending inodes inum (update contents inum (contents inum ++ firstBytes p m))
        (wsect s' x.toNat (memmove (s'.blocks x.toNat) (off - bn * BSIZE) p m)) din' (off + m) ∧
      Beside s din (wsect s' x.toNat (memmove (s'.blocks x.toNat) (off - bn * BSIZE) p m))
        din' := by
  have sectors : s'.sectors = FSSIZE := grown.sectors.trans appending.sectors
  have isInode : update inodes inum din' inum = din' := update_self ..
  have number : held s'.blocks (update inodes inum din' inum) (contentSlot bn) ≠ 0 :=
    (grown.slots inum inRange _).mpr (.inr ⟨rfl, first_contentSlot bn⟩)
  have isLength := appending.atEnd
  have volume := grown.volume.write inRange number
    (memmove (s'.blocks x.toNat) (off - bn * BSIZE) p m)
  have slots := fun other (otherInRange : other < mkfsSuperblock.ninodes) =>
    grown.volume.held_write inRange number (memmove (s'.blocks x.toNat) (off - bn * BSIZE) p m)
      otherInRange
  have kept := (grown.kept contents appending.kept).append grown.volume inRange number
    (isLength ▸ isBlock) p (isLength ▸ inBlock)
  have low := (grown.volume.of_held inRange _ number).1
  rw [isInode, isFound] at volume slots kept low
  rw [← isLength] at kept
  rw [wsect_eq sectors inside]
  constructor
  · refine ⟨volume, kept, fun other otherInRange slot => ?_, sectors, small, ?_, ?_⟩
    · show held (update s'.blocks _ _) _ slot ≠ 0 ↔ _
      rw [slots other otherInRange slot, grown.slots other otherInRange slot,
        appending.shaped other otherInRange slot]
      by_cases same : other = inum
      · subst same
        rw [update_self, List.length_append, firstBytes_length, ← isLength,
          first_lt_iff isBlock positive inBlock]
        simp
      · rw [update_of_ne same]
        simp [same]
    · rw [update_self, List.length_append, firstBytes_length, ← isLength]
    · have last : (bn + 1) * BSIZE ≤ MAXFILE * BSIZE := Nat.mul_le_mul_right _ bn.isLt
      omega
  · refine grown.toBeside.trans ⟨fun b isMeta => ?_, rfl, rfl, rfl⟩
    exact update_of_ne (by omega) ..

theorem Appending.none (appending : Appending inodes inum contents s din off) (p : Bytes) :
    Appending inodes inum (update contents inum (contents inum ++ firstBytes p 0)) s din
      off := by
  have same : contents inum ++ firstBytes p 0 = contents inum := List.append_nil _
  rw [same, update_eq_self]
  exact appending

theorem appendLoop_spec {rounds n : Nat} (enough : n ≤ rounds)
    (appending : Appending inodes inum contents s din off) (inRange : inum < mkfsSuperblock.ninodes)
    (p : Bytes) :
    Ends (off + n ≤ MAXFILE * BSIZE ∧ s.freeblock + blocksFor (off + n) ≤ FSSIZE + blocksFor off)
      (fun result => Appending inodes inum
          (update contents inum (contents inum ++ firstBytes p n)) result.1 result.2.1
          result.2.2 ∧
        Beside s din result.1 result.2.1 ∧
        result.1.freeblock + blocksFor off = s.freeblock + blocksFor (off + n))
      (appendLoop rounds s din off p n) := by
  induction rounds generalizing s din off n contents p with
  | zero =>
      obtain rfl : n = 0 := by omega
      exact ⟨appending.none p, Beside.refl s din, rfl⟩
  | succ rounds ih =>
      unfold appendLoop
      rcases Nat.eq_zero_or_pos n with rfl | more
      · exact ⟨appending.none p, Beside.refl s din, rfl⟩
      · rw [if_pos more]
        by_cases inFile : off / BSIZE < MAXFILE
        · rw [if_pos inFile]
          have isShaped := appending.shaped inum inRange
          rw [update_self, ← appending.atEnd] at isShaped
          have atLeast : blocksFor (off + 1) ≤ blocksFor (off + n) := blocksFor_mono (by omega)
          refine ((findBlock_spec appending.volume appending.small inRange
            appending.sectors isShaped
            ⟨off / BSIZE, inFile⟩ rfl).mono (fun ⟨_, fits⟩ => by omega) fun _ found =>
              found).bind ?_
          rintro ⟨x, din₁, s₁⟩ ⟨grown, isFound, freeblock, isLast⟩
          dsimp only at grown isFound freeblock isLast ⊢
          have number : held s₁.blocks (update inodes inum din₁ inum)
              (contentSlot ⟨off / BSIZE, inFile⟩) ≠ 0 :=
            (grown.slots inum inRange _).mpr (.inr ⟨rfl, first_contentSlot _⟩)
          have below := (grown.volume.of_held inRange _ number).2
          rw [update_self, isFound] at below
          have bound := blocksFor_succ off
          have sectors : s₁.sectors = FSSIZE := grown.sectors.trans appending.sectors
          have room := appending.small
          rw [rsect_eq sectors (by split_ifs at bound <;> omega)]
          by_cases inside : x.toNat < FSSIZE
          · rw [if_pos inside]
            have small : s₁.freeblock ≤ FSSIZE := by omega
            generalize part : min n ((off / BSIZE + 1) * BSIZE - off) = m
            have inBlock : off + m ≤ (off / BSIZE + 1) * BSIZE := by
              unfold BSIZE at *
              omega
            have positive : 0 < m := by
              unfold BSIZE at *
              omega
            have same := blocksFor_block positive inBlock
            obtain ⟨next, beside⟩ := appending.write inRange rfl grown isFound inside
              small p positive
              inBlock
            have freeblock₂ : (wsect s₁ x.toNat (memmove (s₁.blocks x.toNat)
                (off - off / BSIZE * BSIZE) p m)).freeblock = s₁.freeblock := rfl
            have whole : off + m + (n - m) = off + n := by omega
            refine (ih (by omega) next fun i => p (m + i)).mono ?_ ?_
            · rw [whole, freeblock₂, same]
              omega
            · rintro ⟨s₂, din₂, off₂⟩ ⟨appended, beside₂, freeblock₃⟩
              rw [update_self, update_idem, List.append_assoc, ← firstBytes_add,
                show m + (n - m) = n by omega] at appended
              refine ⟨appended, beside.trans beside₂, ?_⟩
              rw [whole, same, freeblock₂] at freeblock₃
              omega
          · rw [if_neg inside]
            rintro ⟨_, fits⟩
            omega
        · rw [if_neg inFile]
          rintro ⟨short, _⟩
          have large : MAXFILE * BSIZE ≤ off / BSIZE * BSIZE :=
            Nat.mul_le_mul_right _ (Nat.le_of_not_lt inFile)
          have floor := Nat.div_mul_le_self off BSIZE
          omega

end Appending

end Xv6.Mkfs
