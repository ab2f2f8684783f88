import Xv6.Fs.Inode
import Xv6.Fs.Slots

/-!
Contract: reading and writing the contents of an inode keep the blocks owned.

Owns: the state between calls (`Ready`: the volume is in order with the inodes on
disk, and valid copies in the inode table are what is on disk), the state while a
call adds to an inode (`Editing`: the volume is in order with the copy in the
inode table instead), and the specifications of `balloc`, `bmap`, `readi` and
`iupdate`. That of `writei` is in `Fs.Writing`.
-/

namespace Xv6.Fs

open Xv6.Kernel
open Xv6.Format
open Xv6.Ownership
open Function

variable (sb : Superblock)

/-- The inode table in order. Entries in `but` may differ from the disk. -/
structure Coherent (blocks : Nat → Block) (itable : InodeId → Inode) (but : InodeId → Prop) :
    Prop where
  inRange : ∀ ip, 0 < (itable ip).ref → (itable ip).inum < sb.ninodes
  single : ∀ ip jp, 0 < (itable ip).ref → 0 < (itable jp).ref →
    (itable ip).inum = (itable jp).inum → ip = jp
  copies : ∀ ip, ¬ but ip → 0 < (itable ip).ref → (itable ip).valid = true →
    (itable ip).toDinode = sb.dinode blocks (itable ip).inum ∧ (itable ip).type ≠ 0

def IsInode (blocks : Nat → Block) (itable : InodeId → Inode) (inum : Nat) (dinode : Dinode) :
    Prop :=
  dinode = sb.dinode blocks inum ∨ ∃ ip, 0 < (itable ip).ref ∧ (itable ip).inum = inum ∧
    (itable ip).valid = true ∧ (itable ip).toDinode = dinode

structure Allocation.Fresh (a : Allocation) : Prop where
  isData : sb.IsData a.block
  free : sb.used a.blocks a.block = false
  unowned : ∀ inum, inum < sb.ninodes → ∀ dinode, IsInode sb a.blocks a.itable inum dinode →
    ∀ slot, (held a.blocks dinode slot).toNat ≠ a.block

/-- Between calls. -/
structure Ready (fs : FileSystem) : Prop where
  sound : Sound sb fs.blocks (sb.dinode fs.blocks)
  coherent : Coherent sb fs.blocks fs.itable fun _ => False
  fresh : ∀ a ∈ fs.allocations, a.Fresh sb

/-- The inodes, with entry `ip` of the inode table in the place of its inode. -/
def FileSystem.view (fs : FileSystem) (ip : InodeId) : Nat → Dinode :=
  update (sb.dinode fs.blocks) (fs.itable ip).inum (fs.itable ip).toDinode

/-- While a call changes the inode at `ip`. -/
structure Editing (fs : FileSystem) (ip : InodeId) : Prop where
  live : 0 < (fs.itable ip).ref
  valid : (fs.itable ip).valid = true
  allocated : (fs.itable ip).type ≠ 0
  sound : Sound sb fs.blocks (fs.view sb ip)
  coherent : Coherent sb fs.blocks fs.itable (· = ip)
  /-- The disk lacks only numbers the copy has. -/
  behind : ∀ slot, (sb.dinode fs.blocks (fs.itable ip).inum).addrs slot = 0 ∨
    (sb.dinode fs.blocks (fs.itable ip).inum).addrs slot = (fs.itable ip).addrs slot
  fresh : ∀ a ∈ fs.allocations, a.Fresh sb

/-- The copy at `ip` has gained block numbers, and nothing else has changed in the
inodes. -/
structure Grown (fs fs' : FileSystem) (ip : InodeId) : Prop where
  others : ∀ jp, jp ≠ ip → fs'.itable jp = fs.itable jp
  same : ∃ addrs, fs'.itable ip = { fs.itable ip with addrs }
  disk : ∀ inum, inum < sb.ninodes → sb.dinode fs'.blocks inum = sb.dinode fs.blocks inum
  kept : ∀ slot, held fs.blocks (fs.itable ip).toDinode slot ≠ 0 →
    held fs'.blocks (fs'.itable ip).toDinode slot = held fs.blocks (fs.itable ip).toDinode slot

def FileSystem.slots (fs : FileSystem) (ip : InodeId) : Slot → BitVec 32 :=
  held fs.blocks (fs.itable ip).toDinode

/-- The blocks of the other inodes are as they were. -/
def Beside (fs fs' : FileSystem) (ip : InodeId) : Prop :=
  ∀ inum, inum < sb.ninodes → inum ≠ (fs.itable ip).inum → ∀ slot,
    held fs.blocks (sb.dinode fs.blocks inum) slot ≠ 0 →
      fs'.blocks (held fs.blocks (sb.dinode fs.blocks inum) slot).toNat =
        fs.blocks (held fs.blocks (sb.dinode fs.blocks inum) slot).toNat

/-- The blocks that are logged while blocks `bns` of the contents are written: these, the
indirect block, and the blocks of the bitmap for those that are new. -/
inductive Touched (before after : Slot → BitVec 32) (bns : Fin MAXFILE → Prop) : Nat → Prop where
  | pointer (number : after (.addr indirect) ≠ 0) : Touched before after bns
      (after (.addr indirect)).toNat
  | pointerBit (number : after (.addr indirect) ≠ 0) : Touched before after bns
      (sb.bblock (after (.addr indirect)).toNat)
  | data {bn : Fin MAXFILE} (listed : bns bn) (number : after (contentSlot bn) ≠ 0) :
      Touched before after bns (after (contentSlot bn)).toNat
  | dataBit {bn : Fin MAXFILE} (listed : bns bn) (vacant : before (contentSlot bn) = 0)
      (number : after (contentSlot bn) ≠ 0) :
      Touched before after bns (sb.bblock (after (contentSlot bn)).toNat)

/-- Only such blocks have been logged. -/
def Logs (fs fs' : FileSystem) (ip : InodeId) (bns : Fin MAXFILE → Prop) : Prop :=
  ∃ logged, fs'.logged = fs.logged ++ logged ∧
    ∀ c ∈ logged, Touched sb (fs.slots ip) (fs'.slots ip) bns c

/-- The copy at `ip` has gained numbers for blocks `bns` of the contents, and no contents have
changed. -/
structure Extended (fs fs' : FileSystem) (ip : InodeId) (bns : Fin MAXFILE → Prop) : Prop
    extends Grown sb fs fs' ip where
  beside : Beside sb fs fs' ip
  contents : ∀ bn, fs.slots ip (contentSlot bn) ≠ 0 →
    fs'.blocks (fs.slots ip (contentSlot bn)).toNat = fs.blocks (fs.slots ip (contentSlot bn)).toNat
  logs : Logs sb fs fs' ip bns

variable {sb} {fs fs' fs'' : FileSystem} {ip : InodeId} {b inum off : Nat}
  {bns bns' : Fin MAXFILE → Prop} {blocks : Nat → Block}

/-! ## The inode table -/

section Table

variable {blocks blocks' : Nat → Block} {itable itable' : InodeId → Inode}
  {but but' : InodeId → Prop}

/-- One entry keeps its number and its references, all others stay as they are. -/
theorem Coherent.edit (coherent : Coherent sb blocks itable but)
    (others : ∀ jp, jp ≠ ip → itable' jp = itable jp)
    (sameNumber : (itable' ip).inum = (itable ip).inum)
    (sameRef : (itable' ip).ref = (itable ip).ref)
    (disk : ∀ inum, inum < sb.ninodes → inum ≠ (itable ip).inum →
      sb.dinode blocks' inum = sb.dinode blocks inum)
    (weaker : ∀ jp, but jp → jp = ip) (live : 0 < (itable ip).ref) :
    Coherent sb blocks' itable' (· = ip) := by
  have numbers : ∀ jp, (itable' jp).inum = (itable jp).inum ∧ (itable' jp).ref =
      (itable jp).ref := by
    intro jp
    by_cases isEdited : jp = ip
    · rw [isEdited]
      exact ⟨sameNumber, sameRef⟩
    · rw [others jp isEdited]
      exact ⟨rfl, rfl⟩
  constructor
  · intro jp referenced
    rw [(numbers jp).2] at referenced
    rw [(numbers jp).1]
    exact coherent.inRange jp referenced
  · intro jp kp jReferenced kReferenced sameInum
    rw [(numbers jp).2] at jReferenced
    rw [(numbers kp).2] at kReferenced
    rw [(numbers jp).1, (numbers kp).1] at sameInum
    exact coherent.single jp kp jReferenced kReferenced sameInum
  · intro jp different referenced isValid
    rw [others jp different] at referenced isValid ⊢
    have otherInode : (itable jp).inum ≠ (itable ip).inum := fun sameInum =>
      different (coherent.single jp ip referenced live sameInum)
    rw [disk _ (coherent.inRange jp referenced) otherInode]
    exact coherent.copies jp (fun listed => different (weaker jp listed)) referenced isValid

theorem Coherent.settle (coherent : Coherent sb blocks itable (· = ip))
    (agrees : 0 < (itable ip).ref → (itable ip).valid = true →
      (itable ip).toDinode = sb.dinode blocks (itable ip).inum ∧ (itable ip).type ≠ 0) :
    Coherent sb blocks itable fun _ => False := by
  refine ⟨coherent.inRange, coherent.single, ?_⟩
  intro jp _ referenced isValid
  by_cases isEdited : jp = ip
  · rw [isEdited] at referenced isValid ⊢
    exact agrees referenced isValid
  · exact coherent.copies jp isEdited referenced isValid

end Table

/-! ## Finding a free block -/

theorem findFree_spec {bi : Nat} (found : findFree sb blocks = some (b, bi)) :
    b + bi < sb.size ∧ sb.bblock b = sb.bblock (b + bi) ∧ bi = (b + bi) % BPB ∧
      sb.used blocks (b + bi) = false := by
  obtain ⟨start, isStart, inBlock⟩ := List.exists_of_findSome?_eq_some found
  obtain ⟨k, _, rfl⟩ := List.mem_map.mp isStart
  obtain ⟨bit, isFree, samePlace⟩ := Option.map_eq_some_iff.mp inBlock
  cases samePlace
  have inRange := List.mem_range.mp (List.mem_of_find?_eq_some isFree)
  have positive : 0 < BPB := by decide
  have sameBlock : (k * BPB + bi) / BPB = k := by
    rw [Nat.add_comm, Nat.add_mul_div_right _ _ positive, Nat.div_eq_of_lt (by omega),
      Nat.zero_add]
  have sameBit : (k * BPB + bi) % BPB = bi := by
    rw [Nat.add_comm, Nat.add_mul_mod_self_right, Nat.mod_eq_of_lt (by omega)]
  have bitmapBlock : sb.bblock (k * BPB) = sb.bblock (k * BPB + bi) := by
    rw [Superblock.bblock, Superblock.bblock, sameBlock, Nat.mul_div_cancel _ positive]
  refine ⟨by omega, bitmapBlock, sameBit.symm, ?_⟩
  have isClear := List.find?_some isFree
  rw [decide_eq_true_eq] at isClear
  rw [Superblock.used, sameBit, ← bitmapBlock]
  exact (and_mask_eq_zero_iff _ bi).mp isClear

def Superblock.Full (sb : Superblock) (blocks : Nat → Block) : Prop :=
  ∀ b, b < sb.size → sb.used blocks b = true

theorem findFree_eq_none (nothing : findFree sb blocks = none) :
    sb.Full blocks := by
  intro b inVolume
  have positive : 0 < BPB := by decide
  have division := Nat.div_add_mod' b BPB
  have rest := Nat.mod_lt b positive
  have inBitmap : b / BPB < (sb.size + BPB - 1) / BPB := by
    rw [Nat.lt_div_iff_mul_lt positive]
    omega
  have isStart : b / BPB * BPB ∈ (List.range ((sb.size + BPB - 1) / BPB)).map (· * BPB) :=
    List.mem_map.mpr ⟨b / BPB, List.mem_range.mpr inBitmap, rfl⟩
  have noBit := List.findSome?_eq_none_iff.mp nothing _ isStart
  rw [Option.map_eq_none_iff, List.find?_eq_none] at noBit
  have isSet := noBit (b % BPB) (List.mem_range.mpr (by omega))
  have sameBlock : sb.bblock (b / BPB * BPB) = sb.bblock b := by
    rw [Superblock.bblock, Superblock.bblock, Nat.mul_div_cancel _ positive]
  rw [decide_eq_true_eq, sameBlock, and_mask_eq_zero_iff] at isSet
  exact eq_true_of_ne_false isSet

def FileSystem.allocate (sb : Superblock) (fs : FileSystem) (b : Nat) : FileSystem where
  blocks := taken sb fs.blocks b
  itable := fs.itable
  logged := fs.logged ++ [sb.bblock b] ++ [b]
  allocations := fs.allocations ++ [⟨b, fs.blocks, fs.itable⟩]

/-- `balloc` fails if no block is free, or takes a free data block: the bits below the data
area are set. -/
theorem balloc_spec (fs : FileSystem)
    (reserved : ∀ b, b < sb.nmeta → sb.used fs.blocks b = true) :
    (sb.Full fs.blocks ∧ balloc sb fs = (0, fs)) ∨ ∃ b, sb.IsData b ∧ sb.used fs.blocks b = false ∧
      balloc sb fs = (BitVec.ofNat 32 b, fs.allocate sb b) := by
  unfold balloc
  split
  · rename_i b bi found
    obtain ⟨inVolume, sameBlock, sameBit, free⟩ := findFree_spec found
    have isData : sb.nmeta ≤ b + bi := by
      by_contra isMeta
      rw [reserved _ (by omega)] at free
      cases free
    refine .inr ⟨b + bi, ⟨isData, inVolume⟩, free, ?_⟩
    rw [FileSystem.allocate, taken, ← sameBlock, ← sameBit]
    rfl
  · rename_i nothing
    exact .inl ⟨findFree_eq_none nothing, rfl⟩

/-! ## Changing an inode -/

theorem Editing.inRange (editing : Editing sb fs ip) : (fs.itable ip).inum < sb.ninodes :=
  editing.coherent.inRange ip editing.live

theorem FileSystem.view_self (fs : FileSystem) (sb : Superblock) (ip : InodeId) :
    fs.view sb ip (fs.itable ip).inum = (fs.itable ip).toDinode :=
  update_self ..

theorem Ready.edit (ready : Ready sb fs) (live : 0 < (fs.itable ip).ref)
    (valid : (fs.itable ip).valid = true) : Editing sb fs ip := by
  obtain ⟨copy, allocated⟩ := ready.coherent.copies ip id live valid
  refine ⟨live, valid, allocated, ?_, ?_, ?_, ready.fresh⟩
  · rw [FileSystem.view, copy, update_eq_self]
    exact ready.sound
  · exact ready.coherent.edit (fun _ _ => rfl) rfl rfl (fun _ _ _ => rfl)
      (fun _ impossible => impossible.elim) live
  · intro slot
    rw [← copy]
    exact .inr rfl

theorem Editing.held_disk (editing : Editing sb fs ip) (slot : Slot) :
    held fs.blocks (sb.dinode fs.blocks (fs.itable ip).inum) slot = 0 ∨
      held fs.blocks (sb.dinode fs.blocks (fs.itable ip).inum) slot =
        held fs.blocks (fs.itable ip).toDinode slot := by
  cases slot with
  | addr address => exact editing.behind address
  | entry j =>
      rcases editing.behind indirect with noPointer | samePointer
      · left
        rw [held, if_pos noPointer]
      · right
        simp only [held, samePointer]

/-- A block that is free while an inode is changed is held by no inode, neither on
disk nor in the inode table. -/
theorem Editing.allocation_fresh (editing : Editing sb fs ip) (isData : sb.IsData b)
    (free : sb.used fs.blocks b = false) :
    Allocation.Fresh sb ⟨b, fs.blocks, fs.itable⟩ := by
  -- No slot of the view holds the block.
  have unheld : ∀ inum, inum < sb.ninodes → ∀ slot,
      (held fs.blocks (fs.view sb ip inum) slot).toNat ≠ b := by
    intro inum inRange slot same
    have number : held fs.blocks (fs.view sb ip inum) slot ≠ 0 := by
      intro isZero
      rw [isZero] at same
      exact IsData.pos isData same.symm
    have isUsed := (editing.sound.of_held inRange rfl slot number).2
    rw [same, free] at isUsed
    cases isUsed
  refine ⟨isData, free, ?_⟩
  intro inum inRange dinode isInode slot
  by_cases isEdited : inum = (fs.itable ip).inum
  · have copyUnheld := unheld inum inRange slot
    rw [isEdited, FileSystem.view_self] at copyUnheld
    rcases isInode with onDisk | ⟨jp, live, sameInum, _, isCopy⟩
    · rw [onDisk, isEdited]
      rcases editing.held_disk slot with nothing | same
      · show (held fs.blocks (sb.dinode fs.blocks (fs.itable ip).inum) slot).toNat ≠ b
        rw [nothing]
        exact fun isZero => IsData.pos isData isZero.symm
      · show (held fs.blocks (sb.dinode fs.blocks (fs.itable ip).inum) slot).toNat ≠ b
        rw [same]
        exact copyUnheld
    · have sameEntry := editing.coherent.single jp ip live editing.live (sameInum.trans isEdited)
      rw [← isCopy, sameEntry]
      exact copyUnheld
  · have diskUnheld := unheld inum inRange slot
    rw [FileSystem.view, update_of_ne isEdited] at diskUnheld
    rcases isInode with onDisk | ⟨jp, live, sameInum, isValid, isCopy⟩
    · rw [onDisk]
      exact diskUnheld
    · have otherEntry : jp ≠ ip := by
        rintro rfl
        exact isEdited sameInum.symm
      rw [← isCopy, (editing.coherent.copies jp otherEntry live isValid).1]
      show (held fs.blocks (sb.dinode fs.blocks (fs.itable jp).inum) slot).toNat ≠ b
      have sameInum' : (fs.itable jp).inum = inum := sameInum
      rw [sameInum']
      exact diskUnheld

/-! ## Growing an inode -/

theorem Grown.refl (fs : FileSystem) (ip : InodeId) : Grown sb fs fs ip :=
  ⟨fun _ _ => rfl, ⟨(fs.itable ip).addrs, rfl⟩, fun _ _ => rfl, fun _ _ => rfl⟩

theorem Grown.trans (first : Grown sb fs fs' ip) (second : Grown sb fs' fs'' ip) :
    Grown sb fs fs'' ip := by
  obtain ⟨addrs, isFirst⟩ := first.same
  obtain ⟨addrs', isSecond⟩ := second.same
  constructor
  · intro jp different
    rw [second.others jp different, first.others jp different]
  · exact ⟨addrs', by rw [isSecond, isFirst]⟩
  · intro inum inRange
    rw [second.disk inum inRange, first.disk inum inRange]
  · intro slot number
    have kept := first.kept slot number
    rw [second.kept slot (by rwa [kept]), kept]

theorem Grown.inum_eq (grown : Grown sb fs fs' ip) :
    (fs'.itable ip).inum = (fs.itable ip).inum := by
  obtain ⟨addrs, isNext⟩ := grown.same
  rw [isNext]

/-- Growing keeps everything but the order of the volume, which depends on what
was written. -/
theorem Editing.grow (editing : Editing sb fs ip) (grown : Grown sb fs fs' ip)
    (sound : Sound sb fs'.blocks (fs'.view sb ip)) (fresh : ∀ a ∈ fs'.allocations, a.Fresh sb) :
    Editing sb fs' ip := by
  obtain ⟨addrs, isNext⟩ := grown.same
  constructor
  · rw [isNext]
    exact editing.live
  · rw [isNext]
    exact editing.valid
  · rw [isNext]
    exact editing.allocated
  · exact sound
  · exact editing.coherent.edit grown.others grown.inum_eq (by rw [isNext])
      (fun inum inRange _ => grown.disk inum inRange) (fun _ listed => listed) editing.live
  · intro slot
    rw [grown.inum_eq, grown.disk _ editing.inRange]
    rcases editing.behind slot with absent | present
    · exact .inl absent
    · by_cases vacant : (fs.itable ip).addrs slot = 0
      · exact .inl (present.trans vacant)
      · exact .inr (present.trans (grown.kept (.addr slot) vacant).symm)
  · exact fresh

theorem Editing.fresh_allocate (editing : Editing sb fs ip) (isData : sb.IsData b)
    (free : sb.used fs.blocks b = false) :
    ∀ a ∈ (fs.allocate sb b).allocations, a.Fresh sb := by
  intro a member
  rcases List.mem_append.mp member with before | new
  · exact editing.fresh a before
  · rw [List.mem_singleton.mp new]
    exact editing.allocation_fresh isData free

theorem Beside.trans (first : Beside sb fs fs' ip) (grown : Grown sb fs fs' ip)
    (second : Beside sb fs' fs'' ip) : Beside sb fs fs'' ip := by
  intro inum inRange other slot number
  have before := first inum inRange other
  have sameSlots : held fs'.blocks (sb.dinode fs'.blocks inum) slot =
      held fs.blocks (sb.dinode fs.blocks inum) slot := by
    rw [grown.disk inum inRange]
    exact held_congr slot fun pointer => before (.addr indirect) pointer
  have after := second inum inRange (by rwa [grown.inum_eq]) slot (by rwa [sameSlots])
  rw [sameSlots] at after
  rw [after, before slot number]

theorem Logs.refl (fs : FileSystem) (ip : InodeId) (bns : Fin MAXFILE → Prop) :
    Logs sb fs fs ip bns := ⟨[], (List.append_nil _).symm, nofun⟩

theorem Touched.mono {before after before' after' : Slot → BitVec 32} {c : Nat}
    (touched : Touched sb before after bns c) (vacant : ∀ slot, before slot = 0 → before' slot = 0)
    (kept : ∀ slot, after slot ≠ 0 → after' slot = after slot) (weaker : ∀ bn, bns bn → bns' bn) :
    Touched sb before' after' bns' c := by
  cases touched with
  | pointer number =>
      have same := kept _ number
      rw [← same] at number ⊢
      exact .pointer number
  | pointerBit number =>
      have same := kept _ number
      rw [← same] at number ⊢
      exact .pointerBit number
  | data listed number =>
      have same := kept _ number
      rw [← same] at number ⊢
      exact .data (weaker _ listed) number
  | dataBit listed isVacant number =>
      have same := kept _ number
      rw [← same] at number ⊢
      exact .dataBit (weaker _ listed) (vacant _ isVacant) number

theorem Logs.mono (logs : Logs sb fs fs' ip bns) (weaker : ∀ bn, bns bn → bns' bn) :
    Logs sb fs fs' ip bns' := by
  obtain ⟨logged, isLog, touched⟩ := logs
  exact ⟨logged, isLog, fun c member =>
    (touched c member).mono (fun _ vacant => vacant) (fun _ _ => rfl) weaker⟩

theorem Logs.trans (first : Logs sb fs fs' ip bns) (grown : Grown sb fs fs' ip)
    (grown' : Grown sb fs' fs'' ip) (second : Logs sb fs' fs'' ip bns) :
    Logs sb fs fs'' ip bns := by
  obtain ⟨logged, isLog, touched⟩ := first
  obtain ⟨logged', isLog', touched'⟩ := second
  refine ⟨logged ++ logged', by rw [isLog', isLog, List.append_assoc], fun c member => ?_⟩
  rcases List.mem_append.mp member with before | after
  · exact (touched c before).mono (fun _ vacant => vacant) grown'.kept fun _ listed => listed
  · refine (touched' c after).mono (fun slot vacant => ?_) (fun _ _ => rfl) fun _ listed => listed
    by_contra isHeld
    exact isHeld ((grown.kept slot isHeld).symm.trans vacant)

theorem Extended.refl (fs : FileSystem) (ip : InodeId) (bns : Fin MAXFILE → Prop) :
    Extended sb fs fs ip bns :=
  ⟨.refl fs ip, fun _ _ _ _ _ => rfl, fun _ _ => rfl, .refl fs ip bns⟩

theorem Extended.trans (first : Extended sb fs fs' ip bns) (second : Extended sb fs' fs'' ip bns) :
    Extended sb fs fs'' ip bns := by
  refine ⟨first.toGrown.trans second.toGrown, first.beside.trans first.toGrown second.beside, ?_,
    first.logs.trans first.toGrown second.toGrown second.logs⟩
  intro bn number
  have kept : fs'.slots ip (contentSlot bn) = fs.slots ip (contentSlot bn) := first.kept _ number
  have after := second.contents bn (by rwa [kept])
  rw [kept] at after
  rw [after, first.contents bn number]

theorem Editing.taken_held (editing : Editing sb fs ip) (isData : sb.IsData b)
    (free : sb.used fs.blocks b = false) (inRange : inum < sb.ninodes) (slot : Slot)
    (number : held fs.blocks (fs.view sb ip inum) slot ≠ 0) :
    taken sb fs.blocks b (held fs.blocks (fs.view sb ip inum) slot).toNat =
      fs.blocks (held fs.blocks (fs.view sb ip inum) slot).toNat := by
  obtain ⟨heldData, isUsed⟩ := editing.sound.of_held inRange rfl slot number
  apply taken_of_ne isData _ heldData.1
  intro same
  rw [same, free] at isUsed
  cases isUsed

theorem FileSystem.view_other (fs : FileSystem) (sb : Superblock)
    (other : inum ≠ (fs.itable ip).inum) : fs.view sb ip inum = sb.dinode fs.blocks inum :=
  update_of_ne other ..

theorem Editing.store_addr (editing : Editing sb fs ip) (isData : sb.IsData b)
    (free : sb.used fs.blocks b = false) {slot : Fin (NDIRECT + 1)}
    (vacant : (fs.itable ip).addrs slot = 0)
    (listed : slot = indirect ∨ ∃ bn, bns bn ∧ contentSlot bn = .addr slot) :
    let after := (fs.allocate sb b).setAddr ip slot (BitVec.ofNat 32 b)
    Editing sb after ip ∧ Extended sb fs after ip bns ∧
      (after.itable ip).addrs slot = BitVec.ofNat 32 b := by
  intro after
  have isNext : after.itable ip = { fs.itable ip with
      toDinode := (fs.itable ip).toDinode.setAddr slot (BitVec.ofNat 32 b) } :=
    update_self ..
  obtain ⟨slots, sound⟩ := editing.sound.store_addr isData free editing.inRange
    (fs.view_self sb ip) vacant editing.allocated
  have grown : Grown sb fs after ip := by
    constructor
    · intro jp different
      exact update_of_ne different ..
    · exact ⟨_, isNext⟩
    · intro inum inRange
      exact dinode_taken isData inRange
    · intro place number
      rw [isNext]
      apply slots place
      rintro rfl
      exact number vacant
  have stored : (after.itable ip).addrs slot = BitVec.ofNat 32 b := by
    rw [isNext]
    exact Dinode.addrs_setAddr_self ..
  have extended : Extended sb fs after ip bns := by
    refine ⟨grown, ?_, ?_, [sb.bblock b, b], List.append_assoc .., ?_⟩
    · intro inum inRange other place number
      rw [← fs.view_other sb other] at number ⊢
      exact editing.taken_held isData free inRange place number
    · intro bn number
      have same := editing.taken_held isData free editing.inRange (contentSlot bn)
      rw [fs.view_self sb ip] at same
      exact same number
    · -- The block and its bit belong to the slot that has been filled.
      have isHeld : (after.slots ip (.addr slot)).toNat = b := by
        show ((after.itable ip).addrs slot).toNat = b
        rw [stored, IsData.toNat_ofNat isData]
      have number : after.slots ip (.addr slot) ≠ 0 := by
        intro isZero
        rw [isZero] at isHeld
        exact IsData.pos isData isHeld.symm
      have both : Touched sb (fs.slots ip) (after.slots ip) bns b ∧
          Touched sb (fs.slots ip) (after.slots ip) bns (sb.bblock b) := by
        rw [← isHeld]
        rcases listed with rfl | ⟨bn, isListed, isSlot⟩
        · exact ⟨.pointer number, .pointerBit number⟩
        · rw [← isSlot] at number ⊢
          refine ⟨.data isListed number, .dataBit isListed ?_ number⟩
          rw [isSlot]
          exact vacant
      intro c member
      rcases List.mem_cons.mp member with rfl | last
      · exact both.2
      · rw [List.mem_singleton.mp last]
        exact both.1
  refine ⟨editing.grow grown (sound.congr ?_) (editing.fresh_allocate isData free), extended,
    stored⟩
  intro inum inRange
  rw [FileSystem.view, grown.inum_eq, isNext]
  by_cases isEdited : inum = (fs.itable ip).inum
  · rw [isEdited, update_self, update_self]
  · rw [update_of_ne isEdited, update_of_ne isEdited, FileSystem.view,
      update_of_ne isEdited]
    exact dinode_taken isData inRange

theorem view_congr (others : ∀ inum, inum < sb.ninodes →
      sb.dinode fs'.blocks inum = sb.dinode fs.blocks inum)
    (same : fs'.itable ip = fs.itable ip) (inum : Nat) (inRange : inum < sb.ninodes) :
    fs'.view sb ip inum = fs.view sb ip inum := by
  rw [FileSystem.view, FileSystem.view, same]
  by_cases isEdited : inum = (fs.itable ip).inum
  · rw [isEdited, update_self, update_self]
  · rw [update_of_ne isEdited, update_of_ne isEdited, others inum inRange]

theorem Editing.store_entry (editing : Editing sb fs ip) (isData : sb.IsData b)
    (free : sb.used fs.blocks b = false) {j : Fin NINDIRECT}
    (hasPointer : (fs.itable ip).addrs indirect ≠ 0)
    (vacant : entry (fs.blocks ((fs.itable ip).addrs indirect).toNat) j = 0)
    (listed : ∃ bn, bns bn ∧ contentSlot bn = .entry j) :
    let pointer := ((fs.itable ip).addrs indirect).toNat
    let after := (fs.allocate sb b).logWrite pointer
      (setEntry ((fs.allocate sb b).blocks pointer) j (BitVec.ofNat 32 b))
    Editing sb after ip ∧ Extended sb fs after ip bns ∧
      held after.blocks (after.itable ip).toDinode (.entry j) = BitVec.ofNat 32 b := by
  intro pointer after
  have vacantSlot : held fs.blocks (fs.itable ip).toDinode (.entry j) = 0 := by
    rw [held, if_neg hasPointer]
    exact vacant
  obtain ⟨stored, slots, sound⟩ := editing.sound.store_entry isData free editing.inRange
    (fs.view_self sb ip) hasPointer vacantSlot editing.allocated
  have pointerData : sb.nmeta ≤ pointer :=
    (editing.sound.pointer editing.inRange (fs.view_self sb ip) hasPointer).1.1
  have disk : ∀ inum, inum < sb.ninodes →
      sb.dinode after.blocks inum = sb.dinode fs.blocks inum := by
    intro inum inRange
    have above := sb.bmapstart_lt_nmeta
    exact (sb.dinode_update_above inRange (by omega)).trans (dinode_taken isData inRange)
  have grown : Grown sb fs after ip := by
    refine ⟨fun _ _ => rfl, ⟨(fs.itable ip).addrs, rfl⟩, disk, ?_⟩
    intro place number
    apply slots place
    rintro rfl
    exact number vacantSlot
  -- Another slot leads neither to the new block nor to the indirect block.
  have frame : ∀ inum, inum < sb.ninodes → ∀ place,
      (inum, place) ≠ ((fs.itable ip).inum, .addr indirect) →
      held fs.blocks (fs.view sb ip inum) place ≠ 0 →
      after.blocks (held fs.blocks (fs.view sb ip inum) place).toNat =
        fs.blocks (held fs.blocks (fs.view sb ip inum) place).toNat := by
    intro inum inRange place different number
    have notPointer := editing.sound.held_ne place (.addr indirect) inRange
      editing.inRange different
      number (by rw [fs.view_self sb ip]; exact hasPointer)
    rw [fs.view_self sb ip] at notPointer
    exact (update_of_ne notPointer ..).trans
      (editing.taken_held isData free inRange place number)
  have extended : Extended sb fs after ip bns := by
    refine ⟨grown, ?_, ?_, [sb.bblock b, b, pointer], ?_, ?_⟩
    · intro inum inRange other place number
      rw [← fs.view_other sb other] at number ⊢
      exact frame inum inRange place (fun same => other (congrArg Prod.fst same)) number
    · intro bn number
      have same := frame _ editing.inRange (contentSlot bn)
        (fun same => contentSlot_ne_indirect bn (congrArg Prod.snd same))
      rw [fs.view_self sb ip] at same
      exact same number
    · show fs.logged ++ [sb.bblock b] ++ [b] ++ [pointer] = _
      simp only [List.append_assoc, List.cons_append, List.nil_append]
    · have isHeld : (after.slots ip (.entry j)).toNat = b := by
        have isStored : after.slots ip (.entry j) = BitVec.ofNat 32 b := stored
        rw [isStored, IsData.toNat_ofNat isData]
      have number : after.slots ip (.entry j) ≠ 0 := by
        intro isZero
        rw [isZero] at isHeld
        exact IsData.pos isData isHeld.symm
      obtain ⟨bn, isListed, isSlot⟩ := listed
      rw [← isSlot] at isHeld number
      have wasVacant : fs.slots ip (contentSlot bn) = 0 := by
        rw [isSlot]
        exact vacantSlot
      have bit : Touched sb _ _ bns _ := .dataBit isListed wasVacant number
      have data : Touched sb (fs.slots ip) _ bns _ := .data isListed number
      rw [isHeld] at bit data
      have isPointer : Touched sb (fs.slots ip) (after.slots ip) bns pointer := .pointer hasPointer
      intro c member
      simp only [List.mem_cons, List.not_mem_nil, or_false] at member
      rcases member with rfl | rfl | rfl
      · exact bit
      · exact data
      · exact isPointer
  refine ⟨editing.grow grown (sound.congr ?_) (editing.fresh_allocate isData free),
    extended, stored⟩
  exact view_congr disk rfl

/-! ## bmap -/

theorem bmapSlot_spec (editing : Editing sb fs ip) (slot : Fin (NDIRECT + 1))
    (bns : Fin MAXFILE → Prop)
    (listed : slot = indirect ∨ ∃ bn, bns bn ∧ contentSlot bn = .addr slot) :
    ∃ addr fs', bmapSlot sb fs ip slot = (addr, fs') ∧ Editing sb fs' ip ∧
      Extended sb fs fs' ip bns ∧ (addr ≠ 0 → (fs'.itable ip).addrs slot = addr) ∧
      (addr = 0 → (fs.itable ip).addrs slot = 0 ∧ sb.Full fs'.blocks) := by
  unfold bmapSlot
  by_cases vacant : (fs.itable ip).addrs slot = 0
  · simp only [vacant, if_true]
    rcases balloc_spec fs editing.sound.reserved with ⟨full, failed⟩ | ⟨b, isData, free, found⟩
    · rw [failed]
      exact ⟨0, fs, rfl, editing, .refl fs ip bns, fun number => absurd rfl number,
        fun _ => ⟨trivial, full⟩⟩
    · rw [found]
      simp only [if_neg (IsData.ofNat_ne_zero isData)]
      obtain ⟨edited, extended, stored⟩ := editing.store_addr isData free vacant listed
      exact ⟨_, _, rfl, edited, extended, fun _ => stored,
        fun isZero => absurd isZero (IsData.ofNat_ne_zero isData)⟩
  · simp only [vacant, if_false]
    exact ⟨_, fs, rfl, editing, .refl fs ip bns, fun _ => rfl, fun isZero => absurd isZero vacant⟩

theorem bmapEntry_spec (editing : Editing sb fs ip) (j : Fin NINDIRECT)
    (hasPointer : (fs.itable ip).addrs indirect ≠ 0) (bns : Fin MAXFILE → Prop)
    (listed : ∃ bn, bns bn ∧ contentSlot bn = .entry j) :
    ∃ addr fs', bmapEntry sb fs ((fs.itable ip).addrs indirect).toNat j = (addr, fs') ∧
      Editing sb fs' ip ∧ Extended sb fs fs' ip bns ∧
      (addr ≠ 0 → held fs'.blocks (fs'.itable ip).toDinode (.entry j) = addr) ∧
      (addr = 0 → fs.slots ip (.entry j) = 0 ∧ sb.Full fs'.blocks) := by
  have isEntry : fs.slots ip (.entry j) = entry
      (fs.blocks ((fs.itable ip).addrs indirect).toNat) j :=
    if_neg hasPointer
  unfold bmapEntry
  by_cases vacant : entry (fs.blocks ((fs.itable ip).addrs indirect).toNat) j = 0
  · simp only [vacant, if_true]
    rcases balloc_spec fs editing.sound.reserved with ⟨full, failed⟩ | ⟨b, isData, free, found⟩
    · rw [failed]
      exact ⟨0, fs, rfl, editing, .refl fs ip bns, fun number => absurd rfl number,
        fun _ => ⟨isEntry.trans vacant, full⟩⟩
    · rw [found]
      simp only [if_neg (IsData.ofNat_ne_zero isData)]
      obtain ⟨edited, extended, stored⟩ := editing.store_entry isData free hasPointer vacant listed
      exact ⟨_, _, rfl, edited, extended, fun _ => stored,
        fun isZero => absurd isZero (IsData.ofNat_ne_zero isData)⟩
  · simp only [vacant, if_false]
    exact ⟨_, fs, rfl, editing, .refl fs ip bns, fun _ => isEntry, fun isZero =>
      absurd isZero vacant⟩

/-- `bmap` returns a block number that the inode holds in the slot for `bn`, or 0 if there is
none and no block is free. -/
theorem bmap_spec (editing : Editing sb fs ip) (bn : Fin MAXFILE) :
    ∃ addr fs', bmap sb fs ip bn = .ok (addr, fs') ∧ Editing sb fs' ip ∧
      Extended sb fs fs' ip (· = bn) ∧
      (addr ≠ 0 → held fs'.blocks (fs'.itable ip).toDinode (contentSlot bn) = addr) ∧
      (addr = 0 → fs.slots ip (contentSlot bn) = 0 ∧ sb.Full fs'.blocks) := by
  unfold bmap
  by_cases direct : bn.val < NDIRECT
  · have isSlot : contentSlot bn = .addr ⟨bn, Nat.lt_succ_of_lt direct⟩ := dif_pos direct
    rw [isSlot]
    simp only [direct, dite_true]
    obtain ⟨addr, fs', result, edited, extended, stored, failed⟩ :=
      bmapSlot_spec editing ⟨bn, Nat.lt_succ_of_lt direct⟩ (· = bn) (.inr ⟨bn, rfl, isSlot⟩)
    exact ⟨addr, fs', by rw [result], edited, extended, stored, failed⟩
  · have inIndirect : bn - NDIRECT < NINDIRECT := by
      have inFile := bn.isLt
      unfold MAXFILE at inFile
      omega
    have isSlot : contentSlot bn = .entry ⟨bn - NDIRECT, inIndirect⟩ := dif_neg direct
    rw [isSlot]
    simp only [direct, dite_false, inIndirect, if_true]
    obtain ⟨pointer, fs₁, result, editing₁, extended₁, loaded, noBlock⟩ :=
      bmapSlot_spec editing indirect (· = bn) (.inl rfl)
    simp only [result]
    by_cases noPointer : pointer = 0
    · simp only [noPointer, if_true]
      obtain ⟨vacant, full⟩ := noBlock noPointer
      exact ⟨0, fs₁, rfl, editing₁, extended₁, fun number => absurd rfl number,
        fun _ => ⟨if_pos vacant, full⟩⟩
    · simp only [noPointer, if_false]
      have isPointer := loaded noPointer
      have hasPointer : (fs₁.itable ip).addrs indirect ≠ 0 := by rwa [isPointer]
      obtain ⟨addr, fs₂, result₂, editing₂, extended₂, stored, failed⟩ :=
        bmapEntry_spec editing₁ ⟨bn - NDIRECT, inIndirect⟩ hasPointer (· = bn) ⟨bn, rfl, isSlot⟩
      rw [isPointer] at result₂
      refine ⟨addr, fs₂, by rw [← result₂], editing₂, extended₁.trans extended₂, stored,
        fun isZero => ?_⟩
      obtain ⟨vacant, full⟩ := failed isZero
      refine ⟨?_, full⟩
      by_contra number
      exact number ((extended₁.kept _ number).symm.trans vacant)

theorem bmap_mapped (sb : Superblock) (bn : Fin MAXFILE)
    (number : held fs.blocks (fs.itable ip).toDinode (contentSlot bn) ≠ 0) :
    bmap sb fs ip bn =
      .ok (held fs.blocks (fs.itable ip).toDinode (contentSlot bn), fs) := by
  unfold bmap
  unfold contentSlot at number ⊢
  by_cases direct : bn.val < NDIRECT
  · simp only [direct, dite_true, held] at number ⊢
    simp only [bmapSlot, if_neg number]
  · have inIndirect : bn - NDIRECT < NINDIRECT := by
      have inFile := bn.isLt
      unfold MAXFILE at inFile
      omega
    simp only [direct, dite_false, inIndirect, if_true, held] at number ⊢
    by_cases noPointer : (fs.itable ip).addrs indirect = 0
    · rw [if_pos noPointer] at number
      exact absurd rfl number
    · rw [if_neg noPointer] at number
      simp only [bmapSlot, if_neg noPointer, bmapEntry, if_neg number]

/-! ## readi and iupdate -/

theorem block_lt_of_offset (below : off < MAXFILE * BSIZE) : off / BSIZE < MAXFILE :=
  Nat.div_lt_of_lt_mul (by rwa [Nat.mul_comm])

/-- The loop of `readi` below the size of the file allocates nothing. -/
theorem readLoop_spec (mapped : MappedTo fs.blocks (fs.itable ip).toDinode
      (fs.itable ip).size.toNat) (user : Bool) {n rounds tot : Nat} (space : Space) (dst : Nat)
    (inside : off + (n - tot) ≤ (fs.itable ip).size.toNat) :
    ∃ r space', readLoop sb ip user n rounds fs space dst off tot = .ok (r, space', fs) := by
  induction rounds generalizing space dst off tot with
  | zero => exact ⟨_, _, rfl⟩
  | succ rounds ih =>
      unfold readLoop
      by_cases more : tot < n
      · have below : off / BSIZE * BSIZE < (fs.itable ip).size.toNat := by
          have floor := Nat.div_mul_le_self off BSIZE
          omega
        obtain ⟨inFile, number⟩ := mapped (off / BSIZE) below
        have there := bmap_mapped sb ⟨off / BSIZE, inFile⟩ number
        simp only [more, if_true, there, if_neg number]
        split
        · apply ih
          omega
        · exact ⟨_, _, rfl⟩
      · rw [if_neg more]
        exact ⟨_, _, rfl⟩

theorem readi_spec (sb : Superblock) (mapped : MappedTo fs.blocks (fs.itable ip).toDinode
      (fs.itable ip).size.toNat) (user : Bool) (space : Space) (dst : Nat) (off n : BitVec 32) :
    ∃ r space', readi sb fs ip user space dst off n = .ok (r, space', fs) := by
  unfold readi
  dsimp only
  by_cases outside : off > (fs.itable ip).size ∨ off + n < off
  · rw [if_pos outside]
    exact ⟨_, _, rfl⟩
  · rw [if_neg outside]
    apply readLoop_spec mapped
    rw [not_or] at outside
    obtain ⟨startsInside, noWrap⟩ := outside
    split <;> bv_omega

theorem Editing.write_content (editing : Editing sb fs ip) {bn : Fin MAXFILE} {addr : BitVec 32}
    {data : Block} (isHeld : held fs.blocks (fs.itable ip).toDinode (contentSlot bn) = addr)
    (number : addr ≠ 0) (blocks : fs'.blocks = update fs.blocks addr.toNat data)
    (sameTable : fs'.itable = fs.itable) (sameAllocations : fs'.allocations = fs.allocations) :
    Editing sb fs' ip ∧ Grown sb fs fs' ip ∧ Beside sb fs fs' ip ∧
      ∀ bn', bn' ≠ bn → fs.slots ip (contentSlot bn') ≠ 0 →
        fs'.blocks (fs.slots ip (contentSlot bn')).toNat =
          fs.blocks (fs.slots ip (contentSlot bn')).toNat := by
  obtain ⟨isData, slots, sound⟩ := editing.sound.write_content editing.inRange
    (fs.view_self sb ip) isHeld number data
  rw [← blocks] at slots sound
  have disk : ∀ inum, inum < sb.ninodes →
      sb.dinode fs'.blocks inum = sb.dinode fs.blocks inum := by
    intro inum inRange
    have above := sb.bmapstart_lt_nmeta
    rw [blocks]
    exact sb.dinode_update_above inRange (by omega)
  have grown : Grown sb fs fs' ip := by
    refine ⟨fun jp _ => by rw [sameTable], ⟨(fs.itable ip).addrs, by rw [sameTable]⟩, disk, ?_⟩
    intro slot _
    have same := slots _ editing.inRange slot
    rw [fs.view_self sb ip] at same
    rw [sameTable, same]
  have frame : ∀ inum, inum < sb.ninodes → ∀ place,
      (inum, place) ≠ ((fs.itable ip).inum, contentSlot bn) →
      held fs.blocks (fs.view sb ip inum) place ≠ 0 →
      fs'.blocks (held fs.blocks (fs.view sb ip inum) place).toNat =
        fs.blocks (held fs.blocks (fs.view sb ip inum) place).toNat := by
    intro inum inRange place different otherNumber
    have notWritten := editing.sound.held_ne place (contentSlot bn) inRange
      editing.inRange different
      otherNumber (by rw [fs.view_self sb ip, isHeld]; exact number)
    rw [fs.view_self sb ip, isHeld] at notWritten
    rw [blocks, update_of_ne notWritten]
  refine ⟨editing.grow grown (sound.congr (view_congr disk (by rw [sameTable]))) ?_, grown, ?_, ?_⟩
  · rw [sameAllocations]
    exact editing.fresh
  · intro inum inRange other place otherNumber
    rw [← fs.view_other sb other] at otherNumber ⊢
    exact frame inum inRange place (fun same => other (congrArg Prod.fst same)) otherNumber
  · intro bn' different otherNumber
    have same := frame _ editing.inRange (contentSlot bn')
      (fun same => different (contentSlot_inj (congrArg Prod.snd same)))
    rw [fs.view_self sb ip] at same
    exact same otherNumber

/-! ## iupdate -/

theorem Editing.setInode (editing : Editing sb fs ip) (inode : Inode)
    (sameInum : inode.inum = (fs.itable ip).inum) (sameRef : inode.ref = (fs.itable ip).ref)
    (isValid : inode.valid = true) (allocated : inode.type ≠ 0)
    (sameAddrs : inode.addrs = (fs.itable ip).addrs)
    (mapped : MappedTo fs.blocks inode.toDinode inode.size.toNat) :
    Editing sb (fs.setInode ip inode) ip := by
  have isNext : (fs.setInode ip inode).itable ip = inode := update_self ..
  have others : ∀ jp, jp ≠ ip → (fs.setInode ip inode).itable jp = fs.itable jp :=
    fun jp different => update_of_ne different ..
  have replaced := editing.sound.replace (fs.view_self sb ip) inode.toDinode sameAddrs
    (fun isFree => absurd isFree allocated) mapped
  constructor
  · rw [isNext, sameRef]
    exact editing.live
  · rw [isNext, isValid]
  · rw [isNext]
    exact allocated
  · apply replaced.congr
    intro inum _
    rw [FileSystem.view, isNext, sameInum]
    by_cases isEdited : inum = (fs.itable ip).inum
    · rw [isEdited, update_self, update_self]
    · rw [update_of_ne isEdited, update_of_ne isEdited, FileSystem.view,
        update_of_ne isEdited]
      rfl
  · exact editing.coherent.edit others (by rw [isNext, sameInum]) (by rw [isNext, sameRef])
      (fun _ _ _ => rfl) (fun _ listed => listed) editing.live
  · intro slot
    rw [isNext, sameInum, sameAddrs]
    exact editing.behind slot
  · exact editing.fresh

theorem writeInode_spec {dinode : Dinode} (inRange : inum < sb.ninodes)
    (sound : Sound sb fs.blocks (update (sb.dinode fs.blocks) inum dinode)) :
    sb.dinode (fs.writeInode sb inum dinode).blocks =
        update (sb.dinode fs.blocks) inum dinode ∧
      Sound sb (fs.writeInode sb inum dinode).blocks
        (sb.dinode (fs.writeInode sb inum dinode).blocks) := by
  have disk : sb.dinode (fs.writeInode sb inum dinode).blocks =
      update (sb.dinode fs.blocks) inum dinode := by
    funext other
    exact (sb.dinode_write fs.blocks inum other dinode).trans (update_apply ..).symm
  refine ⟨disk, ?_⟩
  rw [disk]
  exact sound.write_meta (sb.iblock_lt_nmeta inRange) fun b _ => sb.used_update_iblock inRange

theorem iupdate_spec (live : 0 < (fs.itable ip).ref) (sound : Sound sb fs.blocks (fs.view sb ip))
    (coherent : Coherent sb fs.blocks fs.itable (· = ip)) :
    sb.dinode (iupdate sb fs ip).blocks = fs.view sb ip ∧
      Sound sb (iupdate sb fs ip).blocks (sb.dinode (iupdate sb fs ip).blocks) ∧
      Coherent sb (iupdate sb fs ip).blocks (iupdate sb fs ip).itable (· = ip) := by
  obtain ⟨disk, written⟩ := writeInode_spec (coherent.inRange ip live) sound
  refine ⟨disk, written, ?_⟩
  apply coherent.edit (fun _ _ => rfl) rfl rfl _ (fun _ listed => listed) live
  intro inum _ different
  exact (congrFun disk inum).trans (update_of_ne different ..)

theorem Editing.iupdate (editing : Editing sb fs ip) : Ready sb (iupdate sb fs ip) := by
  obtain ⟨disk, sound, coherent⟩ := iupdate_spec editing.live editing.sound editing.coherent
  refine ⟨sound, coherent.settle fun _ _ => ⟨?_, editing.allocated⟩, editing.fresh⟩
  rw [disk]
  exact (fs.view_self sb ip).symm

theorem Ready.mapped (ready : Ready sb fs) (live : 0 < (fs.itable ip).ref)
    (valid : (fs.itable ip).valid = true) :
    MappedTo fs.blocks (fs.itable ip).toDinode (fs.itable ip).size.toNat := by
  have editing := ready.edit live valid
  have mapped := editing.sound.mapped _ editing.inRange
  rw [fs.view_self sb ip] at mapped
  exact mapped

end Xv6.Fs
