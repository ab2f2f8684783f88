import Xv6.Fs.Truncation
import Xv6.Fs.Writing

/-!
Contract: every block has the owner the bitmap says it has, over whole runs.

Owns: the specifications of the calls on the inode table, that every call keeps the
file system in order, and the ownership of blocks in every state of every run from
a well-formed image.
-/

namespace Xv6.Fs

open Xv6.Kernel
open Xv6.Format
open Function

variable {sb : Superblock} {fs fs' : FileSystem} {ip : InodeId} {blocks : Nat → Block} {inum : Nat}

/-- A call that returns leaves the file system in order; the only panics are those
of a full inode table and of an inode that is not allocated. -/
def Completes (sb : Superblock) (result : Except Panic FileSystem) : Prop :=
  (∃ fs', result = .ok fs' ∧ Ready sb fs') ∨ result = .error .noInodes ∨
    result = .error .noType

theorem Completes.ok (ready : Ready sb fs') : Completes sb (.ok fs') := .inl ⟨fs', rfl, ready⟩

/-! ## The inode table -/

/-- An entry is assigned; if it is in use it has a number of its own and agrees with
the disk. -/
theorem Coherent.assign {itable : InodeId → Inode} {but : InodeId → Prop}
    (coherent : Coherent sb blocks itable but) (weaker : ∀ jp, but jp → jp = ip) {inode : Inode}
    (inRange : 0 < inode.ref → inode.inum < sb.ninodes)
    (alone : 0 < inode.ref → ∀ jp, jp ≠ ip → 0 < (itable jp).ref → (itable jp).inum ≠ inode.inum)
    (agrees : 0 < inode.ref → inode.valid = true →
      inode.toDinode = sb.dinode blocks inode.inum ∧ inode.type ≠ 0) :
    Coherent sb blocks (update itable ip inode) fun _ => False := by
  have own : update itable ip inode ip = inode := update_self ..
  have others : ∀ jp, jp ≠ ip → update itable ip inode jp = itable jp :=
    fun jp different => update_of_ne different ..
  constructor
  · intro jp referenced
    by_cases isAssigned : jp = ip
    · rw [isAssigned, own] at referenced ⊢
      exact inRange referenced
    · rw [others jp isAssigned] at referenced ⊢
      exact coherent.inRange jp referenced
  · intro jp kp jReferenced kReferenced sameInum
    by_cases jAssigned : jp = ip
    · by_cases kAssigned : kp = ip
      · rw [jAssigned, kAssigned]
      · rw [jAssigned, own] at jReferenced sameInum
        rw [others kp kAssigned] at kReferenced sameInum
        exact absurd sameInum.symm (alone jReferenced kp kAssigned kReferenced)
    · rw [others jp jAssigned] at jReferenced sameInum
      by_cases kAssigned : kp = ip
      · rw [kAssigned, own] at kReferenced sameInum
        exact absurd sameInum (alone kReferenced jp jAssigned jReferenced)
      · rw [others kp kAssigned] at kReferenced sameInum
        exact coherent.single jp kp jReferenced kReferenced sameInum
  · intro jp _ referenced isValid
    by_cases isAssigned : jp = ip
    · rw [isAssigned, own] at referenced isValid ⊢
      exact agrees referenced isValid
    · rw [others jp isAssigned] at referenced isValid ⊢
      exact coherent.copies jp (fun listed => isAssigned (weaker jp listed)) referenced isValid

theorem Ready.setRef (ready : Ready sb fs) (live : 0 < (fs.itable ip).ref) (ref : Nat) :
    Ready sb (fs.setInode ip { fs.itable ip with ref }) := by
  refine ⟨ready.sound, ?_, ready.fresh⟩
  apply ready.coherent.assign (fun _ impossible => impossible.elim)
  · intro _
    exact ready.coherent.inRange ip live
  · intro _ jp different referenced sameInum
    exact different (ready.coherent.single jp ip referenced live sameInum)
  · intro _ isValid
    exact ready.coherent.copies ip id live isValid

theorem iget_spec (ready : Ready sb fs) (inRange : inum < sb.ninodes) :
    (∃ ip fs', iget fs inum = .ok (ip, fs') ∧ Ready sb fs') ∨
      iget fs inum = .error .noInodes := by
  unfold iget
  split
  · rename_i ip found
    have listed := List.find?_some found
    rw [decide_eq_true_eq] at listed
    exact .inl ⟨_, _, rfl, ready.setRef listed.1 _⟩
  · rename_i absent
    split
    · rename_i empty found
      refine .inl ⟨_, _, rfl, ready.sound, ?_, ready.fresh⟩
      apply ready.coherent.assign (fun _ impossible => impossible.elim)
      · exact fun _ => inRange
      · intro _ jp _ referenced sameInum
        have unlisted := List.find?_eq_none.mp absent jp (List.mem_finRange jp)
        simp [referenced, sameInum] at unlisted
      · intro _ isValid
        cases isValid
    · exact .inr rfl

theorem ilock_spec (ready : Ready sb fs) (live : 0 < (fs.itable ip).ref) :
    Completes sb (ilock sb fs ip) := by
  unfold ilock
  dsimp only
  rw [if_neg (by omega)]
  split
  · exact .ok ready
  · split
    · exact .inr (.inr rfl)
    · rename_i allocated
      refine .ok ⟨ready.sound, ?_, ready.fresh⟩
      apply ready.coherent.assign (fun _ impossible => impossible.elim)
      · intro _
        exact ready.coherent.inRange ip live
      · intro _ jp different referenced sameInum
        exact different (ready.coherent.single jp ip referenced live sameInum)
      · intro _ _
        exact ⟨rfl, allocated⟩

/-- A free inode on disk is marked as allocated; no valid entry of the inode table
is about it. -/
theorem Ready.mark (ready : Ready sb fs) (inRange : inum < sb.ninodes)
    (isFree : (sb.dinode fs.blocks inum).type = 0) (type : BitVec 16) :
    Ready sb (fs.writeInode sb inum { Dinode.zero with type }) := by
  have noNumbers : (fun _ => 0) = (sb.dinode fs.blocks inum).addrs :=
    funext fun slot => (ready.sound.empty inum inRange isFree slot).symm
  obtain ⟨disk, sound⟩ := writeInode_spec inRange
    (ready.sound.replace rfl { Dinode.zero with type } noNumbers (fun _ _ => rfl) .zero)
  refine ⟨sound, ⟨ready.coherent.inRange, ready.coherent.single, ?_⟩, ready.fresh⟩
  intro jp _ referenced isValid
  obtain ⟨copy, allocated⟩ := ready.coherent.copies jp id referenced isValid
  have different : (fs.itable jp).inum ≠ inum := by
    intro same
    rw [same] at copy
    exact allocated ((congrArg Dinode.type copy).trans isFree)
  refine ⟨?_, allocated⟩
  rw [disk]
  exact copy.trans (update_of_ne different ..).symm

theorem ialloc_spec (ready : Ready sb fs) (type : BitVec 16) :
    Completes sb ((ialloc sb fs type).map Prod.snd) := by
  unfold ialloc
  split
  · rename_i inum found
    have isFree := List.find?_some found
    rw [decide_eq_true_eq] at isFree
    have member := List.mem_range'.mp (List.mem_of_find?_eq_some found)
    have inRange : inum < sb.ninodes := by
      obtain ⟨i, inList, isInum⟩ := member
      omega
    dsimp only
    rcases iget_spec (ready.mark inRange isFree type) inRange with ⟨ip, fs', got, ready'⟩ | full
    · rw [got]
      exact .ok ready'
    · rw [full]
      exact .inr (.inl rfl)
  · exact .ok ready

/-- The inode is freed on disk after it was truncated, and its entry given up. -/
theorem Ready.discard (ready : Ready sb fs) (live : 0 < (fs.itable ip).ref)
    (valid : (fs.itable ip).valid = true) (noNumbers : ∀ slot, (fs.itable ip).addrs slot = 0)
    (noContent : (fs.itable ip).size = 0) (inode : Inode) (unreferenced : inode.ref = 0) :
    Ready sb ((iupdate sb (fs.setInode ip { fs.itable ip with type := 0 }) ip).setInode ip
      inode) := by
  have editing := ready.edit live valid
  have isNext : (fs.setInode ip { fs.itable ip with type := 0 }).itable ip =
      { fs.itable ip with type := 0 } := update_self ..
  have others : ∀ jp, jp ≠ ip →
      (fs.setInode ip { fs.itable ip with type := 0 }).itable jp = fs.itable jp :=
    fun jp different => update_of_ne different ..
  have isMapped : MappedTo fs.blocks { (fs.itable ip).toDinode with type := 0 }
      (fs.itable ip).size.toNat := by
    rw [noContent]
    exact .zero
  have freedInode := editing.sound.replace (fs.view_self sb ip)
    { (fs.itable ip).toDinode with type := 0 } rfl (fun _ => noNumbers) isMapped
  rw [FileSystem.view, update_idem] at freedInode
  have sound : Sound sb fs.blocks
      ((fs.setInode ip { fs.itable ip with type := 0 }).view sb ip) := by
    rw [FileSystem.view, isNext]
    exact freedInode
  have coherent := editing.coherent.edit others (by rw [isNext]) (by rw [isNext])
    (fun _ _ _ => rfl) (fun _ listed => listed) live
  obtain ⟨disk, sound', coherent'⟩ := iupdate_spec (by rw [isNext]; exact live) sound coherent
  refine ⟨sound', ?_, ready.fresh⟩
  apply coherent'.assign (fun _ listed => listed)
  · intro referenced
    omega
  · intro referenced
    omega
  · intro referenced
    omega

theorem FileSystem.setInode_setInode (fs : FileSystem) (first second : Inode) :
    (fs.setInode ip first).setInode ip second = fs.setInode ip second := by
  simp only [FileSystem.setInode, update_idem]

theorem iput_spec (ready : Ready sb fs) (live : 0 < (fs.itable ip).ref) :
    Completes sb (iput sb fs ip) := by
  unfold iput
  dsimp only
  split
  · rename_i last
    obtain ⟨fs₁, truncated, ready₁, isEmpty⟩ := itrunc_spec ready live last.2.1
    have live₁ : 0 < (fs₁.itable ip).ref := by
      rw [isEmpty]
      exact live
    have valid₁ : (fs₁.itable ip).valid = true := by
      rw [isEmpty]
      exact last.2.1
    rw [truncated]
    refine .ok ?_
    dsimp only
    rw [FileSystem.setInode_setInode]
    refine ready₁.discard live₁ valid₁ (fun slot => by rw [isEmpty]) (by rw [isEmpty]) _ ?_
    simp [FileSystem.setInode, iupdate, FileSystem.writeInode, FileSystem.logWrite, isEmpty, last.1]
  · exact .ok (ready.setRef live _)

theorem Ready.call (ready : Ready sb fs) {c : Call} (proper : Proper sb fs c) :
    Completes sb (call sb fs c) := by
  cases c with
  | iget inum =>
      rcases iget_spec ready proper with ⟨ip, fs', got, ready'⟩ | full
      · dsimp only [Fs.call]
        rw [got]
        exact .ok ready'
      · dsimp only [Fs.call]
        rw [full]
        exact .inr (.inl rfl)
  | idup ip => exact .ok (ready.setRef proper _)
  | ilock ip => exact ilock_spec ready proper
  | iput ip => exact iput_spec ready proper
  | ialloc type => exact ialloc_spec ready type
  | setLinks ip major minor nlink =>
      have editing := ready.edit proper.1 proper.2
      refine .ok (Editing.iupdate (editing.setInode _ rfl rfl proper.2 editing.allocated rfl ?_))
      exact (ready.mapped proper.1 proper.2).mono (Nat.le_refl _) fun slot number => by
        cases slot <;> exact number
  | itrunc ip =>
      obtain ⟨fs', truncated, ready', _⟩ := itrunc_spec ready proper.1 proper.2
      dsimp only [Fs.call]
      rw [truncated]
      exact .ok ready'
  | readi ip user space dst off n =>
      have mapped := ready.mapped proper.1 proper.2
      obtain ⟨r, space', read⟩ := readi_spec sb mapped user space dst off n
      dsimp only [Fs.call]
      rw [read]
      exact .ok ready
  | writei ip user space src off n =>
      obtain ⟨r, fs', wrote, ready'⟩ := writei_spec ready proper.1 proper.2 user space src off n
      dsimp only [Fs.call]
      rw [wrote]
      exact .ok ready'

/-! ## Runs -/

def WellFormed (sb : Superblock) (blocks : Nat → Block) : Prop :=
  Sound sb blocks (sb.dinode blocks)

theorem Ready.mount (wellFormed : WellFormed sb blocks) :
    Ready sb (mount blocks) := by
  refine ⟨wellFormed, ⟨?_, ?_, ?_⟩, fun a member => ?_⟩
  · intro ip referenced
    cases referenced
  · intro ip jp referenced
    cases referenced
  · intro ip _ referenced
    cases referenced
  · cases member

theorem Reachable.ready (wellFormed : WellFormed sb blocks) (reachable : Reachable sb blocks fs) :
    Ready sb fs := by
  induction reachable with
  | mount => exact .mount wellFormed
  | call _ proper returned ih =>
      rcases ih.call proper with ⟨fs', result, ready⟩ | full | unallocated
      · rw [returned] at result
        cases result
        exact ready
      · rw [returned] at full
        cases full
      · rw [returned] at unallocated
        cases unallocated

/-! ## An image -/

/-- The image without files: the bits of the first `nmeta` blocks are set, as
`balloc` of `mkfs` does it, and all other bytes are zero. -/
def emptyImage (sb : Superblock) : Nat → Block :=
  (List.range sb.nmeta).foldl (fun blocks b => update blocks (sb.bblock b)
    (setBit (blocks (sb.bblock b)) (b % BPB))) fun _ _ => 0

theorem used_foldl_setBit (bs : List Nat) (blocks : Nat → Block) (c : Nat) :
    sb.used (bs.foldl (fun blocks b => update blocks (sb.bblock b)
      (setBit (blocks (sb.bblock b)) (b % BPB))) blocks) c =
        (decide (c ∈ bs) || sb.used blocks c) := by
  induction bs generalizing blocks with
  | nil => simp
  | cons b bs ih =>
      rw [List.foldl_cons, ih, sb.used_setBit]
      by_cases isFirst : c = b
      · simp [isFirst]
      · simp [isFirst]

theorem dinode_foldl_setBit (bs : List Nat) (blocks : Nat → Block) (inRange : inum < sb.ninodes) :
    sb.dinode (bs.foldl (fun blocks b => update blocks (sb.bblock b)
      (setBit (blocks (sb.bblock b)) (b % BPB))) blocks) inum = sb.dinode blocks inum := by
  induction bs generalizing blocks with
  | nil => rfl
  | cons b bs ih =>
      rw [List.foldl_cons, ih]
      exact sb.dinode_update_above inRange (sb.bmapstart_le_bblock b)

theorem dinode_zeros (inum : Nat) : sb.dinode (fun _ _ => 0) inum = Dinode.zero := by
  have zero16 : ((0 : Byte) ++ (0 : Byte) : BitVec 16) = 0 := by decide
  have zero32 := entry_zero 0
  exact Dinode.ext zero16 zero16 zero16 zero16 zero32 (funext fun _ => zero32)

theorem emptyImage_wellFormed (sb : Superblock) : WellFormed sb (emptyImage sb) := by
  have isEmpty : ∀ inum, inum < sb.ninodes →
      sb.dinode (emptyImage sb) inum = Dinode.zero := by
    intro inum inRange
    rw [emptyImage, dinode_foldl_setBit _ _ inRange, dinode_zeros]
  have marks : ∀ b, sb.used (emptyImage sb) b = decide (b < sb.nmeta) := by
    intro b
    rw [emptyImage, used_foldl_setBit]
    simp [Superblock.used, bitAt]
  have nothing : ∀ inum, inum < sb.ninodes → ∀ slot,
      held (emptyImage sb) (sb.dinode (emptyImage sb) inum) slot = 0 := by
    intro inum inRange slot
    rw [isEmpty inum inRange]
    cases slot <;> rfl
  have unheld : ∀ place, holds sb (emptyImage sb) (sb.dinode (emptyImage sb)) place = none := by
    rintro ⟨inum, slot⟩
    by_cases inRange : inum < sb.ninodes
    · exact holds_of_zero (nothing inum inRange slot)
    · simp [holds, inRange]
  refine ⟨?_, ⟨?_, ?_, ?_, ?_⟩, ?_, ?_⟩
  · intro b isMeta
    rw [marks, decide_eq_true isMeta]
  · intro place b isHeld
    rw [unheld] at isHeld
    cases isHeld
  · intro place b isHeld
    rw [unheld] at isHeld
    cases isHeld
  · intro place place' b isHeld
    rw [unheld] at isHeld
    cases isHeld
  · intro b isData isUsed
    rw [marks, decide_eq_true_eq] at isUsed
    exact absurd isData.1 (by omega)
  · intro inum inRange _ slot
    exact nothing inum inRange (.addr slot)
  · intro inum inRange
    rw [isEmpty inum inRange]
    exact .zero

/-! ## Ownership -/

/-- **Block ownership.** In every state of every run from a well-formed image a
block number in an inode is that of a used data block, every used data block is
held by one slot of one inode, and the inodes in memory hold the same numbers; no
call frees a free block; and whenever `balloc` returned a block, no inode held it,
neither on disk nor in memory. -/
theorem block_ownership {blocks : Nat → Block} (wellFormed : WellFormed sb blocks)
    (reachable : Reachable sb blocks fs) :
    (∀ inum, inum < sb.ninodes → ∀ slot,
      held fs.blocks (sb.dinode fs.blocks inum) slot ≠ 0 →
        sb.IsData (held fs.blocks (sb.dinode fs.blocks inum) slot).toNat ∧
          sb.used fs.blocks (held fs.blocks (sb.dinode fs.blocks inum) slot).toNat = true) ∧
      (∀ b, sb.IsData b → sb.used fs.blocks b = true → ∃! place : Nat × Slot,
        place.1 < sb.ninodes ∧
          (held fs.blocks (sb.dinode fs.blocks place.1) place.2).toNat = b) ∧
      (∀ ip, 0 < (fs.itable ip).ref → (fs.itable ip).valid = true →
        (fs.itable ip).toDinode = sb.dinode fs.blocks (fs.itable ip).inum) ∧
      (∀ c, Proper sb fs c → call sb fs c ≠ .error .freeingFreeBlock) ∧
      ∀ a ∈ fs.allocations, a.Fresh sb := by
  have ready := reachable.ready wellFormed
  refine ⟨?_, ?_, ?_, ?_, ready.fresh⟩
  · intro inum inRange slot number
    exact ready.sound.of_held inRange rfl slot number
  · intro b isData isUsed
    obtain ⟨⟨inum, slot⟩, isHeld⟩ := ready.sound.owned.complete b isData isUsed
    obtain ⟨inRange, _, isNumber⟩ := holds_eq_some.mp isHeld
    refine ⟨(inum, slot), ⟨inRange, isNumber⟩, ?_⟩
    rintro ⟨other, place⟩ ⟨otherInRange, sameNumber⟩
    have number : held fs.blocks (sb.dinode fs.blocks other) place ≠ 0 := by
      intro isZero
      rw [isZero] at sameNumber
      exact IsData.pos isData sameNumber.symm
    exact ready.sound.owned.single _ _ _
      (holds_eq_some.mpr ⟨otherInRange, number, sameNumber⟩) isHeld
  · intro ip live valid
    exact (ready.coherent.copies ip id live valid).1
  · intro c proper
    rcases ready.call proper with ⟨fs', result, _⟩ | full | unallocated
    · rw [result]
      exact fun impossible => by cases impossible
    · rw [full]
      exact fun impossible => by cases impossible
    · rw [unallocated]
      exact fun impossible => by cases impossible

/-- A write from a user buffer that is not mapped: the block that was allocated for it
stays with the inode, and is used. -/
theorem block_ownership_badWrite : ∃ fs : FileSystem,
    Reachable mkfsSuperblock (emptyImage mkfsSuperblock) fs ∧
    (mkfsSuperblock.dinode fs.blocks 1).size = 0 ∧
    mkfsSuperblock.used fs.blocks 46 = true ∧
    ∃! place : Nat × Slot, place.1 < 200 ∧
      (held fs.blocks (mkfsSuperblock.dinode fs.blocks place.1) place.2).toNat = 46 := by
  obtain ⟨fs, reachable, noContent, isUsed⟩ := Reachable.exists_of_follow
    mkfsSuperblock (emptyImage mkfsSuperblock)
    [.ialloc 2, .ilock ⟨0, by decide⟩,
      .writei ⟨0, by decide⟩ true ⟨fun _ => false, fun _ => 0⟩ 0 0 1]
    (fun fs => (mkfsSuperblock.dinode fs.blocks 1).size = 0 ∧
      mkfsSuperblock.used fs.blocks 46 = true) (by decide +kernel)
  obtain ⟨_, owners, _⟩ := block_ownership (emptyImage_wellFormed mkfsSuperblock) reachable
  exact ⟨fs, reachable, noContent, isUsed, owners 46 ⟨by decide, by decide⟩ isUsed⟩

end Xv6.Fs
