import Xv6.Fs.Ownership

/-!
Contract: files have no holes, so that reading allocates nothing.

Owns: `fileread` of a file in the file system, and that in every run every block below the
size of an inode has a number, so that `readi` and `fileread` change no block and log
none.
-/

namespace Xv6.Fs

open Xv6.Kernel

variable {sb : Superblock} {fs : FileSystem} {ip : InodeId}

/-- The part of `fileread` for a file of type `FD_INODE`, with `f->off`. -/
def filereadInode (sb : Superblock) (fs : FileSystem) (ip : InodeId) (space : Space) (addr : Nat)
    (off : BitVec 32) (n : Int) : Except Panic (Int × BitVec 32 × Space × FileSystem) :=
  (ilock sb fs ip).bind fun fs =>
    (readi sb fs ip true space addr off (BitVec.ofInt 32 n)).map fun (r, space, fs) =>
      (r, if r > 0 then off + BitVec.ofInt 32 r else off, space, fs)

/-- Every block that has a byte below the size has a number. -/
def NoHoles (blocks : Nat → Block) (dinode : Dinode) : Prop :=
  ∀ bn, bn < (dinode.size.toNat + BSIZE - 1) / BSIZE → ∃ inFile : bn < MAXFILE,
    held blocks dinode (contentSlot ⟨bn, inFile⟩) ≠ 0

theorem MappedTo.noHoles {blocks : Nat → Block} {dinode : Dinode}
    (mapped : MappedTo blocks dinode dinode.size.toNat) : NoHoles blocks dinode := by
  intro bn below
  have starts : bn * BSIZE < dinode.size.toNat := by
    have scaled := (Nat.lt_div_iff_mul_lt (by decide)).mp below
    have isPositive : 0 < BSIZE := by decide
    omega
  exact mapped bn starts

/-- What `ilock` may change. -/
structure OnlyLoaded (fs fs' : FileSystem) : Prop where
  blocks : fs'.blocks = fs.blocks
  logged : fs'.logged = fs.logged
  allocations : fs'.allocations = fs.allocations

theorem ilock_loads {fs' : FileSystem} (locked : ilock sb fs ip = .ok fs') :
    OnlyLoaded fs fs' ∧ 0 < (fs'.itable ip).ref ∧ (fs'.itable ip).valid = true := by
  unfold ilock at locked
  dsimp only at locked
  split at locked
  · cases locked
  · split at locked
    · rename_i live isValid
      cases locked
      exact ⟨⟨rfl, rfl, rfl⟩, by omega, isValid⟩
    · split at locked
      · cases locked
      · rename_i live _ _
        cases locked
        have isSelf : ∀ inode, (fs.setInode ip inode).itable ip = inode := fun inode =>
          Function.update_self ..
        refine ⟨⟨rfl, rfl, rfl⟩, ?_, ?_⟩
        · rw [isSelf]
          exact Nat.le_of_not_lt live
        · rw [isSelf]

theorem ilock_ne_noInodes (sb : Superblock) (fs : FileSystem) (ip : InodeId) :
    ilock sb fs ip ≠ .error .noInodes := by
  unfold ilock
  dsimp only
  repeat' split
  all_goals nofun

theorem filereadInode_spec (ready : Ready sb fs) (live : 0 < (fs.itable ip).ref) (space : Space)
    (addr : Nat) (off : BitVec 32) (n : Int) :
    filereadInode sb fs ip space addr off n = .error .noType ∨
      ∃ r off' space' fs', filereadInode sb fs ip space addr off n = .ok (r, off', space', fs') ∧
        OnlyLoaded fs fs' := by
  unfold filereadInode
  rcases ilock_spec ready live with ⟨fs', locked, ready'⟩ | full | unallocated
  · obtain ⟨loaded, live', valid⟩ := ilock_loads locked
    obtain ⟨r, space', read⟩ := readi_spec sb (ready'.mapped live' valid) true space addr off
      (BitVec.ofInt 32 n)
    refine .inr ⟨r, if r > 0 then off + BitVec.ofInt 32 r else off, space', fs', ?_, loaded⟩
    rw [locked]
    exact congrArg (Except.map _) read
  · exact absurd full (ilock_ne_noInodes sb fs ip)
  · rw [unallocated]
    exact .inl rfl

/-- **No holes.** In every state of every run from a well-formed image, every block below
`ceil(size / BSIZE)` of every inode, on disk and in memory, has a number; so for every
offset and length `readi` returns the file system as it was (nothing allocated, nothing
logged, `addrs` the same), and `fileread` at most loads the inode. -/
theorem no_holes {blocks : Nat → Block} (wellFormed : WellFormed sb blocks)
    (reachable : Reachable sb blocks fs) :
    (∀ inum, inum < sb.ninodes → NoHoles fs.blocks (sb.dinode fs.blocks inum)) ∧
      ∀ ip, 0 < (fs.itable ip).ref →
        ((fs.itable ip).valid = true →
          NoHoles fs.blocks (fs.itable ip).toDinode ∧
          ∀ user space dst off n, ∃ r space',
            readi sb fs ip user space dst off n = .ok (r, space', fs)) ∧
        ∀ space addr off n, filereadInode sb fs ip space addr off n = .error .noType ∨
          ∃ r off' space' fs', filereadInode sb fs ip space addr off n =
            .ok (r, off', space', fs') ∧ OnlyLoaded fs fs' := by
  have ready := reachable.ready wellFormed
  refine ⟨fun inum inRange => (ready.sound.mapped inum inRange).noHoles, fun ip live => ⟨?_, ?_⟩⟩
  · intro valid
    have mapped := ready.mapped live valid
    exact ⟨mapped.noHoles, fun user space dst off n => readi_spec sb mapped user space dst off n⟩
  · exact fun space addr off n => filereadInode_spec ready live space addr off n

/-- A file of two blocks, of which the second has one byte. -/
theorem no_holes_twoBlocks : ∃ fs : FileSystem,
    Reachable mkfsSuperblock (emptyImage mkfsSuperblock) fs ∧
    (mkfsSuperblock.dinode fs.blocks 1).size = 1025 ∧
    NoHoles fs.blocks (mkfsSuperblock.dinode fs.blocks 1) := by
  obtain ⟨fs, reachable, isSize⟩ := Reachable.exists_of_follow
    mkfsSuperblock (emptyImage mkfsSuperblock)
    [.ialloc 2, .ilock ⟨0, by decide⟩,
      .writei ⟨0, by decide⟩ true ⟨fun _ => true, fun _ => 7⟩ 0 0 1025]
    (fun fs => (mkfsSuperblock.dinode fs.blocks 1).size = 1025) (by decide +kernel)
  obtain ⟨noHoles, _⟩ := no_holes (emptyImage_wellFormed mkfsSuperblock) reachable
  exact ⟨fs, reachable, isSize, noHoles 1 (by decide)⟩

end Xv6.Fs
