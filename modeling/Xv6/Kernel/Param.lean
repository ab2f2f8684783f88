import Mathlib

/-!
Contract: compile-time constants of `kernel/param.h`, `kernel/fs.h`, `kernel/stat.h`,
`kernel/fcntl.h` and `kernel/pipe.c`, and the 32-bit integer arithmetic the kernel code is
compiled to.

Owns: the constants the modelled code reads, `int32` (two's complement wrap) and
`divw` (the target's signed division).
-/

namespace Xv6.Kernel

def NPROC : Nat := 64

instance : NeZero NPROC := ⟨by decide⟩

def NCPU : Nat := 8

/-- Maximum number of blocks any file-system operation writes. -/
def MAXOPBLOCKS : Nat := 10

/-- Maximum number of data blocks in the on-disk log. -/
def LOGSIZE : Nat := MAXOPBLOCKS * 3

def BSIZE : Nat := 1024

/-- Block numbers in an inode, the last of them that of the indirect block. -/
def NDIRECT : Nat := 12

def NINDIRECT : Nat := BSIZE / 4

def MAXFILE : Nat := NDIRECT + NINDIRECT

def BPB : Nat := BSIZE * 8

def NINODE : Nat := 50

def FSSIZE : Nat := 2000

def ROOTINO : Nat := 1

def DIRSIZ : Nat := 14

def T_DIR : BitVec 16 := 1

def T_FILE : BitVec 16 := 2

def PGSIZE : Nat := 4096

def NOFILE : Nat := 16

def NFILE : Nat := 100

def PIPESIZE : Nat := 512

instance : NeZero PIPESIZE := ⟨by decide⟩

/-- An index into `proc[NPROC]`; a `struct proc *` is an `Option ProcId`. -/
abbrev ProcId := Fin NPROC

abbrev CpuId := Fin NCPU

theorem zero_lt_NCPU : 0 < NCPU := by decide

theorem one_lt_NCPU : 1 < NCPU := by decide

theorem zero_lt_NINODE : 0 < NINODE := by decide

theorem one_lt_NINODE : 1 < NINODE := by decide

/-- The `int` a 32-bit register holds after an operation whose exact result is
`value`. -/
def int32 (value : Int) : Int := Int.bmod value (2 ^ 32)

/-- `divw`: truncating division. A zero divisor does not trap on the target, the
quotient is `-1`. -/
def divw (dividend divisor : Int) : Int :=
  if divisor = 0 then -1 else int32 (Int.tdiv dividend divisor)

theorem int32_of_range {value : Int} (low : -2 ^ 31 ≤ value) (high : value < 2 ^ 31) :
    int32 value = value := by
  have modulus : ((2 ^ 32 : Nat) : Int) = 4294967296 := rfl
  apply Int.bmod_eq_of_le_mul_two
  · rw [modulus]
    omega
  · rw [modulus]
    omega

theorem int32_lt (value : Int) : int32 value < 2 ^ 31 := by
  have bound := Int.bmod_lt (x := value) (m := 2 ^ 32) (by decide)
  unfold int32
  omega

theorem int32_emod (value : Int) : int32 value % 2 ^ 32 = value % 2 ^ 32 := by
  unfold int32
  exact Int.bmod_emod

end Xv6.Kernel
