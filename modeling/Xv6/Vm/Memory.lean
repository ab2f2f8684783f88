import Xv6.Kernel.Copy
import Xv6.Pools.Transfer
import Xv6.Radix.Table

/-!
Contract: physical memory of `kernel/kalloc.c` and the page-table entries of
`kernel/riscv.h`.

Owns: pages and the free list with `kalloc` and `kfree`, the layout constants, the
parts of an entry, and the page-table entries as pointers of a multi-level table.

Does not own: the links of the free list, which is a list here; nothing reads a free
page. The bytes of user pages: a page is its 512 words.
-/

namespace Xv6.Vm

open Xv6.Kernel
open Xv6.Pools

abbrev Addr := BitVec 64

abbrev Pte := BitVec 64

abbrev Page := Fin 512 → BitVec 64

/-- The words of a page are written as numerals. -/
instance wordNeZero : NeZero 512 := ⟨by decide⟩

/-- Physical memory by pages, with `kmem.freelist`. -/
abbrev Memory := Pool Addr Page

def KERNBASE : Nat := 0x80000000

def PHYSTOP : Nat := KERNBASE + 128 * 1024 * 1024

/-- What the linker script decides. -/
structure Layout where
  /-- `end`: the first address after the kernel. -/
  kernelEnd : Nat
  /-- The page with the trampoline code. -/
  trampoline : Addr
  kernbase_le : KERNBASE ≤ kernelEnd
  trampoline_aligned : trampoline.toNat % PGSIZE = 0
  trampoline_lt : trampoline.toNat < kernelEnd

inductive Panic where
  /-- "kfree" -/
  | kfree
  /-- "walk" -/
  | walk
  /-- "mappages: size" -/
  | size
  /-- "mappages: remap" -/
  | remap
  /-- "uvmunmap: not aligned" -/
  | notAligned
  /-- "uvmunmap: walk" -/
  | unmapWalk
  /-- "uvmunmap: not mapped" -/
  | notMapped
  /-- "uvmunmap: not a leaf" -/
  | notALeaf
  /-- "freewalk: leaf" -/
  | leaf
  /-- `freewalk` calls itself below the last level. -/
  | tooDeep
  /-- "uvmcopy: pte should exist" -/
  | pteShouldExist
  /-- "uvmcopy: page not present" -/
  | notPresent
  /-- "uvmclear" -/
  | uvmclear
  /-- "loadseg: address should exist" -/
  | loadseg
  /-- "filedup" -/
  | filedup
  /-- "fileclose" -/
  | fileclose
  /-- "init exiting" -/
  | initExiting
  /-- A null pointer is used. -/
  | fault
deriving DecidableEq, Repr

/-! ## Pages -/

/-- `memset(pa, c, PGSIZE)`, with the word that is `c` in each byte. -/
def memset (m : Memory) (pa : Addr) (word : BitVec 64) : Memory :=
  { m with store := Function.update m.store pa fun _ => word }

def kalloc (m : Memory) : Option (Addr × Memory) :=
  match m.free with
  | [] => none
  | r :: free => some (r, memset { m with free } r 0x0505050505050505)

/-- A page of memory that `kfree` takes. -/
def Layout.IsPage (layout : Layout) (pa : Addr) : Prop :=
  pa.toNat % PGSIZE = 0 ∧ layout.kernelEnd ≤ pa.toNat ∧ pa.toNat < PHYSTOP

instance (layout : Layout) (pa : Addr) : Decidable (layout.IsPage pa) :=
  inferInstanceAs (Decidable (_ ∧ _))

def kfree (layout : Layout) (m : Memory) (pa : Addr) : Except Panic Memory :=
  if layout.IsPage pa then
    let m := memset m pa 0x0101010101010101
    .ok { m with free := pa :: m.free }
  else
    .error .kfree

/-! ## Entries -/

def PTE_V : Pte := 1
def PTE_R : Pte := 2
def PTE_W : Pte := 4
def PTE_X : Pte := 8
def PTE_U : Pte := 16

def PA2PTE (pa : Addr) : Pte := (pa >>> 12) <<< 10

def PTE2PA (pte : Pte) : Addr := (pte >>> 10) <<< 12

def PTE_FLAGS (pte : Pte) : Pte := pte &&& 0x3FF

def MAXVA : Nat := 2 ^ (9 + 9 + 9 + 12 - 1)

def TRAMPOLINE : Nat := MAXVA - PGSIZE

def TRAPFRAME : Nat := TRAMPOLINE - PGSIZE

def PX (level va : Nat) : Fin 512 := Fin.ofNat 512 (va >>> (12 + 9 * level))

def PGROUNDUP (sz : Nat) : Nat := (sz + PGSIZE - 1) / PGSIZE * PGSIZE

/-- The node an entry above the last level points to. -/
def child (pte : Pte) : Option Addr := if pte &&& PTE_V ≠ 0 then some (PTE2PA pte) else none

variable {pa : Addr} {i : Nat} {flags : Pte}

theorem testBit_of_aligned (aligned : pa.toNat % PGSIZE = 0) (low : i < 12) :
    pa.getLsbD i = false := by
  have bit : (pa.toNat % 2 ^ 12).testBit i = false := by
    rw [show pa.toNat % 2 ^ 12 = 0 from aligned, Nat.zero_testBit]
  rw [Nat.testBit_mod_two_pow, decide_eq_true low, Bool.true_and] at bit
  exact bit

theorem testBit_of_flags (small : flags.toNat < 2 ^ 10) (high : 10 ≤ i) :
    flags.getLsbD i = false :=
  Nat.testBit_lt_two_pow (Nat.lt_of_lt_of_le small (Nat.pow_le_pow_right (by decide) high))

theorem PTE2PA_mk (aligned : pa.toNat % PGSIZE = 0) (small : flags.toNat < 2 ^ 10) :
    PTE2PA (PA2PTE pa ||| flags) = pa := by
  apply BitVec.eq_of_getLsbD_eq
  intro i inside
  simp only [PTE2PA, PA2PTE, BitVec.getLsbD_shiftLeft, BitVec.getLsbD_ushiftRight,
    BitVec.getLsbD_or]
  by_cases low : i < 12
  · simp [low, testBit_of_aligned aligned low]
  · obtain ⟨k, isSum⟩ := Nat.exists_eq_add_of_le (Nat.not_lt.mp low)
    subst isSum
    have flagsEnd := testBit_of_flags small (Nat.le_add_right 10 k)
    have inWord : 10 + k < 64 := by omega
    rw [Nat.add_sub_cancel_left, flagsEnd]
    simp [inside, inWord]

theorem PTE_FLAGS_mk (pa : Addr) (small : flags.toNat < 2 ^ 10) :
    PTE_FLAGS (PA2PTE pa ||| flags) = flags := by
  apply BitVec.eq_of_getLsbD_eq
  intro i inside
  have mask : (0x3FF : Pte).getLsbD i = decide (i < 10) := by
    revert i
    decide
  simp only [PTE_FLAGS, PA2PTE, BitVec.getLsbD_and, BitVec.getLsbD_or, BitVec.getLsbD_shiftLeft,
    mask]
  by_cases low : i < 10
  · simp [low]
  · simp [low, testBit_of_flags small (Nat.not_lt.mp low)]

end Xv6.Vm
