import Xv6.Vm.PageTable

/-!
Contract: the user memory of a process as `kernel/proc.c` and `kernel/exec.c` build it.

Owns: `proc_pagetable`, `proc_freepagetable`, `growproc`, the ELF headers, `loadseg`,
`exec` and the argument pages of `sys_exec`.

Does not own: path lookup and the inode, of which `exec` sees what `readi` returns; the
strings that `fetchaddr` and `fetchstr` find in user memory, which are inputs; the name,
the priority and the saved registers of the process, and the result registers of `exec`.
-/

namespace Xv6.Vm

open Xv6.Format
open Xv6.Kernel

variable (layout : Layout)

/-! ## proc.c -/

/-- `proc_pagetable` of a process with this trapframe; `none` if out of memory. -/
def procPagetable (m : Memory) (trapframe : Addr) : Except Panic (Option Addr × Memory) :=
  match uvmcreate m with
  | none => .ok (none, m)
  | some (pagetable, m) =>
      match mappages m pagetable TRAMPOLINE PGSIZE layout.trampoline (PTE_R ||| PTE_X) with
      | .error panic => .error panic
      | .ok (false, m) => (uvmfree layout m pagetable 0).map fun m => (none, m)
      | .ok (true, m) =>
          match mappages m pagetable TRAPFRAME PGSIZE trapframe (PTE_R ||| PTE_W) with
          | .error panic => .error panic
          | .ok (false, m) =>
              (uvmunmap layout m pagetable TRAMPOLINE 1 false).bind fun m =>
                (uvmfree layout m pagetable 0).map fun m => (none, m)
          | .ok (true, m) => .ok (some pagetable, m)

def procFreepagetable (m : Memory) (pagetable : Addr) (sz : Nat) : Except Panic Memory :=
  (uvmunmap layout m pagetable TRAMPOLINE 1 false).bind fun m =>
    (uvmunmap layout m pagetable TRAPFRAME 1 false).bind fun m => uvmfree layout m pagetable sz

/-- `growproc`, with the new `p->sz`, or `none` for -1. The sum wraps at 64 bits. -/
def growproc (m : Memory) (pagetable : Addr) (sz : Nat) (n : Int) :
    Except Panic (Option Nat × Memory) :=
  let target := ((sz + n) % 2 ^ 64).toNat
  if n > 0 then
    (uvmalloc layout m pagetable sz target PTE_W).map fun (sz, m) =>
      (if sz = 0 then none else some sz, m)
  else if n < 0 then
    (uvmdealloc layout m pagetable sz target).map fun (sz, m) => (some sz, m)
  else
    .ok (some sz, m)

/-! ## Executables -/

/-- What `readi` of the locked inode delivers for an offset and a length. -/
abbrev Reader := Nat → Nat → Bytes × Nat

/-- What it delivers of a file with these bytes. Offset and length are `uint`s. -/
def fileReader (content : List Byte) : Reader := fun off n =>
  let off := BitVec.ofNat 32 off
  let len := min (off + BitVec.ofNat 32 n).toNat content.length - off.toNat
  (fun i => if i < len then content.getD (off.toNat + i) 0 else 0, len)

/-- The fields of `struct elfhdr` that `exec` reads. -/
structure ElfHdr where
  magic : BitVec 32
  phoff : BitVec 64
  phnum : BitVec 16
deriving DecidableEq

/-- The fields of `struct proghdr` that `exec` reads. -/
structure ProgHdr where
  type : BitVec 32
  flags : BitVec 32
  off : BitVec 64
  vaddr : BitVec 64
  filesz : BitVec 64
  memsz : BitVec 64
deriving DecidableEq

def ELF_MAGIC : BitVec 32 := 0x464C457F

def ELF_PROG_LOAD : BitVec 32 := 1

def word16At (bytes : Bytes) (offset : Nat) : BitVec 16 := bytes (offset + 1) ++ bytes offset

def word32At (bytes : Bytes) (offset : Nat) : BitVec 32 :=
  word16At bytes (offset + 2) ++ word16At bytes offset

def word64At (bytes : Bytes) (offset : Nat) : BitVec 64 :=
  word32At bytes (offset + 4) ++ word32At bytes offset

def ElfHdr.size : Nat := 64

def ElfHdr.decode (bytes : Bytes) : ElfHdr where
  magic := word32At bytes 0
  phoff := word64At bytes 32
  phnum := word16At bytes 56

def ProgHdr.size : Nat := 56

def ProgHdr.decode (bytes : Bytes) : ProgHdr where
  type := word32At bytes 0
  flags := word32At bytes 4
  off := word64At bytes 8
  vaddr := word64At bytes 16
  filesz := word64At bytes 32
  memsz := word64At bytes 40

def flags2perm (flags : BitVec 32) : Pte :=
  (if flags &&& 1 ≠ 0 then PTE_X else 0) ||| (if flags &&& 2 ≠ 0 then PTE_W else 0)

/-- The loop of `loadseg` from byte `i` on; `false` for -1. -/
def loadsegLoop (pagetable : Addr) (va : Nat) (read : Reader) (offset sz : Nat) :
    Nat → Memory → Nat → Except Panic (Bool × Memory)
  | 0, m, _ => .ok (true, m)
  | rounds + 1, m, i =>
      match walkaddr m pagetable (va + i) with
      | .error panic => .error panic
      | .ok pa =>
          if pa = 0 then
            .error .loadseg
          else
            let n := if sz - i < PGSIZE then sz - i else PGSIZE
            let (bytes, count) := read ((offset + i) % 2 ^ 32) n
            let m := writePage m pa 0 bytes (min count n)
            if count ≠ n then .ok (false, m)
            else loadsegLoop pagetable va read offset sz rounds m (i + PGSIZE)

/-- `loadseg`; its parameters `offset` and `sz` are 32-bit. -/
def loadseg (m : Memory) (pagetable : Addr) (va : Nat) (read : Reader) (offset sz : BitVec 64) :
    Except Panic (Bool × Memory) :=
  let sz := sz.toNat % 2 ^ 32
  loadsegLoop pagetable va read (offset.toNat % 2 ^ 32) sz ((sz + PGSIZE - 1) / PGSIZE) m 0

/-- The loop of `exec` over program headers: whether it has come to its end, and the size
of the new memory. -/
def loadLoop (pagetable : Addr) (read : Reader) :
    Nat → Nat → Memory → Nat → Except Panic (Bool × Nat × Memory)
  | 0, _, m, sz => .ok (true, sz, m)
  | count + 1, off, m, sz =>
      let (bytes, r) := read off ProgHdr.size
      let ph := ProgHdr.decode bytes
      if r ≠ ProgHdr.size then
        .ok (false, sz, m)
      else if ph.type ≠ ELF_PROG_LOAD then
        loadLoop pagetable read count ((off + ProgHdr.size) % 2 ^ 32) m sz
      else if ph.memsz < ph.filesz then
        .ok (false, sz, m)
      else if ph.vaddr + ph.memsz < ph.vaddr then
        .ok (false, sz, m)
      else if ph.vaddr.toNat % PGSIZE ≠ 0 then
        .ok (false, sz, m)
      else
        match uvmalloc layout m pagetable sz (ph.vaddr + ph.memsz).toNat (flags2perm ph.flags) with
        | .error panic => .error panic
        | .ok (sz1, m) =>
            if sz1 = 0 then
              .ok (false, sz, m)
            else
              match loadseg m pagetable ph.vaddr.toNat read ph.off ph.filesz with
              | .error panic => .error panic
              | .ok (false, m) => .ok (false, sz1, m)
              | .ok (true, m) =>
                  loadLoop pagetable read count ((off + ProgHdr.size) % 2 ^ 32) m sz1

/-! ## Arguments -/

def MAXARG : Nat := 32

def cstring (s : List Byte) : Bytes := fun i => s.getD i 0

def wordBytes (words : List (BitVec 64)) : Bytes := fun i =>
  (words.getD (i / 8) 0).extractLsb' (8 * (i % 8)) 8

/-- The loop that pushes the argument strings: the stack pointer and the addresses of the
strings, or `none` for a `goto bad`. -/
def pushStrings (pagetable : Addr) (stackbase : BitVec 64) :
    List (List Byte) → List (BitVec 64) → Memory → BitVec 64 →
      Except Panic (Option (BitVec 64 × List (BitVec 64)) × Memory)
  | [], ustack, m, sp => .ok (some (sp, ustack), m)
  | arg :: argv, ustack, m, sp =>
      if ustack.length ≥ MAXARG then
        .ok (none, m)
      else
        let sp := sp - BitVec.ofNat 64 (arg.length + 1)
        let sp := sp - sp % 16
        if sp < stackbase then
          .ok (none, m)
        else
          match copyout m pagetable sp.toNat (cstring arg) (arg.length + 1) with
          | .error panic => .error panic
          | .ok (false, m) => .ok (none, m)
          | .ok (true, m) => pushStrings pagetable stackbase argv (ustack ++ [sp]) m sp

/-- The argument strings and the array of pointers to them: the stack pointer, or `none`. -/
def pushArgs (m : Memory) (pagetable : Addr) (sz : Nat) (argv : List (List Byte)) :
    Except Panic (Option (BitVec 64) × Memory) :=
  let sp := BitVec.ofNat 64 sz
  let stackbase := sp - BitVec.ofNat 64 PGSIZE
  match pushStrings pagetable stackbase argv [] m sp with
  | .error panic => .error panic
  | .ok (none, m) => .ok (none, m)
  | .ok (some (sp, ustack), m) =>
      let sp := sp - BitVec.ofNat 64 ((argv.length + 1) * 8)
      let sp := sp - sp % 16
      if sp < stackbase then
        .ok (none, m)
      else
        (copyout m pagetable sp.toNat (wordBytes (ustack ++ [0])) ((argv.length + 1) * 8)).map
          fun (ok, m) => (if ok then some sp else none, m)

/-! ## exec -/

/-- Words of `struct trapframe`. -/
def epcWord : Fin 512 := 3
def spWord : Fin 512 := 6
def a0Word : Fin 512 := 14
def a1Word : Fin 512 := 15

/-- What a process that calls `exec` has. -/
structure UserMemory where
  trapframe : Addr
  pagetable : Addr
  sz : Nat
deriving DecidableEq

/-- `bad:` with a page table. -/
def execBad (m : Memory) (p : UserMemory) (pagetable : Addr) (sz : Nat) :
    Except Panic (Int × UserMemory × Memory) :=
  (procFreepagetable layout m pagetable sz).map fun m => (-1, p, m)

/-- `exec` from the commit to the new image on. -/
def execCommit (m : Memory) (p : UserMemory) (pagetable : Addr) (sz argc : Nat)
    (entry sp : BitVec 64) : Except Panic (Int × UserMemory × Memory) :=
  let m := setPte m p.trapframe a1Word sp
  let m := setPte m p.trapframe epcWord entry
  let m := setPte m p.trapframe spWord sp
  (procFreepagetable layout m p.pagetable p.sz).map fun m =>
    (argc, { p with pagetable := pagetable, sz := sz }, m)

/-- `exec` from the stack on: two more pages, the first of them a guard. -/
def execStack (m : Memory) (p : UserMemory) (pagetable : Addr) (sz : Nat) (entry : BitVec 64)
    (argv : List (List Byte)) : Except Panic (Int × UserMemory × Memory) :=
  let sz := PGROUNDUP sz
  match uvmalloc layout m pagetable sz (sz + 2 * PGSIZE) PTE_W with
  | .error panic => .error panic
  | .ok (sz1, m) =>
      if sz1 = 0 then
        execBad layout m p pagetable sz
      else
        match uvmclear m pagetable (sz1 - 2 * PGSIZE) with
        | .error panic => .error panic
        | .ok m =>
            match pushArgs m pagetable sz1 argv with
            | .error panic => .error panic
            | .ok (none, m) => execBad layout m p pagetable sz1
            | .ok (some sp, m) => execCommit layout m p pagetable sz1 argv.length entry sp

/-- `exec` of a file, `none` if the path names none. -/
def exec (m : Memory) (p : UserMemory) (file : Option Reader) (argv : List (List Byte)) :
    Except Panic (Int × UserMemory × Memory) :=
  match file with
  | none => .ok (-1, p, m)
  | some read =>
      let (bytes, r) := read 0 ElfHdr.size
      let elf := ElfHdr.decode bytes
      if r ≠ ElfHdr.size then
        .ok (-1, p, m)
      else if elf.magic ≠ ELF_MAGIC then
        .ok (-1, p, m)
      else
        match procPagetable layout m p.trapframe with
        | .error panic => .error panic
        | .ok (none, m) => .ok (-1, p, m)
        | .ok (some pagetable, m) =>
            match loadLoop layout pagetable read elf.phnum.toNat (elf.phoff.toNat % 2 ^ 32) m 0 with
            | .error panic => .error panic
            | .ok (false, sz, m) => execBad layout m p pagetable sz
            | .ok (true, sz, m) =>
                execStack layout m p pagetable sz (word64At bytes 24) argv

/-! ## sys_exec -/

/-- What `sys_exec` finds at an index of the user's `argv`. -/
inductive Fetched where
  /-- `fetchaddr` fails. -/
  | badAddress
  /-- The null pointer at the end. -/
  | null
  /-- `fetchstr` fails. -/
  | badString
  | string (s : List Byte)
deriving DecidableEq

/-- The loop of `sys_exec` over the arguments, with the pages for those fetched so far:
whether it has come to the null pointer. -/
def fetchArgs (fetch : Nat → Fetched) :
    Nat → Memory → List (Addr × List Byte) → Bool × List (Addr × List Byte) × Memory
  | 0, m, argv => (false, argv, m)
  | rounds + 1, m, argv =>
      match fetch argv.length with
      | .badAddress => (false, argv, m)
      | .null => (true, argv, m)
      | .badString =>
          match kalloc m with
          | none => (false, argv, m)
          | some (page, m) => (false, argv ++ [(page, [])], m)
      | .string s =>
          match kalloc m with
          | none => (false, argv, m)
          | some (page, m) =>
              fetchArgs fetch rounds (writePage m page 0 (cstring s) (s.length + 1))
                (argv ++ [(page, s)])

def freeArgs : List (Addr × List Byte) → Memory → Except Panic Memory
  | [], m => .ok m
  | (page, _) :: rest, m => (kfree layout m page).bind (freeArgs rest)

def sysExec (m : Memory) (p : UserMemory) (file : Option Reader) (fetch : Nat → Fetched) :
    Except Panic (Int × UserMemory × Memory) :=
  match fetchArgs fetch MAXARG m [] with
  | (false, argv, m) => (freeArgs layout argv m).map fun m => (-1, p, m)
  | (true, argv, m) =>
      (exec layout m p file (argv.map Prod.snd)).bind fun (ret, p, m) =>
        (freeArgs layout argv m).map fun m => (ret, p, m)

end Xv6.Vm
