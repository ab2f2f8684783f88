import Xv6.Kernel.Copy
import Xv6.Vm.Memory

/-!
Contract: the page tables of `kernel/vm.c`.

Owns: `walk`, `walkaddr`, `mappages`, `uvmunmap`, `uvmcreate`, `uvmfirst`, `uvmalloc`,
`uvmdealloc`, `freewalk`, `uvmfree`, `uvmcopy`, `uvmclear`, `copyout`, `copyin` and
`copyinstr`. A panic is an error.

Does not own: the kernel page table and the TLB. Sizes and addresses are natural
numbers; where an address may come from the user, sums wrap at 64 bits.
-/

namespace Xv6.Vm

open Xv6.Format
open Xv6.Kernel
open Xv6.Pools
open Function

def setPte (m : Memory) (node : Addr) (i : Fin 512) (pte : Pte) : Memory :=
  { m with store := update m.store node (update (m.store node) i pte) }

theorem store_setPte (m : Memory) (node : Addr) (i : Fin 512) (pte : Pte) :
    (setPte m node i pte).store node = update (m.store node) i pte :=
  update_self ..

theorem store_setPte_of_ne (m : Memory) {node a : Addr} (different : a ≠ node) (i : Fin 512)
    (pte : Pte) : (setPte m node i pte).store a = m.store a :=
  update_of_ne different ..

/-- The loop of `walk` from `level` down, to the node of the last level. -/
def descend (va : Nat) (alloc : Bool) : Nat → Memory → Addr → Option Addr × Memory
  | 0, m, pagetable => (some pagetable, m)
  | level + 1, m, pagetable =>
      let pte := m.store pagetable (PX (level + 1) va)
      if pte &&& PTE_V ≠ 0 then
        descend va alloc level m (PTE2PA pte)
      else if alloc then
        match kalloc m with
        | none => (none, m)
        | some (node, m) =>
            descend va alloc level
              (setPte (memset m node 0) pagetable (PX (level + 1) va) (PA2PTE node ||| PTE_V)) node
      else
        (none, m)

/-- `walk`: the entry is `&node[PX(0, va)]` of the node that is returned. -/
def walk (m : Memory) (pagetable : Addr) (va : Nat) (alloc : Bool) :
    Except Panic (Option Addr × Memory) :=
  if va ≥ MAXVA then .error .walk else .ok (descend va alloc 2 m pagetable)

def walkaddr (m : Memory) (pagetable : Addr) (va : Nat) : Except Panic Addr :=
  if va ≥ MAXVA then
    .ok 0
  else
    match walk m pagetable va false with
    | .error panic => .error panic
    | .ok (none, _) => .ok 0
    | .ok (some node, _) =>
        let pte := m.store node (PX 0 va)
        if pte &&& PTE_V = 0 then .ok 0
        else if pte &&& PTE_U = 0 then .ok 0
        else .ok (PTE2PA pte)

/-- The loop of `mappages` over so many pages; `false` for -1. -/
def mappagesLoop (pagetable : Addr) (perm : Pte) :
    Nat → Memory → Nat → Addr → Except Panic (Bool × Memory)
  | 0, m, _, _ => .ok (true, m)
  | rounds + 1, m, a, pa =>
      match walk m pagetable a true with
      | .error panic => .error panic
      | .ok (none, m) => .ok (false, m)
      | .ok (some node, m) =>
          if m.store node (PX 0 a) &&& PTE_V ≠ 0 then
            .error .remap
          else
            mappagesLoop pagetable perm rounds
              (setPte m node (PX 0 a) (PA2PTE pa ||| perm ||| PTE_V)) (a + PGSIZE)
              (pa + BitVec.ofNat 64 PGSIZE)

def mappages (m : Memory) (pagetable : Addr) (va size : Nat) (pa : Addr) (perm : Pte) :
    Except Panic (Bool × Memory) :=
  if size = 0 then
    .error .size
  else
    let a := PGROUNDDOWN va
    let last := PGROUNDDOWN (va + size - 1)
    mappagesLoop pagetable perm ((last - a) / PGSIZE + 1) m a pa

variable (layout : Layout)

def uvmunmapLoop (pagetable : Addr) (doFree : Bool) : Nat → Memory → Nat → Except Panic Memory
  | 0, m, _ => .ok m
  | rounds + 1, m, a =>
      match walk m pagetable a false with
      | .error panic => .error panic
      | .ok (none, _) => .error .unmapWalk
      | .ok (some node, _) =>
          let pte := m.store node (PX 0 a)
          if pte &&& PTE_V = 0 then
            .error .notMapped
          else if PTE_FLAGS pte = PTE_V then
            .error .notALeaf
          else
            (if doFree then kfree layout m (PTE2PA pte) else .ok m).bind fun m =>
              uvmunmapLoop pagetable doFree rounds (setPte m node (PX 0 a) 0) (a + PGSIZE)

def uvmunmap (m : Memory) (pagetable : Addr) (va npages : Nat) (doFree : Bool) :
    Except Panic Memory :=
  if va % PGSIZE ≠ 0 then .error .notAligned
  else uvmunmapLoop layout pagetable doFree npages m va

omit layout in
/-- `uvmcreate`; `none` if out of memory. -/
def uvmcreate (m : Memory) : Option (Addr × Memory) :=
  (kalloc m).map fun (pagetable, m) => (pagetable, memset m pagetable 0)

omit layout in
/-- `uvmfirst` with the page that holds the code of the first process. The result of
`kalloc` is not tested (`none` is a fault), nor is that of `mappages`. -/
def uvmfirst (m : Memory) (pagetable : Addr) (code : Page) : Option (Except Panic Memory) :=
  (kalloc m).map fun (mem, m) =>
    (mappages (memset m mem 0) pagetable 0 PGSIZE mem (PTE_W ||| PTE_R ||| PTE_X ||| PTE_U)).map
      fun (_, m) => { m with store := update m.store mem code }

/-- `uvmdealloc`, with the new size. -/
def uvmdealloc (m : Memory) (pagetable : Addr) (oldsz newsz : Nat) : Except Panic (Nat × Memory) :=
  if newsz ≥ oldsz then
    .ok (oldsz, m)
  else if PGROUNDUP newsz < PGROUNDUP oldsz then
    let npages := (PGROUNDUP oldsz - PGROUNDUP newsz) / PGSIZE
    (uvmunmap layout m pagetable (PGROUNDUP newsz) npages true).map fun m => (newsz, m)
  else
    .ok (newsz, m)

/-- The loop of `uvmalloc`; `oldsz` is rounded up. -/
def uvmallocLoop (pagetable : Addr) (oldsz newsz : Nat) (xperm : Pte) :
    Nat → Memory → Nat → Except Panic (Nat × Memory)
  | 0, m, _ => .ok (newsz, m)
  | rounds + 1, m, a =>
      match kalloc m with
      | none => (uvmdealloc layout m pagetable a oldsz).map fun (_, m) => (0, m)
      | some (mem, m) =>
          match mappages (memset m mem 0) pagetable a PGSIZE mem (PTE_R ||| PTE_U ||| xperm) with
          | .error panic => .error panic
          | .ok (true, m) => uvmallocLoop pagetable oldsz newsz xperm rounds m (a + PGSIZE)
          | .ok (false, m) =>
              (kfree layout m mem).bind fun m =>
                (uvmdealloc layout m pagetable a oldsz).map fun (_, m) => (0, m)

/-- `uvmalloc`, with the new size or 0 on error. -/
def uvmalloc (m : Memory) (pagetable : Addr) (oldsz newsz : Nat) (xperm : Pte) :
    Except Panic (Nat × Memory) :=
  if newsz < oldsz then
    .ok (oldsz, m)
  else
    let a := PGROUNDUP oldsz
    uvmallocLoop layout pagetable a newsz xperm ((newsz - a + PGSIZE - 1) / PGSIZE) m a

/-- The loop of `freewalk` over entries of a node, with the call for a child. -/
def freewalkLoop (free : Memory → Addr → Except Panic Memory) (pagetable : Addr) :
    List (Fin 512) → Memory → Except Panic Memory
  | [], m => .ok m
  | i :: rest, m =>
      let pte := m.store pagetable i
      if pte &&& PTE_V ≠ 0 ∧ pte &&& (PTE_R ||| PTE_W ||| PTE_X) = 0 then
        (free m (PTE2PA pte)).bind fun m =>
          freewalkLoop free pagetable rest (setPte m pagetable i 0)
      else if pte &&& PTE_V ≠ 0 then
        .error .leaf
      else
        freewalkLoop free pagetable rest m

/-- `freewalk` for a node with `level` levels below it. -/
def freewalk : Nat → Memory → Addr → Except Panic Memory
  | 0, m, pagetable =>
      (freewalkLoop (fun _ _ => .error .tooDeep) pagetable (List.finRange 512) m).bind fun m =>
        kfree layout m pagetable
  | level + 1, m, pagetable =>
      (freewalkLoop (freewalk level) pagetable (List.finRange 512) m).bind fun m =>
        kfree layout m pagetable

def uvmfree (m : Memory) (pagetable : Addr) (sz : Nat) : Except Panic Memory :=
  (if sz > 0 then uvmunmap layout m pagetable 0 (PGROUNDUP sz / PGSIZE) true else .ok m).bind
    fun m => freewalk layout 2 m pagetable

/-- The loop of `uvmcopy`; `false` for -1. -/
def uvmcopyLoop (old new : Addr) : Nat → Memory → Nat → Except Panic (Bool × Memory)
  | 0, m, _ => .ok (true, m)
  | rounds + 1, m, i =>
      match walk m old i false with
      | .error panic => .error panic
      | .ok (none, _) => .error .pteShouldExist
      | .ok (some node, _) =>
          let pte := m.store node (PX 0 i)
          if pte &&& PTE_V = 0 then
            .error .notPresent
          else
            match kalloc m with
            | none => (uvmunmap layout m new 0 (i / PGSIZE) true).map fun m => (false, m)
            | some (mem, m) =>
                let m := { m with store := update m.store mem (m.store (PTE2PA pte)) }
                match mappages m new i PGSIZE mem (PTE_FLAGS pte) with
                | .error panic => .error panic
                | .ok (true, m) => uvmcopyLoop old new rounds m (i + PGSIZE)
                | .ok (false, m) =>
                    (kfree layout m mem).bind fun m =>
                      (uvmunmap layout m new 0 (i / PGSIZE) true).map fun m => (false, m)

def uvmcopy (m : Memory) (old new : Addr) (sz : Nat) : Except Panic (Bool × Memory) :=
  uvmcopyLoop layout old new (PGROUNDUP sz / PGSIZE) m 0

omit layout in
def uvmclear (m : Memory) (pagetable : Addr) (va : Nat) : Except Panic Memory :=
  match walk m pagetable va false with
  | .error panic => .error panic
  | .ok (none, _) => .error .uvmclear
  | .ok (some node, _) =>
      .ok (setPte m node (PX 0 va) (m.store node (PX 0 va) &&& ~~~PTE_U))

/-! ## Bytes -/

omit layout in
/-- The bytes of a page, the least significant of a word first. -/
def Page.bytes (page : Page) : Bytes := fun i =>
  (page (Fin.ofNat 512 (i / 8))).extractLsb' (8 * (i % 8)) 8

omit layout in
def Page.ofBytes (bytes : Bytes) : Page := fun w =>
  let byte k := bytes (8 * w.val + k)
  byte 7 ++ byte 6 ++ byte 5 ++ byte 4 ++ byte 3 ++ byte 2 ++ byte 1 ++ byte 0

omit layout in
/-- `memmove(pa + offset, src, n)` inside one page. -/
def writePage (m : Memory) (pa : Addr) (offset : Nat) (src : Bytes) (n : Nat) : Memory :=
  { m with
    store := update m.store pa
      (Page.ofBytes (memmove (Page.bytes (m.store pa)) offset src n)) }

omit layout in
/-- The loop of `copyout`; each round copies at least one byte. -/
def copyoutLoop (pagetable : Addr) : Nat → Memory → Nat → Bytes → Nat → Except Panic (Bool × Memory)
  | 0, m, _, _, _ => .ok (true, m)
  | rounds + 1, m, dstva, src, len =>
      if len = 0 then
        .ok (true, m)
      else
        let va0 := PGROUNDDOWN dstva
        match walkaddr m pagetable va0 with
        | .error panic => .error panic
        | .ok pa0 =>
            if pa0 = 0 then
              .ok (false, m)
            else
              let n := min (PGSIZE - (dstva - va0)) len
              copyoutLoop pagetable rounds (writePage m pa0 (dstva - va0) src n)
                ((va0 + PGSIZE) % 2 ^ 64) (fun i => src (n + i)) (len - n)

omit layout in
/-- `copyout`; `false` for -1. -/
def copyout (m : Memory) (pagetable : Addr) (dstva : Nat) (src : Bytes) (len : Nat) :
    Except Panic (Bool × Memory) :=
  copyoutLoop pagetable len m dstva src len

omit layout in
/-- The loop of `copyin`, with the index of the next byte of `dst`. -/
def copyinLoop (m : Memory) (pagetable : Addr) :
    Nat → Bytes → Nat → Nat → Nat → Except Panic (Bool × Bytes)
  | 0, dst, _, _, _ => .ok (true, dst)
  | rounds + 1, dst, pos, srcva, len =>
      if len = 0 then
        .ok (true, dst)
      else
        let va0 := PGROUNDDOWN srcva
        match walkaddr m pagetable va0 with
        | .error panic => .error panic
        | .ok pa0 =>
            if pa0 = 0 then
              .ok (false, dst)
            else
              let n := min (PGSIZE - (srcva - va0)) len
              copyinLoop m pagetable rounds
                (memmove dst pos (fun i => Page.bytes (m.store pa0) (srcva - va0 + i)) n) (pos + n)
                ((va0 + PGSIZE) % 2 ^ 64) (len - n)

omit layout in
/-- `copyin`, with `dst` at its end; `false` for -1. -/
def copyin (m : Memory) (pagetable : Addr) (dst : Bytes) (srcva len : Nat) :
    Except Panic (Bool × Bytes) :=
  copyinLoop m pagetable len dst 0 srcva len

omit layout in
/-- The inner loop of `copyinstr` over `n` bytes of a page from byte `p` on: `got_null`, `dst`
with the index of its next byte, and `max`. -/
def copyinstrPage (page : Bytes) : Nat → Nat → Bytes → Nat → Nat → Bool × Bytes × Nat × Nat
  | 0, _, dst, pos, max => (false, dst, pos, max)
  | n + 1, p, dst, pos, max =>
      if page p = 0 then
        (true, update dst pos 0, pos, max)
      else
        copyinstrPage page n (p + 1) (update dst pos (page p)) (pos + 1) (max - 1)

omit layout in
/-- The outer loop of `copyinstr`; a round without NUL copies at least one byte. -/
def copyinstrLoop (m : Memory) (pagetable : Addr) :
    Nat → Bytes → Nat → Nat → Nat → Except Panic (Bool × Bytes)
  | 0, dst, _, _, _ => .ok (false, dst)
  | rounds + 1, dst, pos, srcva, max =>
      if max = 0 then
        .ok (false, dst)
      else
        let va0 := PGROUNDDOWN srcva
        match walkaddr m pagetable va0 with
        | .error panic => .error panic
        | .ok pa0 =>
            if pa0 = 0 then
              .ok (false, dst)
            else
              let n := min (PGSIZE - (srcva - va0)) max
              match copyinstrPage (Page.bytes (m.store pa0)) n (srcva - va0) dst pos max with
              | (true, dst, _, _) => .ok (true, dst)
              | (false, dst, pos, max) =>
                  copyinstrLoop m pagetable rounds dst pos ((va0 + PGSIZE) % 2 ^ 64) max

omit layout in
/-- `copyinstr`, with `dst` at its end; `false` for -1. -/
def copyinstr (m : Memory) (pagetable : Addr) (dst : Bytes) (srcva max : Nat) :
    Except Panic (Bool × Bytes) :=
  copyinstrLoop m pagetable (max + 1) dst 0 srcva max

end Xv6.Vm
