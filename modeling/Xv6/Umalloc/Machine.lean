import Xv6.Extents.Cover
import Xv6.Runs.Reachable

/-!
Contract: `malloc` and `free` of `user/umalloc.c`, and the runs of a program that calls them.

Owns: the headers in memory, the circular list of free blocks with its start `freep`, `morecore`,
and a machine whose steps are calls of `malloc`, calls of `free` on pointers that `malloc` has
returned, and writes of the program to its own blocks.

Does not own: the system call `sbrk`. It fails or gives memory above all that it gave before; the
gap is part of the step. Addresses are natural numbers, `0` is the null pointer. The loops count
their iterations down from a bound, and have no result when it is used up.
-/

namespace Xv6.Umalloc

open Extents Function

def HEADER : Nat := 16

/-- The `union header` at every address, the static `freep`, and what `sbrk` has given. -/
structure Heap where
  /-- `s.ptr` -/
  ptr : Nat → Nat
  /-- `s.size` -/
  size : Nat → BitVec 32
  freep : Nat
  /-- The memory from `sbrk`, the newest first. -/
  memory : List Extent
  /-- The end of the memory of the program. -/
  top : Nat

def Heap.finish (heap : Heap) (a : Nat) : Nat :=
  a + HEADER * (heap.size a).toNat

/-- `for(p = freep; !(bp > p && bp < p->s.ptr); p = p->s.ptr)` -/
def freeLoop (heap : Heap) (bp : Nat) : Nat → Nat → Option Nat
  | 0, _ => none
  | fuel + 1, p =>
      if bp > p ∧ bp < heap.ptr p then some p
      else if p ≥ heap.ptr p ∧ (bp > p ∨ bp < heap.ptr p) then some p
      else freeLoop heap bp fuel (heap.ptr p)

/-- `if(bp + bp->s.size == p->s.ptr) … else bp->s.ptr = p->s.ptr` -/
def mergeUpper (heap : Heap) (p bp : Nat) : Heap :=
  if heap.finish bp = heap.ptr p then
    { heap with size := update heap.size bp (heap.size bp + heap.size (heap.ptr p)),
                ptr := update heap.ptr bp (heap.ptr (heap.ptr p)) }
  else
    { heap with ptr := update heap.ptr bp (heap.ptr p) }

/-- `if(p + p->s.size == bp) … else p->s.ptr = bp` -/
def mergeLower (heap : Heap) (p bp : Nat) : Heap :=
  if heap.finish p = bp then
    { heap with size := update heap.size p (heap.size p + heap.size bp),
                ptr := update heap.ptr p (heap.ptr bp) }
  else
    { heap with ptr := update heap.ptr p bp }

def free (fuel : Nat) (heap : Heap) (ap : Nat) : Option Heap :=
  let bp := ap - HEADER
  (freeLoop heap bp fuel heap.freep).map fun p =>
    { mergeLower (mergeUpper heap p bp) p bp with freep := p }

/-- A call of `sbrk` for so many units of a header. The number is the gap above the memory that the
program has, or `none` where the call returns `-1`. -/
abbrev Sbrk := Heap → Option Nat → BitVec 32 → Option (Nat × Heap)

/-- `sbrk` that gives what it is asked for. -/
def sbrk : Sbrk := fun heap answer nu =>
  answer.map fun gap =>
    (heap.top + gap,
      { heap with memory := ⟨heap.top + gap, nu.toNat⟩ :: heap.memory,
                  top := heap.top + gap + HEADER * nu.toNat })

/-- The units that `morecore(nu)` asks for. -/
def moreUnits (nu : BitVec 32) : BitVec 32 :=
  if nu < 4096#32 then 4096#32 else nu

def morecore (sbrk : Sbrk) (fuel : Nat) (heap : Heap) (nu : BitVec 32) (answer : Option Nat) :
    Option (Heap × Nat) :=
  match sbrk heap answer (moreUnits nu) with
  | none => some (heap, 0)
  | some (hp, heap) =>
      (free fuel { heap with size := update heap.size hp (moreUnits nu) } (hp + HEADER)).map
        fun heap => (heap, heap.freep)

/-- The block at `p` serves the call: `malloc` returns a pointer behind its header. -/
def take (heap : Heap) (prevp p : Nat) (nunits : BitVec 32) : Heap × Nat :=
  if heap.size p = nunits then
    ({ heap with ptr := update heap.ptr prevp (heap.ptr p), freep := prevp }, p + HEADER)
  else
    let rest := heap.size p - nunits
    let p' := p + HEADER * rest.toNat
    ({ heap with size := update (update heap.size p rest) p' nunits, freep := prevp }, p' + HEADER)

/-- `for(p = prevp->s.ptr; ; prevp = p, p = p->s.ptr)`, with the answers of `sbrk` to come. -/
def mallocLoop (sbrk : Sbrk) (nunits : BitVec 32) :
    Nat → List (Option Nat) → Heap → Nat → Nat → Option (Heap × Nat)
  | 0, _, _, _, _ => none
  | fuel + 1, answers, heap, prevp, p =>
      if nunits ≤ heap.size p then some (take heap prevp p nunits)
      else if p = heap.freep then
        match morecore sbrk fuel heap nunits answers.head?.join with
        | none => none
        | some (heap, p) =>
            if p = 0 then some (heap, 0)
            else mallocLoop sbrk nunits fuel answers.tail heap p (heap.ptr p)
      else mallocLoop sbrk nunits fuel answers heap p (heap.ptr p)

/-- `(nbytes + sizeof(Header) - 1)/sizeof(Header) + 1`: the sum is one of 64 bits. -/
def unitsFor (nbytes : BitVec 32) : BitVec 32 :=
  BitVec.ofNat 32 ((nbytes.toNat + HEADER - 1) / HEADER + 1)

/-- The list as the first call of `malloc` makes it. -/
def Heap.ready (base : Nat) (heap : Heap) : Heap :=
  if heap.freep = 0 then
    { heap with ptr := update heap.ptr base base, size := update heap.size base 0, freep := base }
  else
    heap

def malloc (sbrk : Sbrk) (base : Nat) (fuel : Nat) (answers : List (Option Nat)) (heap : Heap)
    (nbytes : BitVec 32) : Option (Heap × Nat) :=
  let heap := heap.ready base
  mallocLoop sbrk (unitsFor nbytes) fuel answers heap heap.freep (heap.ptr heap.freep)

/-! ## Runs -/

/-- The blocks that the program has: where they start and how many bytes it asked for. -/
structure State where
  heap : Heap
  allocated : List (Nat × Nat)

inductive Action where
  /-- `malloc(nbytes)`, with the answers to its calls of `sbrk` -/
  | malloc (nbytes : BitVec 32) (answers : List (Option Nat)) (fuel : Nat)
  /-- `free(ap)` -/
  | free (ap : Nat) (fuel : Nat)
  /-- The program writes to the blocks it has. -/
  | write (ptr : Nat → Nat) (size : Nat → BitVec 32)

/-- A header at this address would overlap what the program may write. -/
def State.Writable (s : State) (x : Nat) : Prop :=
  ∃ block ∈ s.allocated, block.1 < x ∧ x < s.heap.finish block.1

instance (s : State) (x : Nat) : Decidable (s.Writable x) :=
  inferInstanceAs (Decidable (∃ block ∈ s.allocated, _))

def step (base : Nat) (s : State) : Action → Option State
  | .malloc nbytes answers fuel =>
      (malloc sbrk base fuel answers s.heap nbytes).map fun (heap, ap) =>
        { heap, allocated := if ap = 0 then s.allocated
                             else (ap - HEADER, nbytes.toNat) :: s.allocated }
  | .free ap fuel =>
      if ∃ block ∈ s.allocated, block.1 + HEADER = ap then
        (free fuel s.heap ap).map fun heap =>
          { heap, allocated := s.allocated.eraseP fun block => block.1 + HEADER = ap }
      else
        none
  | .write ptr size =>
      some { s with heap := { s.heap with
        ptr := fun x => if s.Writable x then ptr x else s.heap.ptr x,
        size := fun x => if s.Writable x then size x else s.heap.size x } }

/-- Before the first call: the program ends behind `base`. -/
def start (base : Nat) (ptr : Nat → Nat) (size : Nat → BitVec 32) (gap : Nat) : State where
  heap := { ptr, size, freep := 0, memory := [], top := base + HEADER + gap }
  allocated := []

end Xv6.Umalloc
