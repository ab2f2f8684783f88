import Xv6.Umalloc.Runs
import Xv6.Vm.Supervisor

/-!
Contract: the sizes that go from `malloc` through `morecore` to `sbrk`.

Owns: the argument of `sbrk` as an `int`, `sys_sbrk` with `growproc` for such an argument, and the
sizes that `malloc` serves with it.

Does not own: what `malloc` does when `sbrk` gives what it is asked for. A store to memory that the
program does not have is not stopped.
-/

namespace Xv6.Umalloc

open Extents Function

/-! ## The program -/

/-- `nu * sizeof(Header)`, a product of 64 bits, as the parameter of `sbrk`. -/
def sbrkArgument (nu : BitVec 32) : BitVec 32 :=
  (nu.setWidth 64 * BitVec.ofNat 64 HEADER).setWidth 32

/-- `p->sz` after `growproc(n)` with `n` not positive. -/
def shrunk (sz : Nat) (n : Int) : Nat := if n < 0 then min sz (Vm.requested sz n) else sz

/-- `growproc` does not fail then. -/
theorem growproc_shrunk {layout : Vm.Layout} {m : Vm.Memory} {pagetable trapframe : Vm.Addr}
    {sz : Nat} (space : Vm.Space m pagetable (Vm.supervisor layout trapframe) (Vm.npages sz))
    (owned : Vm.Owned layout m (Vm.spacePages m pagetable (Vm.npages sz))) {n : Int}
    (notPositive : n ≤ 0) :
    ∃ m', Vm.growproc layout m pagetable sz n = .ok (some (shrunk sz n), m') := by
  obtain ⟨result, m', ran, -, -, shrinks, stays⟩ := Vm.growproc_spec space owned n
  refine ⟨m', ran.trans ?_⟩
  rcases Int.lt_or_eq_of_le notPositive with negative | isZero
  · rw [shrunk, if_pos negative, shrinks negative]
  · rw [shrunk, if_neg (by omega), stays isZero]

/-- What is left of the memory below `top`. -/
def cutAt (top : Nat) (e : Extent) : Extent :=
  ⟨e.start, min e.units ((top - e.start) / HEADER)⟩

/-- `sbrk(n)` as `sys_sbrk` and `growproc` do it, with the gap above the memory of the heap. Where
`n` is positive, it returns `-1` for `none`. -/
def sysSbrk (heap : Heap) (answer : Option Nat) (n : BitVec 32) : Option (Nat × Heap) :=
  if 0 < n.toInt then
    answer.map fun gap =>
      (heap.top + gap,
        { heap with memory := ⟨heap.top + gap, n.toNat / HEADER⟩ :: heap.memory,
                    top := heap.top + gap + n.toNat })
  else
    let sz := heap.top + answer.getD 0
    let top := shrunk sz n.toInt
    some (sz, { heap with memory := heap.memory.map (cutAt top), top })

/-- `sbrk(nu * sizeof(Header))` -/
def narrowSbrk : Sbrk := fun heap answer nu => sysSbrk heap answer (sbrkArgument nu)

/-! ## The argument -/

theorem sbrkArgument_toNat (nu : BitVec 32) :
    (sbrkArgument nu).toNat = HEADER * nu.toNat % 2 ^ 32 := by
  have bound := nu.isLt
  rw [sbrkArgument, BitVec.toNat_setWidth, BitVec.toNat_mul, BitVec.toNat_setWidth,
    BitVec.toNat_ofNat]
  unfold HEADER
  omega

/-- The argument is the number of bytes where this is an `int`. -/
theorem sbrkArgument_toInt_iff {nu : BitVec 32} (bound : nu.toNat ≤ 2 ^ 28 + 1) :
    (sbrkArgument nu).toInt = HEADER * nu.toNat ↔ HEADER * nu.toNat < 2 ^ 31 := by
  have isNat := sbrkArgument_toNat nu
  rw [BitVec.toInt_eq_toNat_cond, isNat]
  unfold HEADER at *
  split <;> omega

/-! ## Sizes that fit -/

section Fitting

variable {heap : Heap} {nu : BitVec 32} {answer : Option Nat}

theorem narrowSbrk_eq (positive : 0 < nu.toNat) (fits : HEADER * nu.toNat < 2 ^ 31) :
    narrowSbrk heap answer nu = sbrk heap answer nu := by
  have isNat : (sbrkArgument nu).toNat = HEADER * nu.toNat := by
    rw [sbrkArgument_toNat]
    exact Nat.mod_eq_of_lt (by omega)
  have isPositive : 0 < (sbrkArgument nu).toInt := by
    rw [BitVec.toInt_eq_toNat_cond, isNat, if_pos (by omega)]
    unfold HEADER
    omega
  rw [narrowSbrk, sysSbrk, if_pos isPositive, isNat, Nat.mul_div_cancel_left _ HEADER_pos]
  rfl

theorem mallocLoop_narrow (fits : HEADER * nu.toNat < 2 ^ 31) (fuel : Nat)
    (answers : List (Option Nat)) (heap : Heap) (prevp p : Nat) :
    mallocLoop narrowSbrk nu fuel answers heap prevp p =
      mallocLoop sbrk nu fuel answers heap prevp p := by
  have isUnits := moreUnits_toNat nu
  have fits' : HEADER * (moreUnits nu).toNat < 2 ^ 31 := by
    unfold HEADER at *
    omega
  induction fuel generalizing answers heap prevp p with
  | zero => rfl
  | succ fuel ih =>
      have sameCore : ∀ answer, morecore narrowSbrk fuel heap nu answer =
          morecore sbrk fuel heap nu answer := by
        intro answer
        rw [morecore, morecore, narrowSbrk_eq (by omega) fits']
      simp only [mallocLoop, sameCore, ih]

theorem malloc_narrow {nbytes : BitVec 32} (fits : HEADER * (unitsFor nbytes).toNat < 2 ^ 31)
    (base fuel : Nat) (answers : List (Option Nat)) (heap : Heap) :
    malloc narrowSbrk base fuel answers heap nbytes = malloc sbrk base fuel answers heap nbytes :=
  mallocLoop_narrow fits ..

end Fitting

/-! ## Sizes that do not -/

section Oversize

variable {base a : Nat} {nunits : BitVec 32} {heap : Heap}

/-- The list of one block at `a`, behind `base`. -/
structure Single (base a : Nat) (nunits : BitVec 32) (heap : Heap) : Prop where
  first : heap.ptr base = a
  second : heap.ptr a = base
  size : heap.size a = nunits
  freep : heap.freep = base

theorem free_first (heap : Heap) (behind : base < a) (ptr : heap.ptr base = base)
    (size : heap.size base = 0) (isSize : heap.size a = nunits) (freep : heap.freep = base)
    (fuel : Nat) : ∃ heap', free (fuel + 1) heap (a + HEADER) = some heap' ∧
      Single base a nunits heap' ∧ heap'.memory = heap.memory := by
  have isPlace : freeLoop heap a (fuel + 1) base = some base := by
    rw [freeLoop, if_neg (by omega), if_pos ⟨Nat.le_of_eq ptr, .inl behind⟩]
  have notUpper : heap.finish a ≠ heap.ptr base := by
    rw [ptr, Heap.finish]
    omega
  have upper : mergeUpper heap base a = { heap with ptr := update heap.ptr a base } := by
    rw [mergeUpper, if_neg notUpper, ptr]
  have notLower : Heap.finish { heap with ptr := update heap.ptr a base } base ≠ a := by
    rw [Heap.finish, size]
    exact Nat.ne_of_lt behind
  have isFreed : free (fuel + 1) heap (a + HEADER) = some
      { heap with ptr := update (update heap.ptr a base) base a, freep := base } := by
    rw [free, Nat.add_sub_cancel, freep, isPlace, Option.map_some, upper, mergeLower,
      if_neg notLower]
  refine ⟨_, isFreed, ⟨update_self .., ?_, isSize, rfl⟩, rfl⟩
  exact (update_of_ne (Nat.ne_of_gt behind) ..).trans (update_self ..)

theorem Single.mallocLoop (single : Single base a nunits heap) (fuel : Nat)
    (answers : List (Option Nat)) :
    ∃ heap', mallocLoop narrowSbrk nunits (fuel + 1) answers heap base (heap.ptr base) =
      some (heap', a + HEADER) ∧ heap'.memory = heap.memory := by
  rw [Umalloc.mallocLoop, single.first, single.size, if_pos (BitVec.le_refl _), take,
    if_pos single.size]
  exact ⟨_, rfl, rfl⟩

/-- The argument is zero or negative, or asks for one unit. -/
theorem sbrkArgument_cases (large : 2 ^ 31 ≤ HEADER * nunits.toNat)
    (bound : nunits.toNat ≤ 2 ^ 28 + 1) :
    (sbrkArgument nunits).toInt ≤ 0 ∨ sbrkArgument nunits = 16 := by
  have isNat := sbrkArgument_toNat nunits
  by_cases isLast : nunits.toNat = 2 ^ 28 + 1
  · refine .inr (BitVec.eq_of_toNat_eq ?_)
    rw [isNat, isLast]
    rfl
  · refine .inl ?_
    rw [BitVec.toInt_eq_toNat_cond, isNat]
    unfold HEADER at *
    split <;> omega

/-- `sbrk` returns the end of the memory, and gives one unit at most. -/
theorem narrowSbrk_oversize (noMemory : heap.memory = []) (large : 2 ^ 31 ≤ HEADER * nunits.toNat)
    (bound : nunits.toNat ≤ 2 ^ 28 + 1) :
    ∃ heap', narrowSbrk heap (some 0) nunits = some (heap.top, heap') ∧
      heap'.ptr = heap.ptr ∧ heap'.size = heap.size ∧ heap'.freep = heap.freep ∧
      heap'.memory ⊆ [⟨heap.top, 1⟩] := by
  rcases sbrkArgument_cases large bound with notPositive | isSmall
  · rw [narrowSbrk, sysSbrk, if_neg (by omega)]
    refine ⟨_, rfl, rfl, rfl, rfl, ?_⟩
    dsimp only
    rw [noMemory]
    exact List.nil_subset _
  · rw [narrowSbrk, isSmall]
    refine ⟨_, rfl, rfl, rfl, rfl, ?_⟩
    dsimp only
    rw [noMemory]
    exact List.Subset.refl _

/-- `morecore` on an empty list: the block that it adds has the size asked for. -/
theorem morecore_oversize (heap : Heap) (nunits : BitVec 32) (behind : base < heap.top)
    (ptr : heap.ptr base = base) (size : heap.size base = 0) (freep : heap.freep = base)
    (noMemory : heap.memory = []) (large : 2 ^ 31 ≤ HEADER * nunits.toNat)
    (bound : nunits.toNat ≤ 2 ^ 28 + 1) (fuel : Nat) :
    ∃ heap', morecore narrowSbrk (fuel + 1) heap nunits (some 0) = some (heap', base) ∧
      Single base heap.top nunits heap' ∧ heap'.memory ⊆ [⟨heap.top, 1⟩] := by
  have isMore : moreUnits nunits = nunits := by
    refine BitVec.eq_of_toNat_eq ?_
    rw [moreUnits_toNat]
    unfold HEADER at large
    omega
  obtain ⟨grown, isGrown, samePtr, sameSize, sameFreep, little⟩ :=
    narrowSbrk_oversize noMemory large bound
  have isSize : update grown.size heap.top nunits base = 0 := by
    rw [update_of_ne (Nat.ne_of_lt behind), sameSize, size]
  obtain ⟨heap', isFreed, single, isMemory⟩ :=
    free_first { grown with size := update grown.size heap.top nunits } behind
      (by dsimp only; rw [samePtr, ptr]) isSize (update_self ..) (sameFreep.trans freep) fuel
  refine ⟨heap', ?_, single, isMemory ▸ little⟩
  rw [morecore, isMore, isGrown]
  dsimp only
  rw [isFreed, Option.map_some, single.freep]

/-- The first call of `malloc` with a size that does not fit: the pointer is not null, and there is
one unit of memory at most. -/
theorem malloc_oversize (isBase : 0 < base) (ptr : Nat → Nat) (size : Nat → BitVec 32)
    {nbytes : BitVec 32} (large : 2 ^ 31 ≤ HEADER * (unitsFor nbytes).toNat) (fuel : Nat) :
    ∃ heap, malloc narrowSbrk base (fuel + 2) [some 0] (start base ptr size 0).heap nbytes =
        some (heap, base + HEADER + HEADER) ∧
      heap.memory ⊆ [⟨base + HEADER, 1⟩] := by
  have isUnits := unitsFor_toNat nbytes
  have bound := nbytes.isLt
  have isReady : (start base ptr size 0).heap.ready base =
      { ptr := update ptr base base, size := update size base 0, freep := base, memory := [],
        top := base + HEADER } := if_pos rfl
  obtain ⟨heap, isMore, single, little⟩ := morecore_oversize
    ((start base ptr size 0).heap.ready base) (unitsFor nbytes)
    (by rw [isReady]; exact Nat.lt_add_of_pos_right HEADER_pos)
    (by rw [isReady]; exact update_self ..) (by rw [isReady]; exact update_self ..)
    (by rw [isReady]) (by rw [isReady]) large (by omega) fuel
  have tooSmall : ¬ unitsFor nbytes ≤ ((start base ptr size 0).heap.ready base).size base := by
    rw [isReady]
    dsimp only
    rw [update_self, BitVec.le_def, isUnits]
    exact Nat.not_succ_le_zero _
  obtain ⟨heap', taken, isMemory⟩ := single.mallocLoop fuel []
  have isFreep : ((start base ptr size 0).heap.ready base).freep = base := by rw [isReady]
  have isFirst : ((start base ptr size 0).heap.ready base).ptr base = base := by
    rw [isReady]
    exact update_self ..
  have isTop : ((start base ptr size 0).heap.ready base).top = base + HEADER := by rw [isReady]
  rw [isTop] at taken little
  refine ⟨heap', ?_, isMemory ▸ little⟩
  rw [malloc, isFreep, isFirst, mallocLoop, if_neg tooSmall, if_pos isFreep.symm]
  dsimp only [List.head?_cons, Option.join_some, List.tail_cons]
  rw [isMore]
  dsimp only
  rw [if_neg (Nat.ne_of_gt isBase)]
  exact taken

end Oversize

/-! ## All sizes -/

/-- `PHYSTOP - KERNBASE`: no process gets more. -/
def physicalMemory : Nat := 128 * 1024 * 1024

/-- The states of the heap of a program: in order, with no more memory than there is. -/
def HeapState (base : Nat) (s : State) : Prop :=
  Kept base s ∧ HEADER * total s.heap.memory ≤ physicalMemory

/-- `malloc` returns, and it returns 0 or a pointer to so many bytes of the memory from `sbrk`. -/
def Serves (base : Nat) (s : State) (answers : List (Option Nat)) (nbytes : BitVec 32) : Prop :=
  ∃ heap ap enough,
    (∀ fuel, malloc narrowSbrk base (fuel + enough) answers s.heap nbytes = some (heap, ap)) ∧
    (ap = 0 ∨ ∀ y, ap ≤ y → y < ap + nbytes.toNat → ∃ e ∈ heap.memory, e.Contains HEADER y)

section Sizes

variable {base : Nat} {s : State}

theorem HeapState.serves (heapState : HeapState base s) (isBase : 0 < base) {nbytes : BitVec 32}
    (fits : HEADER * (unitsFor nbytes).toNat < 2 ^ 31) (answers : List (Option Nat)) :
    Serves base s answers nbytes := by
  obtain ⟨kept, little⟩ := heapState
  obtain ⟨l, sound, -, isMemory⟩ := kept.ready isBase
  have isUnits := unitsFor_toNat nbytes
  have isMore := moreUnits_toNat (unitsFor nbytes)
  have small : total (s.heap.ready base).memory + (moreUnits (unitsFor nbytes)).toNat < 2 ^ 32 := by
    rw [isMemory]
    unfold HEADER at *
    unfold physicalMemory at little
    omega
  obtain ⟨heap, ap, l', used, sound', -, isResult, enough, ends⟩ :=
    sound.mallocLoop_ends isBase (show 0 < (unitsFor nbytes).toNat by omega) answers small
  refine ⟨heap, ap, enough, fun fuel => ?_, ?_⟩
  · rw [malloc_narrow fits]
    exact ends fuel
  · rcases isResult with ⟨isNull, -⟩ | ⟨a, rfl, rfl, isSize⟩
    · exact .inl isNull
    · refine .inr fun y above below => sound'.tiled.inside
        (List.mem_map_of_mem (List.mem_append_right l' List.mem_cons_self)) ⟨?_, ?_⟩
      · exact Nat.le_trans (Nat.le_add_right a HEADER) above
      · refine Nat.lt_of_lt_of_le below ?_
        dsimp only [Heap.block, Extent.finish]
        rw [isSize, isUnits]
        unfold HEADER
        omega

/-- **The sizes that `malloc` serves.** The argument of `sbrk` is the number of bytes, and `malloc`
returns 0 or enough memory in every state of the heap, if and only if the size is at most
`2 ^ 31 - 32`. -/
theorem malloc_serves_iff (base : Nat) (isBase : 0 < base) (nbytes : BitVec 32) :
    ((sbrkArgument (moreUnits (unitsFor nbytes))).toInt =
        HEADER * (moreUnits (unitsFor nbytes)).toNat ↔ nbytes.toNat ≤ 2 ^ 31 - 32) ∧
      ((∀ s answers, HeapState base s → Serves base s answers nbytes) ↔
        nbytes.toNat ≤ 2 ^ 31 - 32) := by
  have isUnits := unitsFor_toNat nbytes
  have isMore := moreUnits_toNat (unitsFor nbytes)
  have bound := nbytes.isLt
  have fits_iff : HEADER * (unitsFor nbytes).toNat < 2 ^ 31 ↔ nbytes.toNat ≤ 2 ^ 31 - 32 := by
    unfold HEADER
    omega
  constructor
  · rw [sbrkArgument_toInt_iff (by omega), ← fits_iff]
    unfold HEADER
    omega
  · rw [← fits_iff]
    refine ⟨fun serves => ?_, fun fits s answers heapState => heapState.serves isBase fits answers⟩
    by_contra large
    have heapState : HeapState base (start base (fun _ => 0) (fun _ => 0) 0) :=
      ⟨Kept.start .., Nat.zero_le _⟩
    obtain ⟨heap, ap, enough, ends, isNull | inMemory⟩ := serves _ [some 0] heapState
    all_goals
      obtain ⟨heap', isRun, little⟩ := malloc_oversize isBase (fun _ => 0) (fun _ => 0)
        (Nat.le_of_not_lt large) enough
      have ends' := ends 2
      rw [Nat.add_comm, isRun] at ends'
      cases ends'
    · unfold HEADER at isNull
      omega
    · obtain ⟨e, isPart, -, below⟩ := inMemory (base + HEADER + HEADER) (Nat.le_refl _)
        (by unfold HEADER at large; omega)
      rw [List.mem_singleton.mp (little isPart), Extent.finish, Nat.mul_one] at below
      exact Nat.lt_irrefl _ below

/-- The largest size that is served, at the first call. -/
theorem malloc_serves_iff_largest :
    Serves 4096 (start 4096 (fun _ => 0) (fun _ => 0) 0) [some 0] 2147483616 :=
  ((malloc_serves_iff 4096 (by decide) 2147483616).2.mpr (by decide)) _ [some 0]
    ⟨Kept.start .., Nat.zero_le _⟩

/-- `malloc(4294967295)` asks `sbrk` for 16 bytes: the pointer is not null, and no byte behind it is
in the memory. -/
theorem malloc_asks_for_sixteen :
    (sbrkArgument (moreUnits (unitsFor 4294967295))).toInt = 16 ∧
      (malloc narrowSbrk 4096 9 [some 0] (start 4096 (fun _ => 0) (fun _ => 0) 0).heap
        4294967295).map
        (fun result => (result.2, result.1.memory)) = some (4128, [⟨4112, 1⟩]) := by
  refine ⟨?_, ?_⟩ <;> decide +kernel

end Sizes

end Xv6.Umalloc
