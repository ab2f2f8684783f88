import Xv6.Umalloc.Loops

/-!
Contract: the blocks of a program that uses `malloc` and `free`, over whole runs.

Owns: the invariant of the runs, that every call returns, and the size at which the header's
`uint size` overflows.

Does not own: what a single call does to the list.
-/

namespace Xv6.Umalloc

open Extents Links Runs

/-- Before the first call of `malloc`. -/
structure Untouched (base : Nat) (s : State) : Prop where
  freep : s.heap.freep = 0
  memory : s.heap.memory = []
  allocated : s.allocated = []
  room : base + HEADER ≤ s.heap.top

/-- The blocks of the program are in use, and each has the bytes that were asked for. -/
structure Ordered (base : Nat) (s : State) (l : List Nat) : Prop
    extends Sound base s.heap l (s.allocated.map Prod.fst) where
  served : ∀ block ∈ s.allocated, block.2 + HEADER ≤ HEADER * (s.heap.size block.1).toNat

def Kept (base : Nat) (s : State) : Prop :=
  Untouched base s ∨ ∃ l, Ordered base s l

section Steps

variable {base ap fuel : Nat} {s s' : State}

theorem Ordered.freep_ne_zero {l : List Nat} (ordered : Ordered base s l) (isBase : 0 < base) :
    s.heap.freep ≠ 0 := by
  rcases List.mem_cons.mp ordered.freep with isStart | isListed
  · omega
  · have above := ordered.base_lt (List.mem_append_left _ isListed)
    omega

theorem Kept.start (base : Nat) (ptr : Nat → Nat) (size : Nat → BitVec 32) (gap : Nat) :
    Kept base (start base ptr size gap) :=
  .inl ⟨rfl, rfl, rfl, Nat.le_add_right _ _⟩

/-- `malloc` finds a list, if only the one it makes at the first call. -/
theorem Kept.ready (kept : Kept base s) (isBase : 0 < base) :
    ∃ l, Sound base (s.heap.ready base) l (s.allocated.map Prod.fst) ∧
      (∀ block ∈ s.allocated, block.2 + HEADER ≤
        HEADER * ((s.heap.ready base).size block.1).toNat) ∧
      (s.heap.ready base).memory = s.heap.memory := by
  rcases kept with untouched | ⟨l, ordered⟩
  · have isReady : s.heap.ready base = { s.heap with
        ptr := Function.update s.heap.ptr base base, size := Function.update s.heap.size base 0,
        freep := base } := if_pos untouched.freep
    rw [isReady, untouched.allocated]
    refine ⟨[], {
      chain := Function.update_self ..
      ascending := List.pairwise_singleton _ _
      isBase := Function.update_self ..
      nonempty := nofun
      tiled := ?_
      simple := ?_
      inside := ?_
      room := untouched.room
      small := ?_
      spaced := List.pairwise_singleton _ _
      freep := List.mem_cons_self }, nofun, rfl⟩
    all_goals dsimp only
    all_goals rw [untouched.memory]
    · exact ⟨fun _ => rfl, rfl⟩
    · exact fun _ => Nat.zero_le 1
    · exact nofun
    · exact Nat.two_pow_pos 32
  · have isReady : s.heap.ready base = s.heap := if_neg (ordered.freep_ne_zero isBase)
    rw [isReady]
    exact ⟨l, ordered.toSound, ordered.served, rfl⟩

theorem unitsFor_toNat (nbytes : BitVec 32) :
    (unitsFor nbytes).toNat = (nbytes.toNat + 15) / 16 + 1 := by
  have bound := nbytes.isLt
  rw [unitsFor, BitVec.toNat_ofNat, HEADER]
  exact Nat.mod_eq_of_lt (by omega)

/-- **`malloc` returns and keeps the heap in order**, as long as the memory is small. -/
theorem Kept.malloc (kept : Kept base s) (isBase : 0 < base) (nbytes : BitVec 32)
    (answers : List (Option Nat))
    (small : total s.heap.memory + (moreUnits (unitsFor nbytes)).toNat < 2 ^ 32) :
    ∃ s', Kept base s' ∧
      ∃ enough, ∀ fuel, step base s (.malloc nbytes answers (fuel + enough)) = some s' := by
  obtain ⟨l, sound, served, isMemory⟩ := kept.ready isBase
  have isUnits := unitsFor_toNat nbytes
  obtain ⟨heap', ap, l', used', sound', same, isResult, enough, ends⟩ :=
    sound.mallocLoop_ends isBase (show 0 < (unitsFor nbytes).toNat by omega) answers
      (isMemory ▸ small)
  have stillServed : ∀ block ∈ s.allocated, block.2 + HEADER ≤
      HEADER * (heap'.size block.1).toNat := by
    intro block isBlock
    rw [same block.1 (List.mem_map_of_mem isBlock)]
    exact served block isBlock
  refine ⟨_, ?_, enough, fun fuel => congrArg (Option.map _) (ends fuel)⟩
  rcases isResult with ⟨rfl, rfl⟩ | ⟨a, rfl, rfl, isSize⟩
  · exact .inr ⟨l', { sound' with served := stillServed }⟩
  · have notNull : a + HEADER ≠ 0 := Nat.ne_of_gt (Nat.add_pos_right a HEADER_pos)
    dsimp only
    rw [if_neg notNull, Nat.add_sub_cancel]
    refine .inr ⟨l', { sound' with served := List.forall_mem_cons.mpr ⟨?_, stillServed⟩ }⟩
    dsimp only
    rw [isSize, isUnits, HEADER]
    omega

theorem Kept.free (kept : Kept base s) (isOwn : ∃ block ∈ s.allocated, block.1 + HEADER = ap) :
    ∃ s', Kept base s' ∧
      ∃ enough, ∀ fuel, step base s (.free ap (fuel + enough)) = some s' := by
  rcases kept with untouched | ⟨l, ordered⟩
  · rw [untouched.allocated] at isOwn
    obtain ⟨block, isBlock, -⟩ := isOwn
    cases isBlock
  obtain ⟨block, before, after, -, isAp, isList, isErased⟩ :=
    List.exists_of_eraseP (p := fun block => decide (block.1 + HEADER = ap))
      isOwn.choose_spec.1 (decide_eq_true isOwn.choose_spec.2)
  have isAp := of_decide_eq_true isAp
  have sound := ordered.toSound
  have same : (s.allocated.map Prod.fst).Perm (block.1 :: (before ++ after).map Prod.fst) := by
    rw [isList]
    exact List.perm_middle.map Prod.fst
  obtain ⟨heap', l', sound', -, sameSize, enough, freed⟩ := (sound.permute same).free_ends
  refine ⟨⟨heap', before ++ after⟩, .inr ⟨l', { sound' with served := ?_ }⟩, enough,
    fun fuel => ?_⟩
  · intro other isOther
    rw [sameSize other.1 (List.mem_map_of_mem isOther)]
    refine ordered.served other ?_
    rw [isList]
    exact List.perm_middle.mem_iff.mpr (List.mem_cons_of_mem _ isOther)
  · rw [step, if_pos isOwn, ← isAp, freed fuel, ← isErased]
    rw [isAp]
    rfl

theorem Kept.write (kept : Kept base s) (ptr : Nat → Nat) (size : Nat → BitVec 32)
    (stepped : step base s (.write ptr size) = some s') : Kept base s' := by
  cases stepped
  rcases kept with untouched | ⟨l, ordered⟩
  · exact .inl ⟨untouched.freep, untouched.memory, untouched.allocated, untouched.room⟩
  have safe : ∀ x ∈ base :: (l ++ s.allocated.map Prod.fst), ¬ s.Writable x := by
    rintro x member ⟨block, isBlock, above, below⟩
    have isUsed : block.1 ∈ l ++ s.allocated.map Prod.fst :=
      List.mem_append_right _ (List.mem_map_of_mem isBlock)
    rcases List.mem_cons.mp member with rfl | isBlock'
    · have later := ordered.base_lt isUsed
      omega
    · rcases ordered.apart isBlock' isUsed (Nat.ne_of_gt above) with before | after
      · have long := ordered.lt_finish isBlock'
        omega
      · omega
  have sameSize : ∀ x ∈ base :: (l ++ s.allocated.map Prod.fst),
      (if s.Writable x then size x else s.heap.size x) = s.heap.size x :=
    fun x member => if_neg (safe x member)
  have sound : Sound base { s.heap with
      ptr := fun x => if s.Writable x then ptr x else s.heap.ptr x,
      size := fun x => if s.Writable x then size x else s.heap.size x } l
      (s.allocated.map Prod.fst) :=
    ordered.toSound.congr rfl rfl rfl
      (fun x member => if_neg (safe x (mem_of_ring _ member))) sameSize
  refine .inr ⟨l, { sound with served := fun block isBlock => ?_ }⟩
  dsimp only
  rw [sameSize block.1 (List.mem_cons_of_mem _
    (List.mem_append_right _ (List.mem_map_of_mem isBlock)))]
  exact ordered.served block isBlock

/-! ## Whole runs -/

theorem step_malloc_mono {nbytes : BitVec 32} {answers : List (Option Nat)}
    (stepped : step base s (.malloc nbytes answers fuel) = some s') (more : Nat) :
    step base s (.malloc nbytes answers (fuel + more)) = some s' := by
  obtain ⟨result, returned, isState⟩ := Option.map_eq_some_iff.mp stepped
  exact Option.map_eq_some_iff.mpr ⟨result, mallocLoop_mono returned more, isState⟩

theorem step_free_mono (stepped : step base s (.free ap fuel) = some s') (more : Nat) :
    step base s (.free ap (fuel + more)) = some s' := by
  by_cases isOwn : ∃ block ∈ s.allocated, block.1 + HEADER = ap
  · rw [step, if_pos isOwn] at stepped ⊢
    obtain ⟨heap, returned, isState⟩ := Option.map_eq_some_iff.mp stepped
    exact Option.map_eq_some_iff.mpr ⟨heap, free_mono returned more, isState⟩
  · rw [step, if_neg isOwn] at stepped
    cases stepped

/-- `nunits * sizeof(Header)` fits the argument of `sbrk`. -/
def Legal (_ : State) : Action → Prop
  | .malloc nbytes _ _ => HEADER * (unitsFor nbytes).toNat < 2 ^ 31
  | .free .. | .write .. => True

/-- The memory has fewer than `2 ^ 32` units, also with what the call may ask for. -/
def Fits (s : State) : Action → Prop
  | .malloc nbytes _ _ => total s.heap.memory + (moreUnits (unitsFor nbytes)).toNat < 2 ^ 32
  | .free .. | .write .. => True

instance (s : State) (action : Action) : Decidable (Legal s action) :=
  match action with
  | .malloc .. => inferInstanceAs (Decidable (_ < _))
  | .free .. | .write .. => inferInstanceAs (Decidable True)

instance (s : State) (action : Action) : Decidable (Fits s action) :=
  match action with
  | .malloc .. => inferInstanceAs (Decidable (_ < _))
  | .free .. | .write .. => inferInstanceAs (Decidable True)

theorem step_kept {action : Action} (kept : Kept base s) (isBase : 0 < base)
    (fits : Fits s action) (stepped : step base s action = some s') : Kept base s' := by
  cases action with
  | malloc nbytes answers fuel =>
      obtain ⟨s'', kept', enough, ends⟩ := kept.malloc isBase nbytes answers fits
      have same := (step_malloc_mono stepped enough).symm.trans (ends fuel)
      rw [Option.some_inj.mp same]
      exact kept'
  | free ap fuel =>
      have isOwn : ∃ block ∈ s.allocated, block.1 + HEADER = ap := by
        by_contra notOwn
        rw [step, if_neg notOwn] at stepped
        cases stepped
      obtain ⟨s'', kept', enough, ends⟩ := kept.free isOwn
      have same := (step_free_mono stepped enough).symm.trans (ends fuel)
      rw [Option.some_inj.mp same]
      exact kept'
  | write ptr size => exact kept.write ptr size stepped

theorem total_blocks (heap : Heap) (l : List Nat) :
    total (l.map heap.block) = (l.map fun a => (heap.size a).toNat).sum := by
  rw [total, List.map_map]
  rfl

end Steps

/-- **The user heap stays in order** in every run whose memory has fewer than `2 ^ 32` units. The
free list is a ring through `base`, in ascending order, of blocks with a gap between any two. The
blocks that the program has are disjoint, have the bytes asked for and lie in memory from `sbrk`.
All units are free or allocated, and every call returns. -/
theorem heap_in_order (base : Nat) (isBase : 0 < base) (ptr : Nat → Nat) (size : Nat → BitVec 32)
    (gap : Nat) (s : State)
    (reachable : Reachable (step base) (fun s action => Legal s action ∧ Fits s action)
      (start base ptr size gap) s) :
    ∃ l : List Nat,
      (s.heap.freep = 0 ∧ l = [] ∨
        Chain s.heap.ptr base l base ∧ s.heap.freep ∈ base :: l ∧ s.heap.size base = 0) ∧
      (∀ a ∈ l, base + HEADER ≤ a) ∧ (l.Pairwise fun a b => s.heap.finish a < b) ∧
      (s.allocated.Pairwise fun x y =>
        s.heap.finish x.1 ≤ y.1 ∨ s.heap.finish y.1 ≤ x.1) ∧
      (∀ a ∈ l, ∀ x ∈ s.allocated, s.heap.finish a ≤ x.1 ∨ s.heap.finish x.1 ≤ a) ∧
      (∀ x ∈ s.allocated, x.1 + HEADER + x.2 ≤ s.heap.finish x.1 ∧
        ∀ y, x.1 ≤ y → y < s.heap.finish x.1 → ∃ e ∈ s.heap.memory, e.Contains HEADER y) ∧
      (l.map fun a => (s.heap.size a).toNat).sum +
        (s.allocated.map fun x => (s.heap.size x.1).toNat).sum = total s.heap.memory ∧
      (∀ nbytes answers, Fits s (.malloc nbytes answers 0) →
        ∃ enough, ∀ fuel, (step base s (.malloc nbytes answers (fuel + enough))).isSome) ∧
      (∀ x ∈ s.allocated,
        ∃ enough, ∀ fuel, (step base s (.free (x.1 + HEADER) (fuel + enough))).isSome) := by
  have kept : Kept base s := reachable.invariant (Kept.start base ptr size gap)
    fun _ _ _ kept isAllowed stepped => step_kept kept isBase isAllowed.2 stepped
  have mallocEnds : ∀ nbytes answers, Fits s (.malloc nbytes answers 0) →
      ∃ enough, ∀ fuel, (step base s (.malloc nbytes answers (fuel + enough))).isSome := by
    intro nbytes answers fits
    obtain ⟨s', -, enough, ends⟩ := kept.malloc isBase nbytes answers fits
    exact ⟨enough, fun fuel => Option.isSome_of_eq_some (ends fuel)⟩
  have freeEnds : ∀ x ∈ s.allocated,
      ∃ enough, ∀ fuel, (step base s (.free (x.1 + HEADER) (fuel + enough))).isSome := by
    intro x isBlock
    obtain ⟨s', -, enough, ends⟩ := kept.free ⟨x, isBlock, rfl⟩
    exact ⟨enough, fun fuel => Option.isSome_of_eq_some (ends fuel)⟩
  rcases kept with untouched | ⟨l, ordered⟩
  · refine ⟨[], .inl ⟨untouched.freep, rfl⟩, nofun, .nil, ?_, nofun, ?_, ?_, mallocEnds, freeEnds⟩
    · rw [untouched.allocated]
      exact .nil
    · rw [untouched.allocated]
      exact nofun
    · rw [untouched.allocated, untouched.memory]
      rfl
  have isUsed : ∀ x ∈ s.allocated, x.1 ∈ l ++ s.allocated.map Prod.fst :=
    fun x isBlock => List.mem_append_right _ (List.mem_map_of_mem isBlock)
  have isFree : ∀ a ∈ l, a ∈ l ++ s.allocated.map Prod.fst :=
    fun a isListed => List.mem_append_left _ isListed
  refine ⟨l, .inr ⟨ordered.chain, ordered.freep, ordered.isBase⟩, ?_,
    (List.pairwise_cons.mp ordered.spaced).2, ?_, ?_, ?_, ?_, mallocEnds, freeEnds⟩
  · exact fun a isListed => ordered.above (isFree a isListed)
  · exact List.pairwise_map.mp (List.pairwise_append.mp ordered.blocks).2.1
  · intro a isListed x isBlock
    refine ordered.apart (isFree a isListed) (isUsed x isBlock) ?_
    rintro rfl
    exact (List.nodup_append.mp ordered.nodup).2.2 x.1 isListed x.1
      (List.mem_map_of_mem isBlock) rfl
  · intro x isBlock
    refine ⟨?_, fun y above below => ?_⟩
    · have served := ordered.served x isBlock
      rw [Heap.finish]
      omega
    · exact ordered.tiled.inside (List.mem_map_of_mem (isUsed x isBlock)) ⟨above, below⟩
  · rw [← ordered.tiled.total, total_blocks, List.map_append, List.sum_append, List.map_map]
    rfl

/-- Two blocks are allocated, the first is freed and its place is used again. -/
theorem heap_in_order_reuse :
    ∃ s : State, s.allocated = [(69616, 3), (69488, 100)] ∧
      ∃ l : List Nat, (l.map fun a => (s.heap.size a).toNat).sum +
        (s.allocated.map fun x => (s.heap.size x.1).toNat).sum = total s.heap.memory := by
  obtain ⟨s, reachable, shown⟩ := exists_of_follow (step 4096)
    (fun s action => Legal s action ∧ Fits s action) (start 4096 (fun _ => 0) (fun _ => 0) 0)
    [.malloc 10 [some 0] 10, .malloc 100 [] 10, .free 69632 10, .malloc 3 [] 10]
    (fun s => s.allocated = [(69616, 3), (69488, 100)]) (by decide +kernel)
  obtain ⟨l, -, -, -, -, -, -, units, -⟩ :=
    heap_in_order 4096 (by decide) (fun _ => 0) (fun _ => 0) 0 s reachable
  exact ⟨s, shown, l, units⟩

/-- 33 blocks of almost 2 GiB, one behind the other, all freed again: the header of the one block
that is left lacks `2 ^ 32` units. -/
theorem size_overflows :
    ∃ s : State, Reachable (step 4096) Legal (start 4096 (fun _ => 0) (fun _ => 0) 0) s ∧
      s.allocated = [] ∧ Chain s.heap.ptr 4096 [4112] 4096 ∧
      (s.heap.size 4112).toNat + 2 ^ 32 = total s.heap.memory := by
  obtain ⟨s, reachable, isEmpty, isFirst, isLast, isSize⟩ := exists_of_follow (step 4096) Legal
    (start 4096 (fun _ => 0) (fun _ => 0) 0)
    (List.replicate 33 (.malloc 2147483616 [some 0] 10) ++
      (List.range 33).map fun i => .free (4112 + 16 + i * 2147483632) 10)
    (fun s => s.allocated = [] ∧ s.heap.ptr 4096 = 4112 ∧ s.heap.ptr 4112 = 4096 ∧
      (s.heap.size 4112).toNat + 2 ^ 32 = total s.heap.memory) (by decide +kernel)
  exact ⟨s, reachable, isEmpty, ⟨isFirst, isLast⟩, isSize⟩

end Xv6.Umalloc
