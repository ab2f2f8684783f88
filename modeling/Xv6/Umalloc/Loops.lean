import Xv6.Umalloc.FreeList

/-!
Contract: the loops of `free` and `malloc` end, with the place in the list that they are for.

Owns: how far the search of `free` and the search of `malloc` go around the list, and what the two
functions and `morecore` do to the list.

Does not own: the runs of a program.
-/

namespace Xv6.Umalloc

open Extents Links Function

/-! ## A larger bound on the iterations changes nothing -/

section Bounds

variable {heap heap' : Heap} {bp p q ap fuel : Nat} {nu nunits : BitVec 32} {answer : Option Nat}
  {answers : List (Option Nat)} {grow : Sbrk} {result : Heap × Nat}

theorem freeLoop_mono (found : freeLoop heap bp fuel p = some q) (more : Nat) :
    freeLoop heap bp (fuel + more) p = some q := by
  induction fuel generalizing p with
  | zero => cases found
  | succ fuel ih =>
      rw [Nat.succ_add_eq_add_succ, Nat.add_succ]
      unfold freeLoop at found ⊢
      split
      · rename_i isBetween
        rwa [if_pos isBetween] at found
      · rename_i notBetween
        rw [if_neg notBetween] at found
        split
        · rename_i isEnd
          rwa [if_pos isEnd] at found
        · rename_i notEnd
          rw [if_neg notEnd] at found
          exact ih found

theorem free_mono (returned : free fuel heap ap = some heap') (more : Nat) :
    free (fuel + more) heap ap = some heap' := by
  obtain ⟨p, found, isHeap⟩ := Option.map_eq_some_iff.mp returned
  exact Option.map_eq_some_iff.mpr ⟨p, freeLoop_mono found more, isHeap⟩

theorem morecore_mono (returned : morecore grow fuel heap nu answer = some result) (more : Nat) :
    morecore grow (fuel + more) heap nu answer = some result := by
  unfold morecore at returned ⊢
  split
  · rename_i failed
    rwa [failed] at returned
  · rename_i hp grown answered
    rw [answered] at returned
    obtain ⟨freed, isFreed, isResult⟩ := Option.map_eq_some_iff.mp returned
    exact Option.map_eq_some_iff.mpr ⟨freed, free_mono isFreed more, isResult⟩

theorem mallocLoop_mono (returned : mallocLoop grow nunits fuel answers heap p q = some result)
    (more : Nat) :
    mallocLoop grow nunits (fuel + more) answers heap p q = some result := by
  induction fuel generalizing answers heap p q with
  | zero => cases returned
  | succ fuel ih =>
      rw [Nat.succ_add_eq_add_succ, Nat.add_succ]
      unfold mallocLoop at returned ⊢
      split
      · rename_i fits
        rwa [if_pos fits] at returned
      · rename_i tooSmall
        rw [if_neg tooSmall] at returned
        split
        · rename_i isStart
          rw [if_pos isStart] at returned
          split at returned
          · cases returned
          · rename_i grown next isMore
            rw [morecore_mono isMore more]
            dsimp only
            split
            · rename_i isNull
              rwa [if_pos isNull] at returned
            · rename_i notNull
              rw [if_neg notNull] at returned
              exact ih returned
        · rename_i notStart
          rw [if_neg notStart] at returned
          exact ih returned

end Bounds

/-! ## `free` -/

section Free

variable {base a b bp : Nat} {heap : Heap} {l used before after : List Nat}

theorem Listed.next_cons (listed : Listed base heap l used)
    (isList : base :: l = before ++ a :: b :: after) : heap.ptr a = b :=
  ((chain_rotate isList).mp listed.chain).1

theorem Listed.next_last (listed : Listed base heap l used) (isList : base :: l = before ++ [a]) :
    heap.ptr a = base := by
  have chain := (chain_rotate isList).mp listed.chain
  cases before with
  | nil =>
      obtain ⟨rfl, -⟩ := List.cons.inj isList
      exact chain
  | cons c before =>
      obtain ⟨rfl, -⟩ := List.cons.inj isList
      exact chain.1

theorem Listed.freeLoop_below (listed : Listed base heap l used) (above : base < bp)
    (fresh : bp ∉ l) (isList : base :: l = before ++ a :: after) (below : a < bp) :
    ∃ before' p after', base :: l = before' ++ p :: after' ∧ (∀ x ∈ before' ++ [p], x < bp) ∧
      (∀ y ∈ after', bp < y) ∧
      ∀ fuel, freeLoop heap bp (fuel + after.length + 1) a = some p := by
  have beforeBp : ∀ x ∈ before ++ [a], x < bp := by
    intro x member
    rcases List.mem_append.mp member with earlier | isA
    · exact Nat.lt_trans ((listed.around isList).1 x earlier) below
    · rw [List.mem_singleton.mp isA]
      exact below
  induction after generalizing before a with
  | nil =>
      refine ⟨before, a, [], isList, beforeBp, nofun, fun fuel => ?_⟩
      have isNext := listed.next_last isList
      have isPlace : a ∈ base :: l := isList ▸ List.mem_append_right _ List.mem_cons_self
      have least : base ≤ a := by
        rcases List.mem_cons.mp isPlace with rfl | isListed
        · exact Nat.le_refl _
        · exact Nat.le_of_lt ((List.pairwise_cons.mp listed.ascending).1 a isListed)
      unfold freeLoop
      rw [if_neg (by omega), if_pos (by omega)]
  | cons b after ih =>
      have isNext := listed.next_cons isList
      have later := (listed.around isList).2 b List.mem_cons_self
      have isListed := listed.mem_of_after isList List.mem_cons_self
      have isList' : base :: l = (before ++ [a]) ++ b :: after := by
        rw [isList, List.append_assoc]
        rfl
      have afterB := (listed.around isList').2
      by_cases isBetween : bp < b
      · refine ⟨before, a, b :: after, isList, beforeBp, ?_, fun fuel => ?_⟩
        · exact List.forall_mem_cons.mpr
            ⟨isBetween, fun y isAfter => Nat.lt_trans isBetween (afterB y isAfter)⟩
        · unfold freeLoop
          rw [if_pos (by omega)]
      · have other : b ≠ bp := by
          rintro rfl
          exact fresh isListed
        have belowB : b < bp := by omega
        obtain ⟨before', p, after', isList'', below', above', found⟩ :=
          ih isList' belowB (by
            intro x member
            rcases List.mem_append.mp member with earlier | isB
            · exact beforeBp x earlier
            · rw [List.mem_singleton.mp isB]
              exact belowB)
        refine ⟨before', p, after', isList'', below', above', fun fuel => ?_⟩
        unfold freeLoop
        rw [if_neg (by omega), if_neg (by omega), isNext]
        exact found fuel

theorem Listed.freeLoop_above (listed : Listed base heap l used) (above : base < bp)
    (isList : base :: l = before ++ a :: after) (isAbove : bp < a) (fuel : Nat) :
    freeLoop heap bp (fuel + after.length + 1) a = freeLoop heap bp fuel base := by
  induction after generalizing before a with
  | nil =>
      have isNext := listed.next_last isList
      rw [freeLoop, if_neg (by omega), if_neg (by omega), isNext]
      rfl
  | cons b after ih =>
      have isNext := listed.next_cons isList
      have later := (listed.around isList).2 b List.mem_cons_self
      have isList' : base :: l = (before ++ [a]) ++ b :: after := by
        rw [isList, List.append_assoc]
        rfl
      rw [freeLoop, if_neg (by omega), if_neg (by omega), isNext]
      exact ih isList' (Nat.lt_trans isAbove later)

theorem Sound.freeLoop_ends (sound : Sound base heap l (bp :: used)) :
    ∃ before p after, base :: l = before ++ p :: after ∧ (∀ x ∈ before ++ [p], x < bp) ∧
      (∀ y ∈ after, bp < y) ∧
      ∃ enough, ∀ fuel, freeLoop heap bp (fuel + enough) heap.freep = some p := by
  have above : base < bp := sound.base_lt (List.mem_append_right _ List.mem_cons_self)
  have fresh : bp ∉ l := fun isListed =>
    (List.nodup_append.mp sound.nodup).2.2 bp isListed bp List.mem_cons_self rfl
  obtain ⟨before, after, isList⟩ := List.append_of_mem sound.freep
  by_cases below : heap.freep < bp
  · obtain ⟨before', p, after', isList', below', above', found⟩ :=
      sound.freeLoop_below above fresh isList below
    exact ⟨before', p, after', isList', below', above', after.length + 1, found⟩
  · have other : heap.freep ≠ bp := by
      intro same
      rcases List.mem_cons.mp sound.freep with isBase | isListed
      · omega
      · exact fresh (same ▸ isListed)
    obtain ⟨before', p, after', isList', below', above', found⟩ :=
      sound.freeLoop_below above fresh (show base :: l = [] ++ base :: l from rfl) above
    refine ⟨before', p, after', isList', below', above', l.length + 1 + (after.length + 1), ?_⟩
    intro fuel
    rw [← Nat.add_assoc, ← Nat.add_assoc, ← Nat.add_assoc,
      sound.freeLoop_above above isList (by omega)]
    exact found fuel

/-- **`free` returns**, and the block is free then: the list has a block that is as large. -/
theorem Sound.free_ends (sound : Sound base heap l (bp :: used)) :
    ∃ heap' l', Sound base heap' l' used ∧
      (∃ c ∈ base :: l', (heap.size bp).toNat ≤ (heap'.size c).toNat) ∧
      (∀ x ∈ used, heap'.size x = heap.size x) ∧
      ∃ enough, ∀ fuel, free (fuel + enough) heap (bp + HEADER) = some heap' := by
  obtain ⟨before, p, after, isList, below, above, enough, found⟩ := sound.freeLoop_ends
  obtain ⟨l', sound', larger, same⟩ := sound.insert isList below above
  refine ⟨_, l', sound', larger, same, enough, fun fuel => ?_⟩
  rw [free, Nat.add_sub_cancel, found fuel]
  rfl

end Free

/-! ## `malloc` -/

section Malloc

variable {base : Nat} {heap : Heap} {l used : List Nat} {nunits : BitVec 32}

/-- The heap when `sbrk` has given memory and its header has been written. -/
def Heap.grown (heap : Heap) (gap : Nat) (nu : BitVec 32) : Heap :=
  { heap with size := update heap.size (heap.top + gap) nu
              memory := ⟨heap.top + gap, nu.toNat⟩ :: heap.memory
              top := heap.top + gap + HEADER * nu.toNat }

theorem Sound.grow (sound : Sound base heap l used) (gap : Nat) {nu : BitVec 32}
    (positive : 0 < nu.toNat) (small : total heap.memory + nu.toNat < 2 ^ 32) :
    Sound base (heap.grown gap nu) l ((heap.top + gap) :: used) ∧
      ∀ x ∈ used, (heap.grown gap nu).size x = heap.size x := by
  have room := sound.room
  have header := HEADER_pos
  -- All blocks end below the top.
  have below : ∀ x ∈ l ++ used, x < heap.top := by
    intro x isBlock
    have long := sound.lt_finish isBlock
    obtain ⟨e, isMemory, contains⟩ := sound.tiled.inside (List.mem_map_of_mem isBlock)
      (show (heap.block x).Contains HEADER x from ⟨Nat.le_refl x, long⟩)
    exact Nat.lt_of_lt_of_le contains.2 (sound.inside e isMemory).2
  have others : ∀ x ∈ base :: (l ++ used), (heap.grown gap nu).size x = heap.size x := by
    intro x member
    refine update_of_ne ?_ _ _
    rcases List.mem_cons.mp member with rfl | isBlock
    · omega
    · have isBelow := below x isBlock
      omega
  have ofBlock : ∀ x ∈ l ++ used, (heap.grown gap nu).size x = heap.size x :=
    fun x isBlock => others x (List.mem_cons_of_mem _ isBlock)
  have isSize : (heap.grown gap nu).size (heap.top + gap) = nu := update_self ..
  refine ⟨{
    chain := sound.chain
    ascending := sound.ascending
    isBase := (others base List.mem_cons_self).trans sound.isBase
    nonempty := ?nonempty
    tiled := ?tiled
    simple := sound.simple.cons fun f member => ?simple
    inside := ?inside
    room := ?room
    small := ?small
    spaced := ?spaced
    freep := sound.freep }, fun x isUsed => ofBlock x (List.mem_append_right _ isUsed)⟩
  case nonempty =>
    intro x member
    rcases List.mem_cons.mp (List.perm_middle.mem_iff.mp member) with rfl | isBlock
    · rw [isSize]
      exact positive
    · rw [ofBlock x isBlock]
      exact sound.nonempty x isBlock
  case tiled =>
    have sameBlocks : (l ++ used).map (heap.grown gap nu).block = (l ++ used).map heap.block :=
      List.map_congr_left fun x isBlock => by rw [Heap.block, Heap.block, ofBlock x isBlock]
    refine Tiles.perm ?_ (List.perm_middle.map _)
    rw [List.map_cons, sameBlocks, Heap.block, isSize]
    exact sound.tiled.grow _
  case simple =>
    have isBelow := (sound.inside f member).2
    dsimp only
    omega
  case inside =>
    refine List.forall_mem_cons.mpr ⟨⟨?_, Nat.le_refl _⟩, fun e member => ?_⟩
    · dsimp only
      omega
    · obtain ⟨isAbove, isBelow⟩ := sound.inside e member
      refine ⟨isAbove, ?_⟩
      dsimp only [Heap.grown]
      omega
  case room =>
    dsimp only [Heap.grown]
    omega
  case small =>
    dsimp only [Heap.grown]
    rw [total_cons]
    dsimp only
    omega
  case spaced =>
    refine sound.spaced.imp_of_mem fun {x y} member _ isBelow => ?_
    rw [Heap.finish, others x (mem_of_ring used member)]
    exact isBelow

theorem moreUnits_toNat (nu : BitVec 32) : (moreUnits nu).toNat = max nu.toNat 4096 := by
  unfold moreUnits
  split
  · rename_i few
    have few : nu.toNat < 4096 := few
    exact (Nat.max_eq_right (Nat.le_of_lt few)).symm
  · rename_i many
    have many : ¬ nu.toNat < 4096 := many
    exact (Nat.max_eq_left (Nat.le_of_not_lt many)).symm

/-- `morecore` puts a block into the list that is large enough. -/
theorem Sound.morecore_ends (sound : Sound base heap l used) (gap : Nat)
    (small : total heap.memory + (moreUnits nunits).toNat < 2 ^ 32) :
    ∃ heap' l', Sound base heap' l' used ∧ (∃ c ∈ base :: l', nunits ≤ heap'.size c) ∧
      (∀ x ∈ used, heap'.size x = heap.size x) ∧
      ∃ enough, ∀ fuel, morecore sbrk (fuel + enough) heap nunits (some gap) =
        some (heap', heap'.freep) := by
  have isUnits := moreUnits_toNat nunits
  obtain ⟨grown, others⟩ := sound.grow gap (by omega) small
  obtain ⟨heap', l', sound', ⟨c, isListed, larger⟩, same, enough, freed⟩ := grown.free_ends
  refine ⟨heap', l', sound', ⟨c, isListed, ?_⟩, fun x isUsed => ?_, enough, fun fuel => ?_⟩
  · have isSize : (heap.grown gap (moreUnits nunits)).size (heap.top + gap) = moreUnits nunits :=
      update_self ..
    rw [isSize] at larger
    exact (show nunits.toNat ≤ (heap'.size c).toNat by omega)
  · exact (same x isUsed).trans (others x isUsed)
  · simp only [morecore, sbrk, Option.map_some]
    exact congrArg (Option.map _) (freed fuel)

/-- The search of `malloc` up to `freep`: it ends at the first block that is large enough, or asks
for more memory. -/
theorem mallocLoop_walk (answers : List (Option Nat)) {a : Nat} {r : List Nat}
    (chain : Chain heap.ptr a r heap.freep) (fresh : heap.freep ∉ r) :
    (∃ prevp ∈ a :: r, nunits ≤ heap.size (heap.ptr prevp) ∧
      ∀ fuel, mallocLoop sbrk nunits (fuel + r.length + 1) answers heap a (heap.ptr a) =
        some (take heap prevp (heap.ptr prevp) nunits)) ∨
    ((∀ c ∈ heap.freep :: r, ¬ nunits ≤ heap.size c) ∧
      ∀ fuel, mallocLoop sbrk nunits (fuel + r.length + 1) answers heap a (heap.ptr a) =
        mallocLoop sbrk nunits (fuel + 1) answers heap heap.freep heap.freep) := by
  induction r generalizing a with
  | nil =>
      have isStart : heap.ptr a = heap.freep := chain
      by_cases fits : nunits ≤ heap.size heap.freep
      · refine .inl ⟨a, List.mem_cons_self, isStart ▸ fits, fun fuel => ?_⟩
        rw [mallocLoop, if_pos (isStart ▸ fits)]
      · refine .inr ⟨?_, fun fuel => ?_⟩
        · intro c member
          rw [List.mem_singleton.mp member]
          exact fits
        · rw [isStart, List.length_nil, Nat.add_zero, mallocLoop, mallocLoop, if_neg fits,
            if_neg fits]
  | cons b r ih =>
      obtain ⟨isNext, chain⟩ := chain
      obtain ⟨notStart, fresh⟩ := not_or.mp (mt List.mem_cons.mpr fresh)
      by_cases fits : nunits ≤ heap.size b
      · refine .inl ⟨a, List.mem_cons_self, isNext ▸ fits, fun fuel => ?_⟩
        rw [mallocLoop, if_pos (isNext ▸ fits)]
      · have goesOn : ∀ fuel, mallocLoop sbrk nunits (fuel + (b :: r).length + 1) answers heap a
            (heap.ptr a) = mallocLoop sbrk nunits (fuel + r.length + 1) answers heap b
            (heap.ptr b) := by
          intro fuel
          rw [isNext, mallocLoop, if_neg fits, if_neg (Ne.symm notStart)]
          rfl
        rcases ih chain fresh with ⟨prevp, isPlace, fits', found⟩ | ⟨small, found⟩
        · exact .inl ⟨prevp, List.mem_cons_of_mem _ isPlace, fits', fun fuel =>
            (goesOn fuel).trans (found fuel)⟩
        · refine .inr ⟨fun c member => ?_, fun fuel => (goesOn fuel).trans (found fuel)⟩
          simp only [List.mem_cons] at member small
          grind

theorem Sound.mallocLoop_around (sound : Sound base heap l used) (positive : 0 < nunits.toNat)
    (answers : List (Option Nat)) :
    (∃ heap' l' a, Sound base heap' l' (a :: used) ∧ heap'.size a = nunits ∧
      (∀ x ∈ used, heap'.size x = heap.size x) ∧
      ∃ enough, ∀ fuel, mallocLoop sbrk nunits (fuel + enough) answers heap heap.freep
        (heap.ptr heap.freep) = some (heap', a + HEADER)) ∨
    ((∀ c ∈ base :: l, ¬ nunits ≤ heap.size c) ∧
      ∃ enough, ∀ fuel, mallocLoop sbrk nunits (fuel + enough) answers heap heap.freep
        (heap.ptr heap.freep) =
          mallocLoop sbrk nunits (fuel + 1) answers heap heap.freep heap.freep) := by
  obtain ⟨before, after, isList⟩ := List.append_of_mem sound.freep
  have around : (heap.freep :: (after ++ before)).Perm (base :: l) := by
    rw [isList]
    exact (List.perm_append_comm.cons _).trans List.perm_middle.symm
  have fresh : heap.freep ∉ after ++ before :=
    (List.nodup_cons.mp (around.nodup_iff.mpr (sound.ascending.imp Nat.ne_of_lt))).1
  rcases mallocLoop_walk answers ((chain_rotate isList).mp sound.chain) fresh with
    ⟨prevp, isPlace, fits, found⟩ | ⟨tooSmall, found⟩
  · obtain ⟨l', a, isResult, sound', isSize, same⟩ :=
      sound.take (around.mem_iff.mp isPlace) fits positive
    refine .inl ⟨_, l', a, sound', isSize, same, (after ++ before).length + 1,
      fun fuel => (found fuel).trans ?_⟩
    rw [← isResult]
  · exact .inr ⟨fun c member => tooSmall c (around.mem_iff.mpr member),
      (after ++ before).length + 1, found⟩

/-- The search is back at `freep` and found nothing: `malloc` asks for memory. -/
theorem mallocLoop_asks (fuel : Nat) (answers : List (Option Nat))
    (tooSmall : ¬ nunits ≤ heap.size heap.freep) :
    mallocLoop sbrk nunits (fuel + 1) answers heap heap.freep heap.freep =
      match morecore sbrk fuel heap nunits answers.head?.join with
      | none => none
      | some (heap, p) =>
          if p = 0 then some (heap, 0)
          else mallocLoop sbrk nunits fuel answers.tail heap p (heap.ptr p) := by
  rw [mallocLoop, if_neg tooSmall]
  exact if_pos rfl

/-- **`malloc` returns**: a block of the size asked for, or the null pointer with the list as it
was. -/
theorem Sound.mallocLoop_ends (sound : Sound base heap l used) (isBase : 0 < base)
    (positive : 0 < nunits.toNat) (answers : List (Option Nat))
    (small : total heap.memory + (moreUnits nunits).toNat < 2 ^ 32) :
    ∃ heap' ap l' used', Sound base heap' l' used' ∧ (∀ x ∈ used, heap'.size x = heap.size x) ∧
      (ap = 0 ∧ used' = used ∨
        ∃ a, ap = a + HEADER ∧ used' = a :: used ∧ heap'.size a = nunits) ∧
      ∃ enough, ∀ fuel, mallocLoop sbrk nunits (fuel + enough) answers heap heap.freep
        (heap.ptr heap.freep) = some (heap', ap) := by
  rcases sound.mallocLoop_around positive answers with
    ⟨heap', l', a, sound', isSize, same, ends⟩ | ⟨tooSmall, enough, found⟩
  · exact ⟨heap', _, l', _, sound', same, .inr ⟨a, rfl, rfl, isSize⟩, ends⟩
  have asks := fun fuel => mallocLoop_asks fuel answers (tooSmall _ sound.freep)
  cases isAnswer : answers.head?.join with
  | none =>
      refine ⟨heap, 0, l, used, sound, fun _ _ => rfl, .inl ⟨rfl, rfl⟩, enough, fun fuel => ?_⟩
      rw [found, asks, isAnswer]
      rfl
  | some gap =>
      obtain ⟨grown, l₁, sound₁, ⟨c, isListed, fits⟩, same₁, enough₁, more⟩ :=
        sound.morecore_ends gap small
      rcases sound₁.mallocLoop_around positive answers.tail with
        ⟨heap', l', a, sound', isSize, same, enough₂, ends⟩ | ⟨tooSmall', -⟩
      · refine ⟨heap', _, l', _, sound', fun x isUsed => (same x isUsed).trans (same₁ x isUsed),
          .inr ⟨a, rfl, rfl, isSize⟩, enough₁ + enough₂ + enough, fun fuel => ?_⟩
        have notNull : grown.freep ≠ 0 := by
          rcases List.mem_cons.mp sound₁.freep with isStart | isListed'
          · omega
          · have above := sound₁.base_lt (List.mem_append_left used isListed')
            omega
        have more' := more (fuel + enough₂)
        have ends' := ends (fuel + enough₁)
        rw [← Nat.add_assoc, found, asks, isAnswer,
          show fuel + (enough₁ + enough₂) = fuel + enough₂ + enough₁ by omega, more']
        dsimp only
        rw [if_neg notNull, ← ends']
        congr 1
        omega
      · exact absurd fits (tooSmall' c isListed)

end Malloc

end Xv6.Umalloc
