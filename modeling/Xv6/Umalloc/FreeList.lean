import Xv6.Links.Chain
import Xv6.Umalloc.Machine

/-!
Contract: the list of free blocks of `umalloc.c` and the blocks in use tile the memory from
`sbrk`.

Owns: that invariant, and what putting a block into the list, merging two neighbours and taking a
block out do to it.

Does not own: the loops that find the place in the list.
-/

namespace Xv6.Umalloc

open Extents Links Function

def Heap.block (heap : Heap) (a : Nat) : Extent :=
  ⟨a, (heap.size a).toNat⟩

/-- The list is a ring through `base` in ascending order, and its blocks and those in use tile the
memory. The sizes of the blocks cannot overflow, so little memory there is. -/
structure Listed (base : Nat) (heap : Heap) (l used : List Nat) : Prop where
  chain : Chain heap.ptr base l base
  ascending : (base :: l).Pairwise (· < ·)
  isBase : heap.size base = 0
  nonempty : ∀ a ∈ l ++ used, 0 < (heap.size a).toNat
  tiled : Tiles HEADER ((l ++ used).map heap.block) heap.memory
  simple : Simple HEADER heap.memory
  inside : ∀ e ∈ heap.memory, base + HEADER ≤ e.start ∧ e.finish HEADER ≤ heap.top
  room : base + HEADER ≤ heap.top
  small : total heap.memory < 2 ^ 32

/-- No two blocks of the list are adjacent, and the list starts at one of its places. -/
structure Sound (base : Nat) (heap : Heap) (l used : List Nat) : Prop
    extends Listed base heap l used where
  spaced : (base :: l).Pairwise fun a b => heap.finish a < b
  freep : heap.freep ∈ base :: l

section Facts

variable {base a b c p bp : Nat} {heap heap' : Heap} {l used : List Nat}

theorem HEADER_pos : 0 < HEADER := by decide

theorem mem_of_ring (used : List Nat) (member : a ∈ base :: l) : a ∈ base :: (l ++ used) :=
  List.mem_append_left used member

theorem Listed.blocks (listed : Listed base heap l used) :
    (l ++ used).Pairwise fun a b => Apart HEADER (heap.block a) (heap.block b) := by
  have apart := (listed.tiled.simple listed.simple).pairwise HEADER_pos (by
    intro e member
    obtain ⟨a, isBlock, rfl⟩ := List.mem_map.mp member
    exact listed.nonempty a isBlock)
  exact List.pairwise_map.mp apart

theorem Listed.nodup (listed : Listed base heap l used) : (l ++ used).Nodup := by
  refine listed.blocks.imp_of_mem fun {a b} isBlock _ apart same => ?_
  subst same
  have long := Nat.mul_pos HEADER_pos (listed.nonempty a isBlock)
  unfold Apart Extent.finish Heap.block at apart
  dsimp only at apart
  omega

theorem Listed.apart (listed : Listed base heap l used) (isBlock : a ∈ l ++ used)
    (isBlock' : b ∈ l ++ used) (other : a ≠ b) : heap.finish a ≤ b ∨ heap.finish b ≤ a := by
  have symmetric : Std.Symm fun a b => Apart HEADER (heap.block a) (heap.block b) :=
    ⟨fun _ _ => Apart.symm⟩
  exact listed.blocks.forall isBlock isBlock' other

theorem Listed.lt_finish (listed : Listed base heap l used) (isBlock : a ∈ l ++ used) :
    a < heap.finish a := by
  have long := Nat.mul_pos HEADER_pos (listed.nonempty a isBlock)
  unfold Heap.finish
  omega

theorem Listed.finish_le (listed : Listed base heap l used) (isBlock : a ∈ l ++ used)
    (isBlock' : b ∈ l ++ used) (below : a < b) : heap.finish a ≤ b := by
  have long := listed.lt_finish isBlock'
  rcases listed.apart isBlock isBlock' (Nat.ne_of_lt below) with before | after
  · exact before
  · omega

theorem Listed.above (listed : Listed base heap l used) (isBlock : a ∈ l ++ used) :
    base + HEADER ≤ a := by
  have long := listed.lt_finish isBlock
  obtain ⟨e, isMemory, contains⟩ := listed.tiled.inside (List.mem_map_of_mem isBlock)
    (show (heap.block a).Contains HEADER a from ⟨Nat.le_refl a, long⟩)
  exact Nat.le_trans (listed.inside e isMemory).1 contains.1

theorem Listed.base_lt (listed : Listed base heap l used) (isBlock : a ∈ l ++ used) : base < a := by
  have above := listed.above isBlock
  have positive := HEADER_pos
  omega

theorem Listed.finish_base (listed : Listed base heap l used) : heap.finish base = base := by
  rw [Heap.finish, listed.isBase]
  rfl

/-- The invariant is about the headers of the blocks only. -/
theorem Sound.congr (sound : Sound base heap l used) (isMemory : heap'.memory = heap.memory)
    (isTop : heap'.top = heap.top) (isStart : heap'.freep = heap.freep)
    (samePtr : ∀ a ∈ base :: l, heap'.ptr a = heap.ptr a)
    (sameSize : ∀ a ∈ base :: (l ++ used), heap'.size a = heap.size a) :
    Sound base heap' l used := by
  have ofBlock : ∀ a ∈ l ++ used, heap'.size a = heap.size a :=
    fun a isBlock => sameSize a (List.mem_cons_of_mem _ isBlock)
  refine { chain := sound.chain.congr samePtr, ascending := sound.ascending,
           isBase := (sameSize base List.mem_cons_self).trans sound.isBase,
           nonempty := ?nonempty, tiled := ?tiled, simple := isMemory ▸ sound.simple,
           inside := isMemory ▸ isTop ▸ sound.inside, room := isTop ▸ sound.room,
           small := isMemory ▸ sound.small,
           spaced := ?spaced, freep := isStart ▸ sound.freep }
  case nonempty =>
    intro a isBlock
    rw [ofBlock a isBlock]
    exact sound.nonempty a isBlock
  case tiled =>
    have same : (l ++ used).map heap'.block = (l ++ used).map heap.block :=
      List.map_congr_left fun a isBlock => by rw [Heap.block, Heap.block, ofBlock a isBlock]
    rw [same, isMemory]
    exact sound.tiled
  case spaced =>
    refine sound.spaced.imp_of_mem fun {a b} isListed _ below => ?_
    rw [Heap.finish, sameSize a (mem_of_ring used isListed)]
    exact below

theorem Sound.permute {used' : List Nat} (sound : Sound base heap l used)
    (same : used.Perm used') : Sound base heap l used' :=
  { sound with
    nonempty := fun a isBlock => sound.nonempty a ((same.append_left l).mem_iff.mpr isBlock)
    tiled := sound.tiled.perm ((same.symm.append_left l).map _) }

end Facts

/-! ## Putting a block into the list -/

/-- `bp` follows `p` in the list. -/
def link (heap : Heap) (p bp : Nat) : Heap :=
  { heap with ptr := update (update heap.ptr bp (heap.ptr p)) p bp }

/-- The block at `a` takes in the one after it. -/
def absorb (heap : Heap) (a : Nat) : Heap :=
  { heap with size := update heap.size a (heap.size a + heap.size (heap.ptr a)),
              ptr := update heap.ptr a (heap.ptr (heap.ptr a)) }

/-- The block at `a` takes in the one after it if they are adjacent. -/
def settle (heap : Heap) (a : Nat) : Heap :=
  if heap.finish a = heap.ptr a then absorb heap a else heap

section Insert

variable {base a b p bp : Nat} {heap : Heap} {l used before after : List Nat}

/-- What `free` does with the block is to link it and to merge twice. -/
theorem merge_eq (below : p < bp) (notNext : heap.ptr p ≠ bp) :
    mergeLower (mergeUpper heap p bp) p bp = settle (settle (link heap p bp) bp) p := by
  have other : bp ≠ p := Nat.ne_of_gt below
  have linked : (link heap p bp).ptr bp = heap.ptr p := by
    simp only [link, update_of_ne other, update_self]
  by_cases upper : heap.finish bp = heap.ptr p
  · -- The next block is behind `bp`, so it is not `p`.
    have notSelf : heap.ptr p ≠ p := by
      unfold Heap.finish at upper
      omega
    have settled : settle (link heap p bp) bp = absorb (link heap p bp) bp := by
      refine if_pos ?_
      rw [linked]
      exact upper
    have isNext : (link heap p bp).ptr (heap.ptr p) = heap.ptr (heap.ptr p) := by
      simp only [link, update_of_ne notSelf, update_of_ne notNext]
    rw [settled, mergeUpper, if_pos upper]
    unfold mergeLower settle absorb
    rw [linked, isNext]
    simp only [link, Heap.finish, update_of_ne other.symm, update_self]
    split
    · congr 1
      funext x
      simp only [update_apply]
      split_ifs <;> rfl
    · congr 1
      funext x
      simp only [update_apply]
      split_ifs <;> simp_all
  · have settled : settle (link heap p bp) bp = link heap p bp := by
      refine if_neg ?_
      rw [linked]
      exact upper
    rw [settled, mergeUpper, if_neg upper]
    unfold mergeLower settle absorb
    simp only [link, Heap.finish, update_of_ne other, update_self, update_idem]

theorem exists_tail (isList : base :: l = before ++ p :: after) (after' : List Nat) :
    ∃ l', base :: l' = before ++ p :: after' := by
  cases before with
  | nil =>
      obtain ⟨rfl, -⟩ := List.cons.inj isList
      exact ⟨after', rfl⟩
  | cons c before =>
      obtain ⟨rfl, -⟩ := List.cons.inj isList
      exact ⟨before ++ p :: after', rfl⟩

theorem Listed.around (listed : Listed base heap l used)
    (isList : base :: l = before ++ a :: after) :
    (∀ x ∈ before, x < a) ∧ ∀ y ∈ after, a < y := by
  have ascending := listed.ascending
  rw [isList] at ascending
  obtain ⟨-, ofAfter, across⟩ := List.pairwise_append.mp ascending
  exact ⟨fun x isBefore => across x isBefore a List.mem_cons_self,
    (List.pairwise_cons.mp ofAfter).1⟩

theorem Listed.mem_of_after (listed : Listed base heap l used)
    (isList : base :: l = before ++ a :: after) (isAfter : b ∈ after) : b ∈ l := by
  have member : b ∈ base :: l :=
    isList ▸ List.mem_append_right _ (List.mem_cons_of_mem _ isAfter)
  have isPlace : a ∈ base :: l := isList ▸ List.mem_append_right _ List.mem_cons_self
  have later := (listed.around isList).2 b isAfter
  have least : base ≤ a := by
    rcases List.mem_cons.mp isPlace with rfl | isListed
    · exact Nat.le_refl _
    · exact Nat.le_of_lt ((List.pairwise_cons.mp listed.ascending).1 a isListed)
  rcases List.mem_cons.mp member with rfl | isListed
  · omega
  · exact isListed

theorem Listed.finish_le_after (listed : Listed base heap l used)
    (isList : base :: l = before ++ a :: after) (isAfter : b ∈ after) : heap.finish a ≤ b := by
  have later := (listed.around isList).2 b isAfter
  have isPlace : a ∈ base :: l := isList ▸ List.mem_append_right _ List.mem_cons_self
  rcases List.mem_cons.mp isPlace with rfl | isListed
  · rw [listed.finish_base]
    exact Nat.le_of_lt later
  · exact listed.finish_le (List.mem_append_left _ isListed)
      (List.mem_append_left _ (listed.mem_of_after isList isAfter)) later

theorem Listed.link (listed : Listed base heap l (bp :: used))
    (isList : base :: l = before ++ p :: after) (below : ∀ a ∈ before ++ [p], a < bp)
    (above : ∀ b ∈ after, bp < b) :
    ∃ l', base :: l' = before ++ p :: bp :: after ∧ Listed base (link heap p bp) l' used := by
  obtain ⟨l', isList'⟩ := exists_tail isList (bp :: after)
  have belowP : p < bp := below p (List.mem_append_right _ List.mem_cons_self)
  have ascending := listed.ascending
  have chain := (chain_rotate isList).mp listed.chain
  obtain ⟨beforeP, afterP⟩ := listed.around isList
  rw [isList] at ascending
  have same : (l' ++ used).Perm (l ++ bp :: used) := by
    rw [← List.perm_cons base, ← List.cons_append, ← List.cons_append, isList, isList']
    refine List.perm_iff_count.mpr fun x => ?_
    simp only [List.count_append, List.count_cons]
    omega
  refine ⟨l', isList', {
    chain := (chain_rotate isList').mpr ?chain
    ascending := ?ascending
    isBase := listed.isBase
    nonempty := fun a isBlock => listed.nonempty a (same.mem_iff.mp isBlock)
    tiled := listed.tiled.perm (same.map _)
    simple := listed.simple
    inside := listed.inside
    room := listed.room
    small := listed.small }⟩
  case chain =>
    refine ⟨update_self .., chain.reroute ?_ fun x member => ?_⟩
    · simp only [Umalloc.link, update_of_ne (Nat.ne_of_gt belowP), update_self]
    · have notP : x ≠ p := by
        rcases List.mem_append.mp member with isAfter | isBefore
        · exact Nat.ne_of_gt (afterP x isAfter)
        · exact Nat.ne_of_lt (beforeP x isBefore)
      have notBp : x ≠ bp := by
        rcases List.mem_append.mp member with isAfter | isBefore
        · exact Nat.ne_of_gt (above x isAfter)
        · exact Nat.ne_of_lt (below x (List.mem_append_left _ isBefore))
      simp only [Umalloc.link, update_of_ne notP, update_of_ne notBp]
  case ascending =>
    rw [isList']
    obtain ⟨ofBefore, ofAfter, across⟩ := List.pairwise_append.mp ascending
    refine List.pairwise_append.mpr ⟨ofBefore, List.pairwise_cons.mpr ⟨?_, List.pairwise_cons.mpr
      ⟨above, (List.pairwise_cons.mp ofAfter).2⟩⟩, ?_⟩
    · exact List.forall_mem_cons.mpr ⟨belowP, afterP⟩
    · intro x isBefore
      refine List.forall_mem_cons.mpr ⟨beforeP x isBefore, List.forall_mem_cons.mpr ⟨?_, ?_⟩⟩
      · exact below x (List.mem_append_left _ isBefore)
      · exact fun y isAfter => across x isBefore y (List.mem_cons_of_mem _ isAfter)

theorem Listed.absorb (listed : Listed base heap l used)
    (isList : base :: l = before ++ a :: b :: after) (adjacent : heap.finish a = b) :
    ∃ l', base :: l' = before ++ a :: after ∧ Listed base (absorb heap a) l' used ∧
      (absorb heap a).finish a = heap.finish b ∧
      ((absorb heap a).size a).toNat = (heap.size a).toNat + (heap.size b).toNat := by
  have chain := (chain_rotate isList).mp listed.chain
  have ascending := listed.ascending
  -- `base` is empty, so it is not adjacent to what follows.
  cases before with
  | nil =>
      obtain ⟨rfl, rfl⟩ := List.cons.inj isList
      rw [listed.finish_base] at adjacent
      have later := (List.pairwise_cons.mp ascending).1 b List.mem_cons_self
      omega
  | cons c before =>
      obtain ⟨rfl, isTail⟩ := List.cons.inj isList
      have isTail : l = before ++ a :: b :: after := isTail
      subst isTail
      have isNext : heap.ptr a = b := chain.1
      obtain ⟨beforeA, afterA⟩ := listed.around isList
      have rest : ((before ++ a :: b :: after) ++ used).Perm
          (a :: b :: (before ++ after ++ used)) := by
        refine List.perm_iff_count.mpr fun x => ?_
        simp only [List.count_append, List.count_cons]
        omega
      have rest' : ((before ++ a :: after) ++ used).Perm (a :: (before ++ after ++ used)) := by
        refine List.perm_iff_count.mpr fun x => ?_
        simp only [List.count_append, List.count_cons]
        omega
      have tiled := (listed.tiled.perm (rest.symm.map _))
      simp only [List.map_cons, Heap.block, ← adjacent] at tiled
      have joined := tiled.join
      have isSize : ((Umalloc.absorb heap a).size a).toNat =
          (heap.size a).toNat + (heap.size b).toNat := by
        have small := listed.small
        rw [← joined.total, total_cons] at small
        dsimp only at small
        simp only [Umalloc.absorb, update_self, isNext, BitVec.toNat_add]
        rw [← adjacent]
        exact Nat.mod_eq_of_lt (by omega)
      have fresh : a ∉ b :: (before ++ after ++ used) :=
        (List.nodup_cons.mp (rest.nodup_iff.mp listed.nodup)).1
      have others : ∀ x ∈ before ++ after ++ used,
          (Umalloc.absorb heap a).size x = heap.size x := by
        rintro x member
        refine update_of_ne ?_ _ _
        rintro rfl
        exact fresh (List.mem_cons_of_mem _ member)
      have isList' : base :: (before ++ a :: after) = (base :: before) ++ a :: after := rfl
      refine ⟨before ++ a :: after, rfl, {
        chain := (chain_rotate isList').mpr ?chain
        ascending := ?ascending
        isBase := ?isBase
        nonempty := ?nonempty
        tiled := ?tiled
        simple := listed.simple
        inside := listed.inside
        room := listed.room
        small := listed.small }, ?finish, isSize⟩
      case chain =>
        refine chain.2.reroute ?_ fun x member => ?_
        · simp only [Umalloc.absorb, update_self, isNext]
        · refine update_of_ne ?_ _ _
          rcases List.mem_append.mp member with isAfter | isBefore
          · exact Nat.ne_of_gt (afterA x (List.mem_cons_of_mem _ isAfter))
          · exact Nat.ne_of_lt (beforeA x isBefore)
      case ascending =>
        refine ascending.sublist ?_
        exact ((List.sublist_cons_self b after).cons_cons a).append_left (base :: before)
      case isBase =>
        exact (update_of_ne (Nat.ne_of_lt (beforeA base List.mem_cons_self)) _ _).trans
          listed.isBase
      case nonempty =>
        intro x member
        rcases List.mem_cons.mp (rest'.mem_iff.mp member) with rfl | later
        · have nonempty := listed.nonempty x (rest.mem_iff.mpr List.mem_cons_self)
          omega
        · rw [others x later]
          exact listed.nonempty x
            (rest.mem_iff.mpr (List.mem_cons_of_mem _ (List.mem_cons_of_mem _ later)))
      case tiled =>
        refine Tiles.perm ?_ (rest'.map _)
        have sameBlocks : (before ++ after ++ used).map (Umalloc.absorb heap a).block =
            (before ++ after ++ used).map heap.block :=
          List.map_congr_left fun x member => by rw [Heap.block, Heap.block, others x member]
        rw [List.map_cons, sameBlocks, Heap.block, isSize, ← adjacent]
        exact joined
      case finish =>
        unfold Heap.finish at adjacent ⊢
        rw [isSize, Nat.mul_add]
        omega

theorem settle_size (heap : Heap) (a : Nat) {x : Nat} (other : x ≠ a) :
    (settle heap a).size x = heap.size x := by
  unfold settle
  split
  · exact update_of_ne other _ _
  · rfl

/-- After `settle` no block of the list is adjacent to the one at `a`, and there is a block for
every block of before. -/
theorem Listed.settle (listed : Listed base heap l used)
    (isList : base :: l = before ++ a :: after) (proper : after = [] → a ∈ l)
    (spaced : after.Pairwise fun x y => heap.finish x < y) :
    ∃ l' after', base :: l' = before ++ a :: after' ∧ Listed base (settle heap a) l' used ∧
      ((a :: after').Pairwise fun x y => (settle heap a).finish x < y) ∧
      ∀ x ∈ a :: after, ∃ y ∈ a :: after',
        (heap.size x).toNat ≤ ((settle heap a).size y).toNat := by
  have chain := (chain_rotate isList).mp listed.chain
  cases after with
  | nil =>
      -- The next place is `base`, which is not behind a block.
      have isListed := proper rfl
      have apart : heap.finish a ≠ heap.ptr a := by
        have long := listed.lt_finish (List.mem_append_left used isListed)
        have above := listed.base_lt (List.mem_append_left used isListed)
        cases before with
        | nil =>
            obtain ⟨rfl, -⟩ := List.cons.inj isList
            exact absurd above (Nat.lt_irrefl _)
        | cons c before =>
            obtain ⟨rfl, -⟩ := List.cons.inj isList
            have isNext : heap.ptr a = base := chain.1
            omega
      rw [Umalloc.settle, if_neg apart]
      exact ⟨l, [], isList, listed, List.pairwise_singleton _ _, fun x member =>
        ⟨x, member, Nat.le_refl _⟩⟩
  | cons b after =>
      have isNext : heap.ptr a = b := chain.1
      by_cases adjacent : heap.finish a = b
      · obtain ⟨l', isList', listed', isFinish, isSize⟩ := listed.absorb isList adjacent
        have absorbed : Umalloc.settle heap a = Umalloc.absorb heap a :=
          if_pos (adjacent.trans isNext.symm)
        rw [absorbed]
        obtain ⟨behind, spaced⟩ := List.pairwise_cons.mp spaced
        have others : ∀ x ∈ after, (Umalloc.absorb heap a).size x = heap.size x := by
          intro x member
          have later := (listed.around isList).2 x (List.mem_cons_of_mem _ member)
          exact update_of_ne (Nat.ne_of_gt later) _ _
        refine ⟨l', after, isList', listed', List.pairwise_cons.mpr ⟨?_, ?_⟩, ?_⟩
        · intro x member
          rw [isFinish]
          exact behind x member
        · refine spaced.imp_of_mem fun {x y} member _ below => ?_
          rw [Heap.finish, others x member]
          exact below
        · intro x member
          simp only [List.mem_cons] at member
          rcases member with rfl | rfl | later
          · exact ⟨x, List.mem_cons_self, by omega⟩
          · exact ⟨a, List.mem_cons_self, by omega⟩
          · exact ⟨x, List.mem_cons_of_mem _ later, Nat.le_of_eq (by rw [others x later])⟩
      · have unsettled : Umalloc.settle heap a = heap := if_neg (isNext ▸ adjacent)
        have isNear := listed.finish_le_after isList List.mem_cons_self
        have below : heap.finish a < b := by omega
        rw [unsettled]
        refine ⟨l, b :: after, isList, listed, List.pairwise_cons.mpr ⟨?_, spaced⟩,
          fun x member => ⟨x, member, Nat.le_refl _⟩⟩
        intro y member
        rcases List.mem_cons.mp member with rfl | later
        · exact below
        · have behind := (List.pairwise_cons.mp spaced).1 y later
          have long : b ≤ heap.finish b := Nat.le_add_right _ _
          omega

/-- **`free` with the place found.** The block is in the list, merged with its neighbours. -/
theorem Sound.insert (sound : Sound base heap l (bp :: used))
    (isList : base :: l = before ++ p :: after) (below : ∀ a ∈ before ++ [p], a < bp)
    (above : ∀ b ∈ after, bp < b) :
    ∃ l', Sound base { mergeLower (mergeUpper heap p bp) p bp with freep := p } l' used ∧
      (∃ c ∈ base :: l', (heap.size bp).toNat ≤
        ((mergeLower (mergeUpper heap p bp) p bp).size c).toNat) ∧
      ∀ x ∈ used, (mergeLower (mergeUpper heap p bp) p bp).size x = heap.size x := by
  have belowP : p < bp := below p (List.mem_append_right _ List.mem_cons_self)
  have isUsed : bp ∈ l ++ bp :: used := List.mem_append_right _ List.mem_cons_self
  have isPlace : p ∈ base :: l := isList ▸ List.mem_append_right _ List.mem_cons_self
  have notNext : heap.ptr p ≠ bp := by
    intro isNext
    have member := sound.chain.next_mem isPlace
    rw [isNext] at member
    have distinct := List.nodup_append.mp sound.nodup
    have notBase := sound.base_lt isUsed
    rcases List.mem_append.mp member with isListed | isBase
    · exact distinct.2.2 bp isListed bp List.mem_cons_self rfl
    · rw [List.mem_singleton.mp isBase] at notBase
      omega
  rw [merge_eq belowP notNext]
  have spaced := sound.spaced
  rw [isList] at spaced
  obtain ⟨spacedBefore, spacedAfter, acrossBefore⟩ := List.pairwise_append.mp spaced
  -- The block is linked, merged with the next one, and then with the one before.
  obtain ⟨l₁, isList₁, listed₁⟩ := sound.toListed.link isList below above
  have isList₁' : base :: l₁ = (before ++ [p]) ++ bp :: after := by
    rw [isList₁, List.append_assoc]
    rfl
  have isListed₁ : bp ∈ l₁ := by
    have member : bp ∈ base :: l₁ := isList₁ ▸ (by simp)
    rcases List.mem_cons.mp member with rfl | later
    · exact absurd (sound.base_lt isUsed) (Nat.lt_irrefl _)
    · exact later
  obtain ⟨l₂, after₂, isList₂, listed₂, spaced₂, larger₂⟩ :=
    listed₁.settle isList₁' (fun _ => isListed₁) (List.pairwise_cons.mp spacedAfter).2
  have isList₂' : base :: l₂ = before ++ p :: bp :: after₂ := by
    rw [isList₂, List.append_assoc]
    rfl
  obtain ⟨l₃, after₃, isList₃, listed₃, spaced₃, larger₃⟩ :=
    listed₂.settle isList₂' nofun spaced₂
  have same : ∀ x, x ≠ p → x ≠ bp →
      (Umalloc.settle (Umalloc.settle (Umalloc.link heap p bp) bp) p).size x = heap.size x :=
    fun x notP notBp => (settle_size _ _ notP).trans (settle_size _ _ notBp)
  refine ⟨l₃, { listed₃ with spaced := ?spaced, freep := ?freep }, ?larger, ?same⟩
  case spaced =>
    rw [isList₃]
    have notHere : ∀ x ∈ before, x ≠ p ∧ x ≠ bp := fun x isBefore =>
      ⟨Nat.ne_of_lt ((sound.around isList).1 x isBefore),
        Nat.ne_of_lt (below x (List.mem_append_left _ isBefore))⟩
    have sameFinish : ∀ x ∈ before,
        (Umalloc.settle (Umalloc.settle (Umalloc.link heap p bp) bp) p).finish x =
          heap.finish x := by
      intro x isBefore
      rw [Heap.finish, same x (notHere x isBefore).1 (notHere x isBefore).2]
      rfl
    have behind := (listed₃.around isList₃).2
    refine List.pairwise_append.mpr ⟨?_, spaced₃, fun x isBefore y isAfter => ?_⟩
    · refine spacedBefore.imp_of_mem fun {x y} isBefore _ below => ?_
      exact Nat.lt_of_le_of_lt (Nat.le_of_eq (sameFinish x isBefore)) below
    · have below := acrossBefore x isBefore p List.mem_cons_self
      refine Nat.lt_of_le_of_lt (Nat.le_of_eq (sameFinish x isBefore)) ?_
      rcases List.mem_cons.mp isAfter with rfl | later
      · exact below
      · exact Nat.lt_trans below (behind y later)
  case freep => exact isList₃ ▸ List.mem_append_right _ List.mem_cons_self
  case larger =>
    obtain ⟨c, isAfter₂, larger⟩ := larger₂ bp List.mem_cons_self
    obtain ⟨d, isAfter₃, larger'⟩ := larger₃ c (List.mem_cons_of_mem _ isAfter₂)
    exact ⟨d, isList₃ ▸ List.mem_append_right _ isAfter₃, Nat.le_trans larger larger'⟩
  case same =>
    intro x isUsed'
    have distinct := List.nodup_append.mp sound.nodup
    refine same x ?_ ?_
    · rintro rfl
      rcases List.mem_cons.mp isPlace with rfl | isListed
      · exact Nat.lt_irrefl _
          (sound.base_lt (List.mem_append_right l (List.mem_cons_of_mem _ isUsed')))
      · exact distinct.2.2 x isListed x (List.mem_cons_of_mem _ isUsed') rfl
    · rintro rfl
      exact (List.nodup_cons.mp distinct.2.1).1 isUsed'

end Insert

/-! ## Taking a block out of the list -/

section Take

variable {base prevp p : Nat} {heap : Heap} {l used before after : List Nat} {nunits : BitVec 32}

theorem Sound.unlink (sound : Sound base heap l used)
    (isList : base :: l = before ++ prevp :: p :: after) :
    ∃ l', Sound base
      { heap with ptr := update heap.ptr prevp (heap.ptr p), freep := prevp } l' (p :: used) := by
  obtain ⟨l', isList'⟩ := exists_tail isList after
  have chain := (chain_rotate isList).mp sound.chain
  obtain ⟨isBefore, isAfter⟩ := sound.around isList
  have shorter : (base :: l').Sublist (base :: l) := by
    rw [isList, isList']
    exact ((List.sublist_cons_self p after).cons_cons prevp).append_left before
  have same : (l' ++ p :: used).Perm (l ++ used) := by
    rw [← List.perm_cons base, ← List.cons_append, ← List.cons_append, isList, isList']
    refine List.perm_iff_count.mpr fun x => ?_
    simp only [List.count_append, List.count_cons]
    omega
  refine ⟨l', {
    chain := (chain_rotate isList').mpr ?chain
    ascending := sound.ascending.sublist shorter
    isBase := sound.isBase
    nonempty := fun a isBlock => sound.nonempty a (same.mem_iff.mp isBlock)
    tiled := sound.tiled.perm (same.map _)
    simple := sound.simple
    inside := sound.inside
    room := sound.room
    small := sound.small
    spaced := sound.spaced.sublist shorter
    freep := isList' ▸ List.mem_append_right _ List.mem_cons_self }⟩
  refine chain.2.reroute (update_self ..) fun x member => update_of_ne ?_ _ _
  rcases List.mem_append.mp member with later | earlier
  · exact Nat.ne_of_gt (isAfter x (List.mem_cons_of_mem _ later))
  · exact Nat.ne_of_lt (isBefore x earlier)

/-- The tail of a block is taken, and the rest of it stays in the list. -/
theorem Sound.cut (sound : Sound base heap l used) (isPrev : prevp ∈ base :: l) (isListed : p ∈ l)
    {rest : BitVec 32} (nonempty : 0 < rest.toNat) (positive : 0 < nunits.toNat)
    (isSize : (heap.size p).toNat = rest.toNat + nunits.toNat) {piece : Nat}
    (isPiece : p + HEADER * rest.toNat = piece) :
    let heap' : Heap :=
      { heap with size := update (update heap.size p rest) piece nunits, freep := prevp }
    Sound base heap' l (piece :: used) ∧
      ∀ x ∈ l ++ used, x ≠ p → heap'.size x = heap.size x := by
  intro heap'
  have isBlock := List.mem_append_left used isListed
  have long := Nat.mul_pos HEADER_pos nonempty
  have long' := Nat.mul_pos HEADER_pos positive
  have isFinish : heap.finish p = piece + HEADER * nunits.toNat := by
    rw [Heap.finish, isSize, Nat.mul_add]
    omega
  -- The new header is inside the block, so it is none of the headers there are.
  have fresh : ∀ x ∈ l ++ used, x ≠ piece := by
    rintro x member rfl
    rcases sound.apart member isBlock (by omega) with before | after
    · have longer := sound.lt_finish member
      omega
    · omega
  have freshBase : base ≠ piece := by
    have above := sound.base_lt isBlock
    omega
  have others : ∀ x ∈ base :: (l ++ used), x ≠ p → heap'.size x = heap.size x := by
    intro x member other
    have notPiece : x ≠ piece := by
      rcases List.mem_cons.mp member with rfl | isBlock'
      · exact freshBase
      · exact fresh x isBlock'
    simp only [heap', update_of_ne notPiece, update_of_ne other]
  have isRest : heap'.size p = rest := by
    simp only [heap', update_of_ne (fresh p isBlock), update_self]
  have isTaken : heap'.size piece = nunits := update_self ..
  obtain ⟨front, back, isParts⟩ := List.append_of_mem isBlock
  have notHere : ∀ x ∈ front ++ back, x ∈ base :: (l ++ used) ∧ x ≠ p := by
    intro x member
    have nodup := sound.nodup
    rw [isParts] at nodup ⊢
    have nodup' := (List.perm_middle.nodup_iff.mp nodup)
    refine ⟨List.mem_cons_of_mem _ (List.perm_middle.mem_iff.mpr (List.mem_cons_of_mem _ member)),
      ?_⟩
    rintro rfl
    exact (List.nodup_cons.mp nodup').1 member
  have sameBlocks : (front ++ back).map heap'.block = (front ++ back).map heap.block :=
    List.map_congr_left fun x member => by
      rw [Heap.block, Heap.block, others x (notHere x member).1 (notHere x member).2]
  have parts : (l ++ used).Perm (p :: (front ++ back)) := isParts ▸ List.perm_middle
  have parts' : (l ++ piece :: used).Perm (p :: piece :: (front ++ back)) :=
    List.perm_middle.trans ((parts.cons piece).trans (.swap ..))
  refine ⟨{
    chain := sound.chain
    ascending := sound.ascending
    isBase := (others base List.mem_cons_self
      (Nat.ne_of_lt (sound.base_lt isBlock))).trans sound.isBase
    nonempty := ?nonempty
    tiled := ?tiled
    simple := sound.simple
    inside := sound.inside
    room := sound.room
    small := sound.small
    spaced := ?spaced
    freep := isPrev }, fun x member => others x (List.mem_cons_of_mem _ member)⟩
  case nonempty =>
    intro x member
    rcases List.mem_cons.mp (List.perm_middle.mem_iff.mp member) with rfl | isBlock'
    · rw [isTaken]
      exact positive
    · by_cases same : x = p
      · rw [same, isRest]
        exact nonempty
      · rw [others x (List.mem_cons_of_mem _ isBlock') same]
        exact sound.nonempty x isBlock'
  case tiled =>
    have tiled := sound.tiled.perm (parts.symm.map _)
    rw [List.map_cons, Heap.block, isSize] at tiled
    refine Tiles.perm ?_ (parts'.map _)
    rw [List.map_cons, List.map_cons, sameBlocks, Heap.block, Heap.block, isRest, isTaken,
      ← isPiece]
    exact tiled.split
  case spaced =>
    refine sound.spaced.imp_of_mem fun {x y} member _ below => ?_
    by_cases same : x = p
    · rw [same] at below ⊢
      rw [Heap.finish, isRest, isPiece]
      omega
    · rw [Heap.finish, others x (mem_of_ring used member) same]
      exact below

/-- **A block serves a call of `malloc`.** It is in use then, with the size asked for, and the other
blocks in use are as they were. -/
theorem Sound.take (sound : Sound base heap l used) (isPrev : prevp ∈ base :: l)
    (fits : nunits ≤ heap.size (heap.ptr prevp)) (positive : 0 < nunits.toNat) :
    ∃ l' a, (take heap prevp (heap.ptr prevp) nunits).2 = a + HEADER ∧
      Sound base (take heap prevp (heap.ptr prevp) nunits).1 l' (a :: used) ∧
      (take heap prevp (heap.ptr prevp) nunits).1.size a = nunits ∧
      ∀ x ∈ used, (take heap prevp (heap.ptr prevp) nunits).1.size x = heap.size x := by
  obtain ⟨before, after, isList⟩ := List.append_of_mem isPrev
  have chain := (chain_rotate isList).mp sound.chain
  have fits : nunits.toNat ≤ (heap.size (heap.ptr prevp)).toNat := fits
  -- Only `base` comes after the last block, and `base` is empty.
  have isNext : ∃ after', after = heap.ptr prevp :: after' := by
    have notBase : heap.ptr prevp ≠ base := by
      intro isBase
      rw [isBase, sound.isBase] at fits
      exact absurd (Nat.lt_of_lt_of_le positive fits) (Nat.lt_irrefl 0)
    cases after with
    | nil =>
        cases before with
        | nil =>
            obtain ⟨rfl, -⟩ := List.cons.inj isList
            exact absurd chain notBase
        | cons c before =>
            obtain ⟨rfl, -⟩ := List.cons.inj isList
            exact absurd chain.1 notBase
    | cons c after =>
        rw [show heap.ptr prevp = c from chain.1]
        exact ⟨after, rfl⟩
  obtain ⟨after', rfl⟩ := isNext
  generalize heap.ptr prevp = p at *
  have isListed : p ∈ l := sound.mem_of_after isList List.mem_cons_self
  unfold Umalloc.take
  split
  · rename_i exact_
    obtain ⟨l', sound'⟩ := sound.unlink isList
    exact ⟨l', p, rfl, sound', exact_, fun _ _ => rfl⟩
  · rename_i larger
    have below : nunits.toNat < (heap.size p).toNat :=
      Nat.lt_of_le_of_ne fits fun same => larger (BitVec.eq_of_toNat_eq same.symm)
    have isRest : (heap.size p - nunits).toNat = (heap.size p).toNat - nunits.toNat :=
      BitVec.toNat_sub_of_le fits
    obtain ⟨sound', others⟩ := sound.cut isPrev isListed
      (show 0 < (heap.size p - nunits).toNat by omega)
      positive (by omega) rfl
    refine ⟨l, _, rfl, sound', update_self .., fun x isUsed => ?_⟩
    refine others x (List.mem_append_right _ isUsed) ?_
    rintro rfl
    exact (List.nodup_append.mp sound.nodup).2.2 x isListed x isUsed rfl

end Take

end Xv6.Umalloc
