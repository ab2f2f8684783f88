import Xv6.Procs.Contents

/-!
Contract: the stack with which a program starts.

Owns: where `exec` puts the argument strings and the array of pointers to them, that they are
found there when the program starts, and which arguments fit.

Does not own: the pages of the new address space (`Vm.Loading`).
-/

namespace Xv6.Procs

open Xv6.Format
open Xv6.Kernel
open Xv6.Pools
open Xv6.Vm

variable {layout : Layout} {m m' m₁ : Memory} {pagetable : Addr} {base sp size low high : Nat}
  {pointers : List (BitVec 64)} {argv : List (List Byte)}

/-! ## The stack pointer -/

/-- How far the stack pointer moves for this many bytes. -/
def room (size : Nat) : Nat := (size + 15) / 16 * 16

def stringRoom (argv : List (List Byte)) : Nat := (argv.map fun arg => room (arg.length + 1)).sum

def Fits (argv : List (List Byte)) : Prop :=
  stringRoom argv + room ((argv.length + 1) * 8) ≤ PGSIZE

instance (argv : List (List Byte)) : Decidable (Fits argv) := inferInstanceAs (Decidable (_ ≤ _))

/-- The two assignments that move `sp`. -/
def lowered (sp size : Nat) : BitVec 64 :=
  let sp := BitVec.ofNat 64 sp - BitVec.ofNat 64 size
  sp - sp % 16

theorem lowered_toNat (sp size : Nat) :
    (lowered sp size).toNat = (sp % 2 ^ 64 + (2 ^ 64 - size % 2 ^ 64)) % 2 ^ 64 / 16 * 16 := by
  have moved : (BitVec.ofNat 64 sp - BitVec.ofNat 64 size).toNat =
      (sp % 2 ^ 64 + (2 ^ 64 - size % 2 ^ 64)) % 2 ^ 64 := by
    rw [BitVec.toNat_sub, BitVec.toNat_ofNat, BitVec.toNat_ofNat, Nat.add_comm]
  have remainder : ((BitVec.ofNat 64 sp - BitVec.ofNat 64 size) % 16).toNat =
      (BitVec.ofNat 64 sp - BitVec.ofNat 64 size).toNat % 16 := BitVec.toNat_umod
  rw [lowered, BitVec.toNat_sub_of_le, remainder, moved]
  · omega
  · rw [BitVec.le_def, remainder]
    exact Nat.mod_le ..

theorem lowered_of_le (aligned : sp % 16 = 0) (small : sp < 2 ^ 64) (le : room size ≤ sp) :
    (lowered sp size).toNat = sp - room size := by
  rw [lowered_toNat]
  unfold room at *
  omega

/-- An underflow leaves no place for the bytes below `sp`. -/
theorem room_of_lowered {top : Nat} (aligned : sp % 16 = 0) (small : sp < 2 ^ 63)
    (inMemory : top < 2 ^ 63) (le : (lowered sp size).toNat + size ≤ top) :
    (lowered sp size).toNat + room size = sp := by
  rw [lowered_toNat] at *
  unfold room
  omega

/-! ## One push -/

/-- The user's page at `base`, above which nothing is the user's. -/
structure Stack (m : Memory) (pagetable : Addr) (base : Nat) : Prop where
  isUser : ∀ va, base ≤ va → va < base + PGSIZE → IsUser m pagetable va
  above : ∀ va, base + PGSIZE ≤ va → ¬ IsUser m pagetable va
  nonNull : NonNull m pagetable
  apart : Apart m pagetable
  distinct : Distinct m pagetable
  aligned : base % 16 = 0
  small : base + PGSIZE < 2 ^ 63

theorem Stack.copied {dstva t : Nat} {src : Bytes} (stack : Stack m pagetable base)
    (copied : CopiedOut m m' pagetable dstva src t) : Stack m' pagetable base where
  isUser va low high := (isUser_congr copied.entries va).mpr (stack.isUser va low high)
  above va high isUser := stack.above va high ((isUser_congr copied.entries va).mp isUser)
  nonNull := stack.nonNull.congr copied.entries
  apart := stack.apart.congr copied.nodes copied.entries
  distinct := stack.distinct.congr copied.entries
  aligned := stack.aligned
  small := stack.small

structure InStack (base sp : Nat) : Prop where
  low : base ≤ sp
  high : sp ≤ base + PGSIZE
  aligned : sp % 16 = 0

/-- The bytes are on the stack below `sp`; what is above has not changed. -/
structure Pushed (m m' : Memory) (pagetable : Addr) (base sp size : Nat) (src : Bytes) : Prop where
  stack : Stack m' pagetable base
  entries : entries m' pagetable = entries m pagetable
  inStack : InStack base (sp - room size)
  bytes : ∀ i, i < size → userByte m' pagetable (sp - room size + i) = some (src i)
  kept : ∀ va, sp ≤ va → va < base + PGSIZE → userByte m' pagetable va = userByte m pagetable va

/-- **One push**: the stack pointer is moved, compared with the base and the bytes are copied. It
succeeds exactly if there is room. -/
theorem Stack.push (stack : Stack m pagetable base) (inStack : InStack base sp) (src : Bytes)
    (positive : 0 < size) :
    (base + room size ≤ sp ∧ lowered sp size = BitVec.ofNat 64 (sp - room size) ∧
        ¬ lowered sp size < BitVec.ofNat 64 base ∧
        ∃ m', copyout m pagetable (lowered sp size).toNat src size = .ok (true, m') ∧
          Pushed m m' pagetable base sp size src) ∨
      (sp < base + room size ∧ (lowered sp size < BitVec.ofNat 64 base ∨
        ¬ lowered sp size < BitVec.ofNat 64 base ∧
          ∃ m', copyout m pagetable (lowered sp size).toNat src size = .ok (false, m'))) := by
  have small := stack.small
  have baseAligned := stack.aligned
  obtain ⟨low, high, aligned⟩ := inStack
  obtain ⟨m', t, ran, extent, copied⟩ :=
    copyout_copies (lowered sp size).toNat src size stack.nonNull stack.apart
  have covers : size ≤ room size := by unfold room; omega
  have isBase : (BitVec.ofNat 64 base).toNat = base := by
    rw [BitVec.toNat_ofNat, Nat.mod_eq_of_lt (by omega)]
  by_cases fits : base + room size ≤ sp
  · have isSp := lowered_of_le aligned (by omega) (show room size ≤ sp by omega)
    have all : t = size := extent.all_iff.mpr fun i below =>
      stack.isUser _ (by omega) (by omega)
    subst all
    rw [decide_eq_true rfl] at ran
    refine .inl ⟨fits, ?_, ?_, m', ran, stack.copied copied, copied.entries,
      ⟨by omega, by omega, ?_⟩, fun i below => ?_, fun va above inPage => ?_⟩
    · rw [← isSp, BitVec.ofNat_toNat, BitVec.setWidth_eq]
    · rw [BitVec.lt_def, isSp, isBase]
      omega
    · unfold room
      omega
    · rw [← isSp, copied.userByte stack.distinct (stack.isUser _ (by omega) (by omega)),
        if_pos (by omega), Nat.add_sub_cancel_left]
    · rw [copied.userByte stack.distinct (stack.isUser va (by omega) inPage), if_neg (by omega)]
  · refine .inr ⟨by omega, ?_⟩
    by_cases below : lowered sp size < BitVec.ofNat 64 base
    · exact .inl below
    · refine .inr ⟨below, m', ?_⟩
      rw [BitVec.lt_def, isBase] at below
      rw [ran, decide_eq_false]
      intro all
      -- All bytes would be in the page, so that the pointer has not wrapped.
      have users := extent.all_iff.mp all
      have inPage : (lowered sp size).toNat + size ≤ base + PGSIZE := by
        by_contra beyond
        exact stack.above _ (by omega) (users (size - 1) (by omega))
      have isSum := room_of_lowered aligned (by omega) small inPage
      omega

/-! ## The strings -/

def region (start size : Nat) : Set Nat := Set.Ico start (start + size)

/-- The string is at this address, with its NUL. -/
def StringCopy (m : Memory) (pagetable : Addr) (va : Nat) (arg : List Byte) : Prop :=
  ∀ i, i ≤ arg.length → userByte m pagetable (va + i) = some (cstring arg i)

def WordCopy (m : Memory) (pagetable : Addr) (va : Nat) (word : BitVec 64) : Prop :=
  ∀ j, j < 8 → userByte m pagetable (va + j) = some (word.extractLsb' (8 * j) 8)

/-- The pointer is aligned and points to the string. -/
def PointsTo (m : Memory) (pagetable : Addr) (pointer : BitVec 64) (arg : List Byte) : Prop :=
  pointer.toNat % 16 = 0 ∧ StringCopy m pagetable pointer.toNat arg

def stringRegions (pointers : List (BitVec 64)) (argv : List (List Byte)) : List (Set Nat) :=
  List.zipWith (fun pointer arg => region pointer.toNat (arg.length + 1)) pointers argv

/-- The strings are on the stack between `low` and `high`; what is above has not changed. -/
structure StringsPushed (m m' : Memory) (pagetable : Addr) (base low high : Nat)
    (pointers : List (BitVec 64)) (argv : List (List Byte)) : Prop where
  stack : Stack m' pagetable base
  entries : entries m' pagetable = entries m pagetable
  inStack : InStack base low
  le : low ≤ high
  strings : List.Forall₂ (PointsTo m' pagetable) pointers argv
  inside : ∀ r ∈ stringRegions pointers argv, r ⊆ Set.Ico low high
  disjoint : (stringRegions pointers argv).Pairwise Disjoint
  kept : ∀ va, high ≤ va → va < base + PGSIZE → userByte m' pagetable va = userByte m pagetable va

theorem stringRoom_cons (arg : List Byte) (argv : List (List Byte)) :
    stringRoom (arg :: argv) = room (arg.length + 1) + stringRoom argv := rfl

/-- Strings that lie between two addresses stay if what lies there stays. -/
theorem pointsTo_kept (strings : List.Forall₂ (PointsTo m pagetable) pointers argv)
    (inside : ∀ r ∈ stringRegions pointers argv, r ⊆ Set.Ico low high)
    (kept : ∀ va, low ≤ va → va < high → userByte m' pagetable va = userByte m pagetable va) :
    List.Forall₂ (PointsTo m' pagetable) pointers argv := by
  induction strings with
  | nil => exact .nil
  | @cons pointer arg pointers argv first rest ih =>
      refine .cons ⟨first.1, fun i below => ?_⟩
        (ih fun r member => inside r (List.mem_cons_of_mem _ member))
      have inRegion : pointer.toNat + i ∈ region pointer.toNat (arg.length + 1) :=
        Set.mem_Ico.mpr ⟨by omega, by omega⟩
      obtain ⟨above, below'⟩ := inside _ List.mem_cons_self inRegion
      rw [kept _ above below']
      exact first.2 i below

theorem region_subset {start : Nat} (above : low ≤ start) (below : start + size ≤ high) :
    region start size ⊆ Set.Ico low high :=
  Set.Ico_subset_Ico above below

theorem disjoint_of_sides {middle : Nat} {r s : Set Nat} (below : r ⊆ Set.Ico low middle)
    (above : s ⊆ Set.Ico middle high) : Disjoint r s :=
  Set.disjoint_left.mpr fun _ isBelow isAbove =>
    absurd (below isBelow).2 (Nat.not_lt.mpr (above isAbove).1)

theorem StringsPushed.cons {arg : List Byte} {pointer : BitVec 64} (inStack : InStack base high)
    (isPointer : pointer.toNat = high - room (arg.length + 1)) (fits : room (arg.length + 1) ≤ high)
    (first : Pushed m m₁ pagetable base high (arg.length + 1) (cstring arg))
    (rest : StringsPushed m₁ m' pagetable base low (high - room (arg.length + 1)) pointers argv) :
    StringsPushed m m' pagetable base low high (pointer :: pointers) (arg :: argv) := by
  have covers : arg.length + 1 ≤ room (arg.length + 1) := by unfold room; omega
  have low_le := rest.le
  have base_le := first.inStack.low
  have high_le := inStack.high
  refine ⟨rest.stack, rest.entries.trans first.entries, rest.inStack, by omega,
    .cons ⟨?_, fun i below => ?_⟩ rest.strings, ?_, List.pairwise_cons.mpr ⟨?_, rest.disjoint⟩,
    fun va above inPage => ?_⟩
  · rw [isPointer]
    exact first.inStack.aligned
  · rw [isPointer, rest.kept _ (by omega) (by omega)]
    exact first.bytes i (by omega)
  · rintro r (_ | ⟨_, member⟩)
    · exact region_subset (by omega) (by omega)
    · exact (rest.inside r member).trans (Set.Ico_subset_Ico_right (by omega))
  · exact fun r member => (disjoint_of_sides (rest.inside r member)
      (region_subset (Nat.le_of_eq isPointer.symm) (Nat.le_refl _))).symm
  · rw [rest.kept va (by omega) inPage, first.kept va above inPage]

/-- **The loop that pushes the strings** comes to its end exactly if there is room for all. -/
theorem pushStrings_pushes (stack : Stack m pagetable base) (inStack : InStack base sp)
    (argv : List (List Byte)) (ustack : List (BitVec 64))
    (fewer : ustack.length + argv.length ≤ MAXARG) :
    (base + stringRoom argv ≤ sp ∧ ∃ pointers m',
        pushStrings pagetable (BitVec.ofNat 64 base) argv ustack m (BitVec.ofNat 64 sp) =
          .ok (some (BitVec.ofNat 64 (sp - stringRoom argv), ustack ++ pointers), m') ∧
        StringsPushed m m' pagetable base (sp - stringRoom argv) sp pointers argv) ∨
      (sp < base + stringRoom argv ∧ ∃ m',
        pushStrings pagetable (BitVec.ofNat 64 base) argv ustack m (BitVec.ofNat 64 sp) =
          .ok (none, m')) := by
  induction argv generalizing m ustack sp with
  | nil =>
      refine .inl ⟨inStack.low, [], m, ?_, stack, rfl, inStack, Nat.le_refl sp, .nil, nofun, .nil,
        fun _ _ _ => rfl⟩
      rw [List.append_nil]
      rfl
  | cons arg argv ih =>
      have notFull : ¬ ustack.length ≥ MAXARG := by
        rw [List.length_cons] at fewer
        omega
      have isLowered : BitVec.ofNat 64 sp - BitVec.ofNat 64 (arg.length + 1) -
          (BitVec.ofNat 64 sp - BitVec.ofNat 64 (arg.length + 1)) % 16 =
          lowered sp (arg.length + 1) := rfl
      simp only [pushStrings, if_neg notFull, isLowered]
      rw [stringRoom_cons]
      rcases stack.push inStack (cstring arg) (show 0 < arg.length + 1 by omega) with
        ⟨fits, isNext, notBelow, m₁, ran, pushed⟩ | ⟨noRoom, stops⟩
      · simp only [if_neg notBelow, ran]
        have fewer' : (ustack ++ [lowered sp (arg.length + 1)]).length + argv.length ≤ MAXARG := by
          simp only [List.length_append, List.length_cons, List.length_nil] at fewer ⊢
          omega
        rcases ih pushed.stack pushed.inStack
          (ustack ++ [lowered sp (arg.length + 1)]) fewer' with
          ⟨fitsRest, pointers, m', ran', rest⟩ | ⟨noRoom, m', ran'⟩
        · refine .inl ⟨by omega, lowered sp (arg.length + 1) :: pointers, m', ?_, ?_⟩
          · rw [isNext] at ran' ⊢
            rw [ran', List.append_assoc, Nat.sub_sub]
            rfl
          · have isPointer : (lowered sp (arg.length + 1)).toNat = sp - room (arg.length + 1) := by
              have small := stack.small
              have high := inStack.high
              rw [isNext, BitVec.toNat_ofNat, Nat.mod_eq_of_lt (by omega)]
            rw [← Nat.sub_sub]
            exact .cons inStack isPointer (by omega) pushed rest
        · refine .inr ⟨by omega, m', ?_⟩
          rw [isNext] at ran' ⊢
          exact ran'
      · refine .inr ⟨by omega, ?_⟩
        rcases stops with below | ⟨notBelow, m', failed⟩
        · exact ⟨m, if_pos below⟩
        · exact ⟨m', by simp only [if_neg notBelow, failed]⟩

/-! ## The array of pointers -/

/-- The objects that the kernel puts on the stack. -/
def stackRegions (sp : BitVec 64) (pointers : List (BitVec 64)) (argv : List (List Byte)) :
    List (Set Nat) :=
  region sp.toNat ((argv.length + 1) * 8) :: stringRegions pointers argv

/-- The arguments are on a stack that ends at `sz`: at `sp` is the array of pointers with its null
pointer. -/
structure Passed (m : Memory) (pagetable : Addr) (sz : Nat) (sp : BitVec 64)
    (pointers : List (BitVec 64)) (argv : List (List Byte)) : Prop where
  aligned : sp.toNat % 16 = 0
  words : ∀ i, i ≤ argv.length →
    WordCopy m pagetable (sp.toNat + 8 * i) ((pointers ++ [0]).getD i 0)
  strings : List.Forall₂ (PointsTo m pagetable) pointers argv
  disjoint : (stackRegions sp pointers argv).Pairwise Disjoint
  inside : ∀ r ∈ stackRegions sp pointers argv, r ⊆ Set.Ico (sz - PGSIZE) sz

/-- The arguments stay if the page of the stack stays. -/
theorem Passed.kept {sz : Nat} {sp : BitVec 64} (passed : Passed m pagetable sz sp pointers argv)
    (kept : ∀ va, sz - PGSIZE ≤ va → va < sz →
      userByte m' pagetable va = userByte m pagetable va) :
    Passed m' pagetable sz sp pointers argv := by
  refine ⟨passed.aligned, fun i below j inWord => ?_, ?_, passed.disjoint, passed.inside⟩
  · have inArray : sp.toNat + 8 * i + j ∈ region sp.toNat ((argv.length + 1) * 8) :=
      Set.mem_Ico.mpr ⟨by omega, by omega⟩
    obtain ⟨above, below'⟩ := passed.inside _ List.mem_cons_self inArray
    rw [kept _ above below']
    exact passed.words i below j inWord
  · exact pointsTo_kept passed.strings
      (fun r member => passed.inside r (List.mem_cons_of_mem _ member)) kept

theorem wordBytes_at (words : List (BitVec 64)) (i : Nat) {j : Nat} (inWord : j < 8) :
    wordBytes words (8 * i + j) = (words.getD i 0).extractLsb' (8 * j) 8 := by
  have isQuotient : (8 * i + j) / 8 = i := by omega
  have isRemainder : (8 * i + j) % 8 = j := by omega
  rw [wordBytes, isQuotient, isRemainder]

theorem Pushed.passed {sp : BitVec 64}
    (strings : StringsPushed m m₁ pagetable base low (base + PGSIZE) pointers argv)
    (isPointer : sp.toNat = low - room ((argv.length + 1) * 8))
    (fits : room ((argv.length + 1) * 8) ≤ low)
    (array : Pushed m₁ m' pagetable base low ((argv.length + 1) * 8)
      (wordBytes (pointers ++ [0]))) :
    Passed m' pagetable (base + PGSIZE) sp pointers argv := by
  have covers : (argv.length + 1) * 8 ≤ room ((argv.length + 1) * 8) := by unfold room; omega
  have low_le := strings.le
  have base_le := array.inStack.low
  refine ⟨?_, fun i below j inWord => ?_, ?_, List.pairwise_cons.mpr ⟨?_, strings.disjoint⟩, ?_⟩
  · rw [isPointer]
    exact array.inStack.aligned
  · rw [Nat.add_assoc, isPointer, array.bytes _ (by omega), wordBytes_at _ _ inWord]
  · refine pointsTo_kept strings.strings strings.inside fun va above below => ?_
    exact array.kept va above below
  · exact fun r member => disjoint_of_sides (region_subset (Nat.le_refl _) (by omega))
      (strings.inside r member)
  · rw [Nat.add_sub_cancel]
    rintro r (_ | ⟨_, member⟩)
    · exact region_subset (by omega) (by omega)
    · exact (strings.inside r member).trans (Set.Ico_subset_Ico_left strings.inStack.low)

theorem pushArgs_passes (stack : Stack m pagetable base) (argv : List (List Byte))
    (fewer : argv.length < MAXARG) :
    (Fits argv ∧ ∃ sp pointers m',
        pushArgs m pagetable (base + PGSIZE) argv = .ok (some sp, m') ∧
        entries m' pagetable = entries m pagetable ∧
        Passed m' pagetable (base + PGSIZE) sp pointers argv) ∨
      (¬ Fits argv ∧ ∃ m', pushArgs m pagetable (base + PGSIZE) argv = .ok (none, m')) := by
  have isBase : BitVec.ofNat 64 (base + PGSIZE) - BitVec.ofNat 64 PGSIZE =
      BitVec.ofNat 64 base := by
    rw [BitVec.ofNat_add, BitVec.add_sub_cancel]
  have top : InStack base (base + PGSIZE) := by
    have aligned := stack.aligned
    refine ⟨Nat.le_add_right .., Nat.le_refl _, ?_⟩
    unfold PGSIZE
    omega
  simp only [pushArgs, isBase]
  unfold Fits
  rcases pushStrings_pushes stack top argv [] (by rw [List.length_nil]; omega) with
    ⟨fits, pointers, m₁, ran, strings⟩ | ⟨noRoom, m', ran⟩
  · rw [ran]
    generalize isLow : base + PGSIZE - stringRoom argv = low at *
    have isLowered : BitVec.ofNat 64 low - BitVec.ofNat 64 ((argv.length + 1) * 8) -
        (BitVec.ofNat 64 low - BitVec.ofNat 64 ((argv.length + 1) * 8)) % 16 =
        lowered low ((argv.length + 1) * 8) := rfl
    simp only [List.nil_append, isLowered]
    rcases strings.stack.push strings.inStack (wordBytes (pointers ++ [0]))
      (show 0 < (argv.length + 1) * 8 by omega) with
      ⟨fitsArray, isNext, notBelow, m', ran', array⟩ | ⟨noRoom, stops⟩
    · refine .inl ⟨by omega, lowered low ((argv.length + 1) * 8), pointers, m', ?_,
        array.entries.trans strings.entries, array.passed strings ?_ (by omega)⟩
      · rw [if_neg notBelow, ran']
        rfl
      · have small := stack.small
        have high := strings.le
        rw [isNext, BitVec.toNat_ofNat, Nat.mod_eq_of_lt (by omega)]
    · refine .inr ⟨by omega, ?_⟩
      rcases stops with below | ⟨notBelow, m', failed⟩
      · exact ⟨m₁, if_pos below⟩
      · refine ⟨m', ?_⟩
        rw [if_neg notBelow, failed]
        rfl
  · rw [ran]
    exact .inr ⟨by omega, m', rfl⟩

/-! ## The new address space -/

variable {n : Nat} {top : Nat → Option Pte}

theorem guarded_stack (guarded : Guarded m pagetable n) (space : Space m pagetable top (n + 2))
    (owned : Owned layout m (spacePages m pagetable (n + 2))) (notForUser : NotForUser top) :
    Stack m pagetable ((n + 1) * PGSIZE) := by
  have bound := space.le_pages owned
  have isCount : PHYSPAGES = 32768 := rfl
  have isSize : PGSIZE = 4096 := rfl
  have isTop : (n + 1) * PGSIZE + PGSIZE = (n + 2) * PGSIZE := by rw [← Nat.succ_mul]
  refine ⟨fun va low high => ?_, fun va high => ?_, space.nonNull owned notForUser,
    space.apart owned notForUser, space.distinct owned notForUser, by rw [isSize]; omega,
    by rw [isSize]; omega⟩
  · have isPage : va / PGSIZE = n + 1 := by
      rw [isSize] at *
      omega
    obtain ⟨pte, isEntry, forUser⟩ := guarded.stack
    refine ⟨pte, ?_, by rw [isPage, isEntry], forUser⟩
    rw [isPage]
    exact Nat.lt_of_lt_of_le (by omega) (show 32768 ≤ VPAGES by decide)
  · rintro ⟨pte, isPage⟩
    have inside := userPage_lt space notForUser isPage
    rw [page_lt_iff] at inside
    omega

theorem guarded_notUser (guarded : Guarded m pagetable n) {va : Nat} (low : n * PGSIZE ≤ va)
    (high : va < (n + 1) * PGSIZE) : ¬ IsUser m pagetable va := by
  have isPage : va / PGSIZE = n := by
    unfold PGSIZE at *
    omega
  rintro ⟨pte, isUser⟩
  obtain ⟨pte', isEntry, notForUser⟩ := guarded.guard
  have same := isUser.isEntry
  rw [isPage, isEntry] at same
  cases same
  exact isUser.forUser notForUser

/-- How a program finds its arguments: `a1` has the address of the array of pointers. The stack is
one page, the last; the user may not access the page below. -/
structure Started (m : Memory) (p : UserMemory) (argv : List (List Byte)) : Prop where
  passed : ∃ pointers, Passed m p.pagetable p.sz (m.store p.trapframe a1Word) pointers argv
  pages : 2 * PGSIZE ≤ p.sz ∧ p.sz % PGSIZE = 0
  stack : ∀ va, p.sz - PGSIZE ≤ va → va < p.sz → IsUser m p.pagetable va
  guard : ∀ va, p.sz - 2 * PGSIZE ≤ va → va < p.sz - PGSIZE → ¬ IsUser m p.pagetable va

variable {p : UserMemory} {file : Option Reader}

/-- **`exec` from the arguments on** succeeds exactly if they fit. -/
theorem execArgs_starts (space : HasSpace layout m p) (owned : Owned layout m (userPages m p))
    (prepared : Prepared layout m m₁ p.trapframe pagetable (n + 2))
    (guarded : Guarded m₁ pagetable n) (entry : BitVec 64) (argv : List (List Byte))
    (fewer : argv.length < MAXARG) :
    ∃ ret p' m', execArgs layout m₁ p pagetable ((n + 2) * PGSIZE) entry argv = .ok (ret, p', m') ∧
      (Fits argv ∧ ret = argv.length ∧ Started m' p' argv ∨ ¬ Fits argv ∧ ret = -1) := by
  have free : Owned layout m 0 := owned.mono (Multiset.zero_le _)
  have notForUser := supervisor_notForUser layout p.trapframe
  have ownedNew := free.moved prepared.transfer
  have isTop : (n + 1) * PGSIZE + PGSIZE = (n + 2) * PGSIZE := by rw [← Nat.succ_mul]
  obtain ⟨result, m₂, ran₂, pushed⟩ :=
    pushArgs_spec prepared.space ownedNew notForUser ((n + 2) * PGSIZE) argv
  have complete := prepared.reshape pushed
  rw [execArgs, ran₂]
  have stack := guarded_stack guarded prepared.space ownedNew notForUser
  rcases pushArgs_passes stack argv fewer with
    ⟨fits, sp, pointers, m₃, ran, sameEntries, passed⟩ | ⟨noRoom, m₃, ran⟩
  · rw [isTop, ran₂] at ran
    cases ran
    rw [← npages_mul (n + 2)] at complete
    obtain ⟨m', ran', -, committed⟩ :=
      execCommit_spec space owned complete argv.length entry sp
    have sameEntries' := committed.entries.trans sameEntries
    have kept : ∀ va, va < (n + 2) * PGSIZE →
        userByte m' pagetable va = userByte m₂ pagetable va := by
      intro va inside
      refine userByte_of_kept committed.kept (fun page _ => by rw [committed.entries]) ?_
      rwa [npages_mul]
    have isGuard : (n + 2) * PGSIZE - 2 * PGSIZE = n * PGSIZE := by
      rw [Nat.add_mul, Nat.add_sub_cancel]
    have isStack : (n + 2) * PGSIZE - PGSIZE = (n + 1) * PGSIZE := by
      rw [← isTop, Nat.add_sub_cancel]
    rw [isTop] at passed
    refine ⟨_, _, m', ran', .inl ⟨fits, rfl, ⟨pointers, ?_⟩, ⟨?_, ?_⟩, fun va low high => ?_,
      fun va low high isUser => ?_⟩⟩
    · rw [committed.a1]
      exact passed.kept fun va _ high => kept va high
    · exact Nat.mul_le_mul_right PGSIZE (Nat.le_add_left 2 n)
    · exact Nat.mul_mod_left ..
    · dsimp only at low high
      rw [isStack] at low
      rw [← isTop] at high
      exact (isUser_congr sameEntries' va).mpr (stack.isUser va low high)
    · dsimp only at low high
      rw [isGuard] at low
      rw [isStack] at high
      exact guarded_notUser guarded low high ((isUser_congr sameEntries' va).mp isUser)
  · rw [isTop, ran₂] at ran
    cases ran
    rw [← npages_mul (n + 2)] at complete
    obtain ⟨m', ran', -⟩ := execBad_spec free complete
    exact ⟨-1, p, m', ran', .inr ⟨noRoom, rfl⟩⟩

/-- **`exec`** of a program that can be loaded, with arguments that fit. -/
theorem exec_succeeds (space : HasSpace layout m p) (owned : Owned layout m (userPages m p))
    (fewer : argv.length < MAXARG) (loads : loadable layout m p file = true) (fits : Fits argv) :
    ∃ p' m', exec layout m p file argv = .ok (argv.length, p', m') ∧ Started m' p' argv := by
  cases exec_staged (p := p) (owned.mono (Multiset.zero_le _)) file with
  | failed fails ran released =>
      rw [loads] at fails
      cases fails
  | ready _ entry prepared guarded ran =>
      obtain ⟨ret, p', m', ran', outcome⟩ :=
        execArgs_starts space owned prepared guarded entry argv fewer
      rcases outcome with ⟨-, rfl, started⟩ | ⟨noRoom, -⟩
      · exact ⟨p', m', (ran argv).trans ran', started⟩
      · exact absurd fits noRoom

theorem exec_fails (space : HasSpace layout m p) (owned : Owned layout m (userPages m p))
    (fewer : argv.length < MAXARG) (stops : ¬ (loadable layout m p file = true ∧ Fits argv)) :
    ∃ p' m', exec layout m p file argv = .ok (-1, p', m') := by
  cases exec_staged (p := p) (owned.mono (Multiset.zero_le _)) file with
  | failed _ ran released => exact ⟨p, _, ran argv⟩
  | ready loads entry prepared guarded ran =>
      obtain ⟨ret, p', m', ran', outcome⟩ :=
        execArgs_starts space owned prepared guarded entry argv fewer
      rcases outcome with ⟨fits, -⟩ | ⟨-, rfl⟩
      · exact absurd ⟨loads, fits⟩ stops
      · exact ⟨p', m', (ran argv).trans ran'⟩

/-- **`exec` passes the arguments**, if they are fewer than `MAXARG`. It fails exactly if a step
before them fails or they do not fit in the page of the stack; otherwise it returns their number and
the program finds them. -/
theorem exec_passes_arguments (space : HasSpace layout m p) (owned : Owned layout m (userPages m p))
    (file : Option Reader) (argv : List (List Byte)) (fewer : argv.length < MAXARG) :
    ∃ ret p' m', exec layout m p file argv = .ok (ret, p', m') ∧
      (ret = -1 ↔ ¬ (loadable layout m p file = true ∧ Fits argv)) ∧
      (ret ≠ -1 → ret = argv.length ∧ Started m' p' argv) := by
  by_cases passes : loadable layout m p file = true ∧ Fits argv
  · obtain ⟨p', m', ran, started⟩ := exec_succeeds space owned fewer passes.1 passes.2
    refine ⟨_, p', m', ran, ⟨fun isError => ?_, fun fails => absurd passes fails⟩,
      fun _ => ⟨rfl, started⟩⟩
    omega
  · obtain ⟨p', m', ran⟩ := exec_fails space owned fewer passes
    exact ⟨-1, p', m', ran, ⟨fun _ => passes, fun _ => rfl⟩, fun succeeds => absurd rfl succeeds⟩

/-- A program with one segment: two instructions at address 0. -/
def smallProgram : List Byte :=
  [0x7F, 0x45, 0x4C, 0x46] ++ List.replicate 28 0 ++ [64] ++ List.replicate 23 0 ++ [1] ++
    List.replicate 7 0 ++
  [1, 0, 0, 0, 5, 0, 0, 0, 120] ++ List.replicate 23 0 ++ [8] ++ List.replicate 7 0 ++ [8] ++
    List.replicate 15 0 ++
  [0x13, 0x05, 0x00, 0x00, 0x67, 0x80, 0x00, 0x00]

/-- The first process, with three pages, executes it with the arguments `ls` and `/`. -/
theorem exec_passes_arguments_two : ∃ m p p' m', HasSpace megabyteKernel m p ∧
    Owned megabyteKernel m (userPages m p) ∧ p.sz = 8193 ∧
    [[0x6C, 0x73], [0x2F]].length < MAXARG ∧
    loadable megabyteKernel m p (some (fileReader smallProgram)) = true ∧
    exec megabyteKernel m p (some (fileReader smallProgram)) [[0x6C, 0x73], [0x2F]] =
      .ok (2, p', m') ∧ Started m' p' [[0x6C, 0x73], [0x2F]] := by
  obtain ⟨m, p, space, owned, checked⟩ := exists_process [(0, .sbrk 4097)]
    (fun m p => p.sz = 8193 ∧ loadable megabyteKernel m p (some (fileReader smallProgram)) = true)
    (by decide +kernel)
  rw [decide_eq_true_eq] at checked
  obtain ⟨isSize, loads⟩ := checked
  obtain ⟨ret, p', m', ran, fails_iff, started⟩ := exec_passes_arguments space owned
    (some (fileReader smallProgram)) [[0x6C, 0x73], [0x2F]] (by decide)
  have fits : Fits [[0x6C, 0x73], [0x2F]] := by decide
  have succeeds : ret ≠ -1 := fun fails => fails_iff.mp fails ⟨loads, fits⟩
  obtain ⟨rfl, isStarted⟩ := started succeeds
  exact ⟨m, p, p', m', space, owned, isSize, by decide, loads, ran, isStarted⟩

end Xv6.Procs
