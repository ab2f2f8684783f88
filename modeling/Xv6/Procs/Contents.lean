import Xv6.Procs.Conservation
import Xv6.Vm.Copying

/-!
Contract: what a process finds in its memory.

Owns: that `growproc` keeps the memory that stays and adds zeros, for which requests it does
what was asked, that `uvmcopy` gives a child the bytes and flags of its parent in pages of its
own, and that neither then sees what the other writes.

Does not own: the pages a process has (`Conservation`).
-/

namespace Xv6.Procs

open Xv6.Format
open Xv6.Kernel
open Xv6.Pools
open Xv6.Vm

variable {layout : Layout} {m m' : Memory} {pagetable : Addr} {n n' : Nat}
  {top : Nat → Option Pte}

/-! ## Bytes of pages that stay -/

theorem page_lt_iff (va n : Nat) : va / PGSIZE < n ↔ va < n * PGSIZE :=
  Nat.div_lt_iff_lt_mul (by decide)

theorem userByte_of_kept (kept : Vm.Kept m m' pagetable n)
    (same : ∀ page, page < n → entries m' pagetable page = entries m pagetable page) {va : Nat}
    (inside : va < n * PGSIZE) : userByte m' pagetable va = userByte m pagetable va := by
  have inPages := (page_lt_iff va n).mpr inside
  rw [userByte, userByte, same _ inPages]
  cases isEntry : entries m pagetable (va / PGSIZE) with
  | none => rfl
  | some pte => rw [Option.map_some, Option.map_some, kept _ pte inPages isEntry]

/-! ## growproc -/

/-- What `growproc` is to do, by its result. -/
def GrowLaw (m m' : Memory) (pagetable : Addr) (sz : Nat) (n : Int) : Option Nat → Prop
  | none => entries m' pagetable = entries m pagetable ∧
      ∀ va, va < PGROUNDUP sz → userByte m' pagetable va = userByte m pagetable va
  | some sz' => (sz' : Int) = sz + n ∧
      (∀ va, va < min sz sz' → userByte m' pagetable va = userByte m pagetable va) ∧
      ∀ va, PGROUNDUP sz ≤ va → va < PGROUNDUP sz' → userByte m' pagetable va = some 0

theorem GrowLaw.of_resized {sz : Nat} {change : Int} {result : Option Nat}
    (space : Space m pagetable top (npages sz))
    (resized : Resized (ZeroPage PTE_W) m m' pagetable top (npages sz) (npages (result.getD sz)))
    (isSize : ∀ sz', result = some sz' → (sz' : Int) = sz + change) :
    GrowLaw m m' pagetable sz change result := by
  cases result with
  | none =>
      have kept := resized.kept
      rw [Option.getD_none] at resized kept
      rw [Nat.min_self] at kept
      refine ⟨funext fun page => ?_, fun va inside => ?_⟩
      · by_cases isUser : page < npages sz
        · exact resized.old page isUser isUser
        · rw [resized.space.above page (Nat.le_of_not_lt isUser),
            space.above page (Nat.le_of_not_lt isUser)]
      · exact userByte_of_kept kept (fun page below => resized.old page below below) inside
  | some sz' =>
      rw [Option.getD_some] at resized
      refine ⟨isSize sz' rfl, fun va inside => ?_, fun va low high => ?_⟩
      · refine userByte_of_kept resized.kept
          (fun page below => resized.old page (by omega) (by omega)) ?_
        have below := le_npages sz
        have below' := le_npages sz'
        rcases Nat.le_total (npages sz) (npages sz') with le | le
        · rw [Nat.min_eq_left le]
          omega
        · rw [Nat.min_eq_right le]
          omega
      · rw [PGROUNDUP_eq, ← page_lt_iff] at high
        rw [PGROUNDUP_eq] at low
        have outside : npages sz ≤ va / PGSIZE := (Nat.le_div_iff_mul_le (by decide)).mpr low
        obtain ⟨pte, isEntry, _, isZero⟩ := resized.new _ outside high
        rw [userByte_eq isEntry, isZero, Page.bytes_zero]

/-- **`growproc`** does what it is to do exactly for the requests that do not ask for a negative
size. Those are granted without effect. -/
theorem growproc_lawful_iff {p : UserMemory} (space : HasSpace layout m p)
    (owned : Owned layout m (userPages m p)) (n : BitVec 32) :
    ∃ result m', growproc layout m p.pagetable p.sz n.toInt = .ok (result, m') ∧
      (GrowLaw m m' p.pagetable p.sz n.toInt result ↔ 0 ≤ (p.sz : Int) + n.toInt) := by
  have ownedSpace := owned.mono (Multiset.le_add_left (spacePages m p.pagetable (npages p.sz)) _)
  have low := n.le_toInt
  have high := n.toInt_lt
  have small : p.sz ≤ 2 ^ 27 := by
    have bound := space.le_pages ownedSpace
    have covers := le_npages p.sz
    have isCount : PHYSPAGES = 32768 := rfl
    unfold PGSIZE at covers
    omega
  obtain ⟨result, m', ran, resized, grows, shrinks, stays⟩ :=
    growproc_spec space ownedSpace n.toInt
  refine ⟨result, m', ran, fun lawful => ?_, fun inRange =>
    .of_resized space resized fun sz' isSome => ?_⟩
  · by_contra isNegative
    have isSize : requested p.sz n.toInt = 2 ^ 64 + p.sz + n.toInt := by
      unfold requested
      omega
    rw [shrinks (by omega)] at lawful
    have isNew : ((min p.sz (requested p.sz n.toInt) : Nat) : Int) = p.sz + n.toInt := lawful.1
    omega
  · have isSize : (requested p.sz n.toInt : Int) = p.sz + n.toInt := by
      unfold requested
      omega
    rcases Int.lt_trichotomy n.toInt 0 with negative | isZero | positive
    · rw [shrinks negative] at isSome
      cases isSome
      omega
    · rw [stays isZero] at isSome
      cases isSome
      omega
    · rcases grows positive with failed | grown
      · rw [failed] at isSome
        cases isSome
      · rw [grown] at isSome
        cases isSome
        omega

/-- The first process of a run from boot, with a property that can be evaluated. -/
theorem exists_process (calls : List (ProcId × Call)) (test : Memory → UserMemory → Bool)
    (checked : ((userinit megabyteKernel (bootPages 24) initcode).map fun s₀ =>
      (Runs.follow (step megabyteKernel) MayCall s₀ calls).any fun s =>
        (s.proc initproc).user.map (test s.mem) = .ok true) = .ok true) :
    ∃ m p, HasSpace megabyteKernel m p ∧ Owned megabyteKernel m (userPages m p) ∧
      test m p = true := by
  obtain ⟨_, s, -, -, invariant, passed⟩ := exists_of_boot 24 (by decide) (by decide) calls
    (fun s => (s.proc initproc).user.map (test s.mem) = .ok true) checked
  cases isUser : (s.proc initproc).user with
  | error panic =>
      rw [isUser] at passed
      cases passed
  | ok user =>
      obtain ⟨space, owned⟩ := invariant.pages.user isUser
      rw [isUser] at passed
      exact ⟨s.mem, user, space, owned, Except.ok.inj passed⟩

/-- A process of 4000 bytes asks for 4001 less, and is told that it has been done. -/
theorem growproc_below_zero : ∃ m p m', HasSpace megabyteKernel m p ∧
    Owned megabyteKernel m (userPages m p) ∧ p.sz = 4000 ∧
    growproc megabyteKernel m p.pagetable p.sz (-4001) = .ok (some 4000, m') ∧
    ¬ GrowLaw m m' p.pagetable p.sz (-4001) (some 4000) := by
  obtain ⟨m, p, space, owned, isSize⟩ :=
    exists_process [(0, .sbrk (-96))] (fun _ p => p.sz = 4000) (by decide +kernel)
  rw [decide_eq_true_eq] at isSize
  refine ⟨m, p, m, space, owned, isSize, ?_, fun lawful => ?_⟩
  · rw [isSize]
    rfl
  · have isNew : ((4000 : Nat) : Int) = p.sz + -4001 := lawful.1
    omega

/-- A process of 4000 bytes asks for 97 more: for a second page. -/
theorem growproc_lawful_iff_secondPage : ∃ m p m', HasSpace megabyteKernel m p ∧
    Owned megabyteKernel m (userPages m p) ∧ p.sz = 4000 ∧
    growproc megabyteKernel m p.pagetable p.sz 97 = .ok (some 4097, m') ∧
      GrowLaw m m' p.pagetable p.sz 97 (some 4097) := by
  obtain ⟨m, p, space, owned, checked⟩ := exists_process [(0, .sbrk (-96))]
    (fun m p => p.sz = 4000 ∧
      (growproc megabyteKernel m p.pagetable p.sz 97).map Prod.fst = .ok (some 4097))
    (by decide +kernel)
  rw [decide_eq_true_eq] at checked
  obtain ⟨isSize, isResult⟩ := checked
  obtain ⟨result, m', ran, lawful_iff⟩ := growproc_lawful_iff space owned 97
  have isChange : (97 : BitVec 32).toInt = 97 := by decide
  rw [isChange] at ran lawful_iff
  rw [ran, Except.map, Except.ok.injEq] at isResult
  cases isResult
  exact ⟨m, p, m', space, owned, isSize, ran, lawful_iff.mpr (by omega)⟩

/-! ## Copies of memory -/

/-- A store instruction of the user: the hardware refuses a page without `PTE_U` or `PTE_W`. -/
def userStore (pagetable : Addr) (m : Memory) (write : Nat × Byte) : Memory :=
  match entries m pagetable (write.1 / PGSIZE) with
  | some pte =>
      if pte &&& PTE_U ≠ 0 ∧ pte &&& PTE_W ≠ 0 then
        writePage m (PTE2PA pte) (write.1 % PGSIZE) (fun _ => write.2) 1
      else
        m
  | none => m

theorem userStore_transfer (space : Space m pagetable top n) (notForUser : NotForUser top)
    (write : Nat × Byte) :
    Transfer m (userStore pagetable m write) (leafPages (entries m pagetable) 0 n)
      (leafPages (entries m pagetable) 0 n) := by
  unfold userStore
  cases isEntry : entries m pagetable (write.1 / PGSIZE) with
  | none => exact .refl _ _
  | some pte =>
      dsimp only
      split
      · rename_i permitted
        refine Transfer.write m (mem_leafPages ?_ isEntry) _
        by_contra isAbove
        rw [space.above _ (Nat.le_of_not_lt isAbove)] at isEntry
        exact permitted.1 (notForUser _ pte isEntry)
      · exact .refl _ _

/-- **User stores through one page table** are invisible through another. -/
theorem userStores_invisible {mine other : Addr} {topMine topOther : Nat → Option Pte} {k : Nat}
    (writes : List (Nat × Byte)) (space : Space m mine topMine n) (notForUser : NotForUser topMine)
    (spaceOther : Space m other topOther k)
    (owned : Owned layout m (spacePages m mine n + spacePages m other k)) :
    entries (writes.foldl (userStore mine) m) other = entries m other ∧
      Vm.Kept m (writes.foldl (userStore mine) m) other k := by
  induction writes generalizing m with
  | nil => exact ⟨rfl, fun _ _ _ _ => rfl⟩
  | cons write writes ih =>
      have stored := userStore_transfer space notForUser write
      obtain ⟨_, next⟩ := space.written (owned.mono (Multiset.le_add_right ..)) stored
      obtain ⟨spaceOther', samePages, sameEntries⟩ := spaceOther.frame owned next.transfer
      have part : spacePages m mine n + leafPages (entries m other) 0 k ≤
          spacePages m mine n + spacePages m other k := by
        gcongr
        exact Multiset.le_add_right ..
      have kept := (owned.mono part).kept next.transfer
      have owned' := owned.transfer next.transfer
      rw [← samePages] at owned'
      obtain ⟨rest, keptRest⟩ := ih next.space spaceOther' owned'
      exact ⟨rest.trans sameEntries, kept.trans keptRest (Nat.le_refl k)
        fun page _ => by rw [sameEntries]⟩

theorem Resized.mem_free {fresh : Nat → Pte → Page → Prop}
    (resized : Resized fresh m m' pagetable top 0 n) {page : Nat} {pte : Pte} (inside : page < n)
    (isEntry : entries m' pagetable page = some pte) : PTE2PA pte ∈ m.free := by
  obtain ⟨added, isSum⟩ := Multiset.le_iff_exists_add.mp resized.nodes
  have conserved := resized.transfer.conserved
  rw [spacePages, spacePages, leafPages_zero, zero_add, isSum] at conserved
  have same : tableNodes m pagetable + ((m'.free : Multiset Addr) +
      (leafPages (entries m' pagetable) 0 n + added)) = tableNodes m pagetable + m.free := by
    rw [add_comm (tableNodes m pagetable) (m.free : Multiset Addr), ← conserved]
    abel
  have isFree := add_left_cancel same
  have isMember : PTE2PA pte ∈ (m.free : Multiset Addr) := by
    rw [← isFree]
    exact Multiset.mem_add.mpr (.inr (Multiset.mem_add.mpr (.inl (mem_leafPages inside isEntry))))
  exact isMember

theorem userByte_copy {old new : Addr}
    (resized : Resized (CopyOf m old) m m' new top 0 n) {va : Nat} (inside : va < n * PGSIZE) :
    userByte m' new va = userByte m old va ∧
      (entries m' new (va / PGSIZE)).map PTE_FLAGS =
      (entries m old (va / PGSIZE)).map PTE_FLAGS := by
  obtain ⟨pte', isEntry', pte, isEntry, isFlags, isCopy⟩ :=
    resized.new _ (Nat.zero_le _) ((page_lt_iff va n).mpr inside)
  refine ⟨by rw [userByte_eq isEntry', userByte_eq isEntry, isCopy], ?_⟩
  rw [isEntry', isEntry, Option.map_some, Option.map_some, isFlags]

/-- **`uvmcopy`** into the page table of a new process. If it succeeds, the child has the bytes
and flags of the parent in pages that were free, and neither process sees what the other writes
afterwards. If not, the child is as before, and only pages of its table have been taken. In both
cases the parent has what it had. -/
theorem uvmcopy_isolates {parent child : UserMemory} (parentSpace : HasSpace layout m parent)
    (childSpace : HasSpace layout m child) (isEmpty : child.sz = 0)
    (owned : Owned layout m (userPages m child + userPages m parent)) :
    ∃ ok m', uvmcopy layout m parent.pagetable child.pagetable parent.sz = .ok (ok, m') ∧
      entries m' parent.pagetable = entries m parent.pagetable ∧
      (∀ va, va < PGROUNDUP parent.sz →
        userByte m' parent.pagetable va = userByte m parent.pagetable va) ∧
      (ok = true →
        (∀ va, va < PGROUNDUP parent.sz →
          userByte m' child.pagetable va = userByte m parent.pagetable va ∧
          (entries m' child.pagetable (va / PGSIZE)).map PTE_FLAGS =
            (entries m parent.pagetable (va / PGSIZE)).map PTE_FLAGS) ∧
        (∀ page pte, page < npages parent.sz → entries m' child.pagetable page = some pte →
          PTE2PA pte ∈ m.free) ∧
        ∀ (writes : List (Nat × Byte)) va, va < PGROUNDUP parent.sz →
          userByte (writes.foldl (userStore child.pagetable) m') parent.pagetable va =
            userByte m' parent.pagetable va ∧
          userByte (writes.foldl (userStore parent.pagetable) m') child.pagetable va =
            userByte m' child.pagetable va) ∧
      (ok = false →
        entries m' child.pagetable = entries m child.pagetable ∧
        (∀ va, ¬ IsUser m' child.pagetable va) ∧
        (m'.free : Multiset Addr) + tableNodes m' child.pagetable =
          m.free + tableNodes m child.pagetable) := by
  have noPages : npages child.sz = 0 := by rw [isEmpty, npages_zero]
  rw [HasSpace, noPages] at childSpace
  have part : spacePages m child.pagetable 0 + spacePages m parent.pagetable (npages parent.sz) ≤
      userPages m child + userPages m parent := by
    rw [userPages_eq m child noPages, userPages_eq m parent rfl]
    exact add_le_add (Multiset.le_add_right ..) (Multiset.le_add_right ..)
  have ownedBoth := owned.mono part
  obtain ⟨ok, m', ran, resized⟩ := uvmcopy_spec parentSpace childSpace ownedBoth
    (supervisor_clear layout child.trapframe)
  obtain ⟨parentSpace', samePages, sameEntries⟩ := parentSpace.frame ownedBoth resized.transfer
  have keptParent : Vm.Kept m m' parent.pagetable (npages parent.sz) := by
    refine (ownedBoth.mono ?_).kept resized.transfer
    gcongr
    exact Multiset.le_add_right ..
  have owned' := ownedBoth.transfer resized.transfer
  rw [← samePages] at owned'
  refine ⟨ok, m', ran, sameEntries, fun va inside => ?_, ?_, ?_⟩
  · exact userByte_of_kept keptParent (fun page _ => by rw [sameEntries]) inside
  · rintro rfl
    rw [if_pos rfl] at resized owned'
    refine ⟨fun va inside => userByte_copy resized inside,
      fun page pte inside isEntry => Resized.mem_free resized inside isEntry,
      fun writes va inside => ⟨?_, ?_⟩⟩
    · obtain ⟨same, kept⟩ := userStores_invisible writes resized.space
        (supervisor_notForUser layout child.trapframe) parentSpace' owned'
      exact userByte_of_kept kept (fun page _ => by rw [same]) inside
    · rw [add_comm] at owned'
      obtain ⟨same, kept⟩ := userStores_invisible writes parentSpace'
        (supervisor_notForUser layout parent.trapframe) resized.space owned'
      exact userByte_of_kept kept (fun page _ => by rw [same]) inside
  · rintro rfl
    rw [if_neg Bool.false_ne_true] at resized
    have isSupervisor : entries m' child.pagetable = supervisor layout child.trapframe :=
      funext fun page => resized.space.above page (Nat.zero_le page)
    refine ⟨?_, ?_, ?_⟩
    · rw [isSupervisor]
      exact funext fun page => (childSpace.above page (Nat.zero_le page)).symm
    · rintro va ⟨pte, isPage⟩
      have isEntry := isPage.isEntry
      rw [isSupervisor] at isEntry
      exact isPage.forUser (supervisor_notForUser layout child.trapframe _ pte isEntry)
    · have conserved := resized.transfer.conserved
      rwa [spacePages, spacePages, leafPages_zero, leafPages_zero, zero_add, zero_add] at conserved

/-- The first process is copied: three pages, the first with its code. What the child writes
there it does not see. -/
theorem uvmcopy_isolates_threePages : ∃ m parent child m', HasSpace megabyteKernel m parent ∧
    HasSpace megabyteKernel m child ∧ parent.sz = 8193 ∧ child.sz = 0 ∧
    Owned megabyteKernel m (userPages m child + userPages m parent) ∧
    uvmcopy megabyteKernel m parent.pagetable child.pagetable parent.sz = .ok (true, m') ∧
    (∀ va, va < 3 * PGSIZE →
      userByte m' child.pagetable va = userByte m parent.pagetable va) ∧
    userByte m' child.pagetable 0 = some 0x17 ∧
    userByte (userStore child.pagetable m' (0, 0xFF)) child.pagetable 0 = some 0xFF ∧
    userByte (userStore child.pagetable m' (0, 0xFF)) parent.pagetable 0 = some 0x17 := by
  -- The child of an earlier `fork` has given its memory back.
  obtain ⟨_, s, -, -, invariant, hasParent, hasChild, isSize, isEmpty, passed⟩ :=
    exists_of_boot 24 (by decide) (by decide) [(0, .sbrk 4097), (0, .fork), (1, .sbrk (-8193))]
      (fun s => (s.proc 0).state ≠ .UNUSED ∧ (s.proc 1).state ≠ .UNUSED ∧ (s.proc 0).sz = 8193 ∧
        (s.proc 1).sz = 0 ∧
        ((s.proc 0).user.bind fun parent => (s.proc 1).user.bind fun child =>
          (uvmcopy megabyteKernel s.mem parent.pagetable child.pagetable parent.sz).map
            fun copied => (copied.1, [userByte copied.2 child.pagetable 0,
              userByte (userStore child.pagetable copied.2 (0, 0xFF)) child.pagetable 0])) =
          .ok (true, [some 0x17, some 0xFF]))
      (by decide +kernel)
  obtain ⟨parent, isParent⟩ := (invariant.tidy 0).present hasParent
  obtain ⟨child, isChild⟩ := (invariant.tidy 1).present hasChild
  have parentSpace := (invariant.pages.user isParent).1
  have childSpace := (invariant.pages.user isChild).1
  have owned := invariant.pages.users (by decide) isParent isChild
  rw [(user_eq isParent).2.2] at isSize
  rw [(user_eq isChild).2.2] at isEmpty
  obtain ⟨ok, m', ran, -, sameParent, copied, -⟩ :=
    uvmcopy_isolates parentSpace childSpace isEmpty owned
  simp only [isParent, isChild, Except.bind, ran, Except.map, Except.ok.injEq, Prod.mk.injEq,
    List.cons.injEq, and_true] at passed
  obtain ⟨rfl, isCode, isStored⟩ := passed
  obtain ⟨same, -, apart⟩ := copied rfl
  have threePages : PGROUNDUP parent.sz = 3 * PGSIZE := by rw [isSize]; decide
  rw [threePages] at same apart sameParent
  refine ⟨s.mem, parent, child, m', parentSpace, childSpace, isSize, isEmpty, owned, ran,
    fun va inside => (same va inside).1, isCode, isStored, ?_⟩
  calc userByte (userStore child.pagetable m' (0, 0xFF)) parent.pagetable 0
      = userByte m' parent.pagetable 0 := (apart [(0, 0xFF)] 0 (by decide)).1
    _ = userByte s.mem parent.pagetable 0 := sameParent 0 (by decide)
    _ = userByte m' child.pagetable 0 := (same 0 (by decide)).1.symm
    _ = some 0x17 := isCode

end Xv6.Procs
