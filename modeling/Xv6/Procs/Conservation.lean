import Xv6.Procs.Boot
import Xv6.Runs.Reachable
import Xv6.Vm.Translation

/-!
Contract: what holds in every state between system calls.

Owns: that every system call a process may make completes, that every page which was free
at boot is in one place after every run, and that the page table of every process maps
its memory, the trapframe and the trampoline and nothing else.
-/

namespace Xv6.Procs

open Xv6.Kernel
open Xv6.Pools
open Xv6.Runs
open Xv6.Vm

variable {layout : Layout} {m : Memory} {s s₀ : State} {p : ProcId} {page : Nat} {c : Call}
  {pagetable pa : Addr}

/-! ## Runs -/

theorem Completes.map {result : Except Panic (Int × State)}
    (completes : Completes layout s result) :
    CompletesOrSleeps layout s (result.map some) := by
  obtain ⟨ret, s', rfl, next⟩ := completes
  exact .inr ⟨ret, s', rfl, next⟩

/-- **Every system call** of a process that may call completes, or sleeps. -/
theorem call_completes (invariant : Invariant layout 0 s) (mayCall : MayCall s (p, c)) :
    CompletesOrSleeps layout s (call layout s p c) := by
  obtain ⟨isState, notInit⟩ := mayCall
  have isHere : (s.proc p).state ≠ .UNUSED := fun same => isState (by simp [same])
  have isOpen : (s.proc p).state ≠ .UNUSED ∧ (s.proc p).state ≠ .ZOMBIE :=
    ⟨isHere, fun same => isState (by simp [same])⟩
  cases c with
  | fork => exact (fork_completes invariant isHere).map
  | exec file fetch => exact (callExec_completes invariant isHere file fetch).map
  | exit status =>
      obtain ⟨s', ran, next⟩ := exit_completes invariant isOpen (notInit status rfl) status
      exact .inr ⟨0, s', congrArg (Except.map _) ran, next⟩
  | wait addr killed => exact wait_completes invariant isHere addr killed
  | sbrk n => exact (sysSbrk_completes invariant isHere n).map
  | pipe fdarray => exact (sysPipe_completes invariant isOpen fdarray).map
  | dup fd => exact (sysDup_completes invariant isOpen fd).map
  | close fd => exact (sysClose_completes invariant isOpen fd).map
  | openFile device readable writable =>
      exact (sysOpen_completes invariant isOpen device readable writable).map

theorem call_ok (invariant : Invariant layout 0 s) (mayCall : MayCall s (p, c)) :
    ∃ result, call layout s p c = .ok result := by
  rcases call_completes invariant mayCall with sleeps | ⟨ret, s', ran, -⟩
  · exact ⟨none, sleeps⟩
  · exact ⟨_, ran⟩

theorem step_next {s' : State} {action : ProcId × Call} (invariant : Invariant layout 0 s)
    (mayCall : MayCall s action) (stepped : step layout s action = some s') :
    Next layout 0 s s' := by
  unfold step at stepped
  rcases call_completes invariant mayCall with sleeps | ⟨ret, s₁, ran, next⟩
  · rw [sleeps] at stepped
    cases stepped
  · rw [ran] at stepped
    cases stepped
    exact next

theorem run_next (invariant : Invariant layout 0 s₀)
    (reachable : Reachable (step layout) MayCall s₀ s) : Next layout 0 s₀ s :=
  reachable.invariant invariant.next fun _ _ _ next mayCall stepped =>
    next.trans (step_next next.invariant mayCall stepped)

/-! ## Pages -/

/-- **Conservation of pages.** After every system call of a run from boot, every page that
was free before `userinit` is in exactly one place (the free list, the trapframe, the user
memory or the page table of one process, or one open pipe), other pages are in none, and
no call panics. -/
theorem pages_conserved (owned : Owned layout m 0) (enough : 10 ≤ m.free.length) (code : Page) :
    ∃ s₀, userinit layout m code = .ok s₀ ∧
      ∀ s, Reachable (step layout) MayCall s₀ s →
        (∀ page, (allPages s).count page = if page ∈ m.free then 1 else 0) ∧
        ∀ p c, MayCall s (p, c) → ∃ result, call layout s p c = .ok result := by
  obtain ⟨s₀, booted, first⟩ := userinit_spec owned enough code
  refine ⟨s₀, booted, fun s reachable => ?_⟩
  have next := first.trans (run_next first.invariant reachable)
  refine ⟨fun page => ?_, fun p c mayCall => call_ok next.invariant mayCall⟩
  have isFree : allPages s = (m.free : Multiset Addr) := by
    rw [next.conserved, allPages, unstarted_held, add_zero]
    rfl
  have once : (allPages s).Nodup := next.invariant.pages.owned.nodup
  rw [Multiset.count_eq_of_nodup once, isFree]
  rfl

/-- Free pages above a kernel of one megabyte. -/
def bootPages (count : Nat) : Memory where
  free := (List.range count).map fun i => BitVec.ofNat 64 (0x80200000 + i * PGSIZE)
  store := fun _ _ => 0

theorem bootPages_owned {count : Nat} (few : count ≤ 32256) :
    Owned megabyteKernel (bootPages count) 0 := by
  have isPlace : ∀ i, i < count →
      (BitVec.ofNat 64 (0x80200000 + i * PGSIZE)).toNat = 0x80200000 + i * PGSIZE := by
    intro i below
    rw [BitVec.toNat_ofNat, Nat.mod_eq_of_lt]
    unfold PGSIZE
    omega
  refine ⟨?_, fun a member => ?_⟩
  · rw [add_zero]
    refine Multiset.coe_nodup.mpr (List.Nodup.map_on (fun i inRange j inRange' same => ?_)
      List.nodup_range)
    have places := congrArg BitVec.toNat same
    rw [isPlace i (List.mem_range.mp inRange), isPlace j (List.mem_range.mp inRange')] at places
    unfold PGSIZE at places
    omega
  · rw [add_zero] at member
    obtain ⟨i, inRange, rfl⟩ := List.mem_map.mp member
    have below := List.mem_range.mp inRange
    rw [Layout.IsPage, isPlace i below]
    unfold PGSIZE PHYSTOP megabyteKernel KERNBASE
    refine ⟨by omega, ?_, by omega⟩
    dsimp only
    omega

/-- The page with `initcode` of `kernel/proc.c`. -/
def initcode : Page := fun i =>
  [0x0245051300000517, 0x0235859300000597, 0x0000007300700893, 0x0000007300200893,
    0x696E692FFF9FF0EF, 0x0000000024000074].getD i.val 0

/-- A state of a run from boot with `count` pages that has a decidable property. -/
theorem exists_of_boot (count : Nat) (few : count ≤ 32256) (enough : 10 ≤ count)
    (calls : List (ProcId × Call)) (test : State → Prop) [DecidablePred test]
    (checked : ((userinit megabyteKernel (bootPages count) initcode).map fun s₀ =>
      (follow (step megabyteKernel) MayCall s₀ calls).any (fun s => test s)) = .ok true) :
    ∃ s₀ s, userinit megabyteKernel (bootPages count) initcode = .ok s₀ ∧
      Reachable (step megabyteKernel) MayCall s₀ s ∧ Invariant megabyteKernel 0 s ∧ test s := by
  obtain ⟨s₀, booted, first⟩ :=
    userinit_spec (bootPages_owned few) (by simpa [bootPages] using enough) initcode
  rw [booted, Except.map, Except.ok.injEq] at checked
  obtain ⟨s, reachable, passed⟩ := exists_of_follow _ _ s₀ calls test checked
  exact ⟨s₀, s, booted, reachable, (run_next first.invariant reachable).invariant, passed⟩

/-- The first process grows and forks: of 24 pages, 6 are left. -/
theorem pages_conserved_fork : Owned megabyteKernel (bootPages 24) 0 ∧
    10 ≤ (bootPages 24).free.length ∧
    ∃ s₀ s, userinit megabyteKernel (bootPages 24) initcode = .ok s₀ ∧
      Reachable (step megabyteKernel) MayCall s₀ s ∧
      (s.proc 1).state = .RUNNABLE ∧ (s.proc 1).sz = 8193 ∧ s.mem.free.length = 6 ∧
      (∀ page, (allPages s).count page = if page ∈ (bootPages 24).free then 1 else 0) ∧
      ∀ p c, MayCall s (p, c) → ∃ result, call megabyteKernel s p c = .ok result := by
  obtain ⟨s₀, s, booted, reachable, -, isChild, isSize, isLeft⟩ := exists_of_boot
    24 (by decide) (by decide) [(0, .sbrk 4097), (0, .fork)]
    (fun s => (s.proc 1).state = .RUNNABLE ∧ (s.proc 1).sz = 8193 ∧ s.mem.free.length = 6)
    (by decide +kernel)
  have owned := bootPages_owned (show 24 ≤ 32256 by decide)
  obtain ⟨s₀', booted', conserved⟩ := pages_conserved owned (by decide) initcode
  rw [booted] at booted'
  cases booted'
  exact ⟨owned, by decide, s₀, s, booted, reachable, isChild, isSize, isLeft, conserved s reachable⟩

/-! ## Address spaces -/

/-- The page table of a process maps its memory, the trapframe and the trampoline, and
nothing else. -/
structure AddressSpace (s : State) (p : ProcId) (pagetable : Addr) : Prop where
  mapped : ∀ page, (entries s.mem pagetable page).isSome ↔
    page * PGSIZE < PGROUNDUP (s.proc p).sz ∨ page * PGSIZE = TRAPFRAME ∨
      page * PGSIZE = TRAMPOLINE
  readable : ∀ page pte, page * PGSIZE < PGROUNDUP (s.proc p).sz →
    entries s.mem pagetable page = some pte → pte &&& PTE_R ≠ 0
  notForUser : ∀ page pte, page * PGSIZE = TRAPFRAME ∨ page * PGSIZE = TRAMPOLINE →
    entries s.mem pagetable page = some pte → pte &&& PTE_U = 0

/-- A page of user memory: of which process, where, and which physical page it is. -/
def IsUserPage (s : State) (p : ProcId) (page : Nat) (pa : Addr) : Prop :=
  page * PGSIZE < PGROUNDUP (s.proc p).sz ∧ ∃ pagetable pte,
    (s.proc p).pagetable = some pagetable ∧ entries s.mem pagetable page = some pte ∧
      PTE2PA pte = pa

theorem lt_PGROUNDUP {sz : Nat} : page * PGSIZE < PGROUNDUP sz ↔ page < npages sz := by
  rw [PGROUNDUP_eq]
  exact Nat.mul_lt_mul_right (by decide)

theorem eq_TRAPFRAME : page * PGSIZE = TRAPFRAME ↔ page = trapframePage := by
  rw [TRAPFRAME_eq]
  exact Nat.mul_left_inj (by decide)

theorem eq_TRAMPOLINE : page * PGSIZE = TRAMPOLINE ↔ page = trampolinePage := by
  rw [TRAMPOLINE_eq]
  exact Nat.mul_left_inj (by decide)

theorem supervisor_isSome (layout : Layout) (trapframe : Addr) (page : Nat) :
    (supervisor layout trapframe page).isSome ↔ page = trapframePage ∨ page = trampolinePage := by
  rw [supervisor, Function.update_apply, Function.update_apply]
  split
  · simp [*]
  · split <;> simp [*]

/-- A process with a page table has the memory of a process. -/
theorem Pages.user_of_table (pages : Pages layout s)
    (isTable : (s.proc p).pagetable = some pagetable) :
    ∃ trapframe, (s.proc p).user = .ok { trapframe, pagetable, sz := (s.proc p).sz } := by
  obtain ⟨trapframe, isTrapframe, -⟩ := pages.images p pagetable isTable
  exact ⟨trapframe, user_of_fields isTrapframe isTable rfl⟩

theorem Pages.addressSpace (pages : Pages layout s)
    (isTable : (s.proc p).pagetable = some pagetable) : AddressSpace s p pagetable := by
  obtain ⟨trapframe, isUser⟩ := pages.user_of_table isTable
  obtain ⟨space, owned⟩ := pages.user isUser
  dsimp only [HasSpace] at space
  have few : npages (s.proc p).sz ≤ PHYSPAGES :=
    space.le_pages (owned.mono (Multiset.le_add_left ..))
  have outside : ∀ page, page = trapframePage ∨ page = trampolinePage →
      npages (s.proc p).sz ≤ page := by
    rintro page (rfl | rfl)
    · exact few.trans (by decide)
    · exact few.trans (by decide)
  refine ⟨fun page => ?_, fun page pte inside isEntry => ?_, fun page pte isTop isEntry => ?_⟩
  · rw [lt_PGROUNDUP, eq_TRAPFRAME, eq_TRAMPOLINE]
    by_cases inside : page < npages (s.proc p).sz
    · obtain ⟨pte, isEntry, -⟩ := space.user page inside
      simp [isEntry, inside]
    · rw [space.above page (by omega), supervisor_isSome]
      exact (or_iff_right inside).symm
  · obtain ⟨pte', isEntry', readable⟩ := space.user page (lt_PGROUNDUP.mp inside)
    rw [isEntry] at isEntry'
    cases isEntry'
    exact readable
  · rw [eq_TRAPFRAME, eq_TRAMPOLINE] at isTop
    rw [space.above page (outside page isTop)] at isEntry
    exact supervisor_notForUser layout trapframe page pte isEntry

theorem IsUserPage.mem (pages : Pages layout s) (isPage : IsUserPage s p page pa) :
    pa ∈ procPages s.mem (s.proc p) := by
  obtain ⟨inside, pagetable, pte, isTable, isEntry, rfl⟩ := isPage
  obtain ⟨trapframe, isUser⟩ := pages.user_of_table isTable
  rw [procPages_user isUser, userPages]
  refine Multiset.mem_add.mpr (.inr (Multiset.mem_add.mpr (.inl ?_)))
  exact mem_leafPages (lt_PGROUNDUP.mp inside) isEntry

theorem Pages.userPage_unique (pages : Pages layout s) {q : ProcId} {page' : Nat}
    (isPage : IsUserPage s p page pa) (isPage' : IsUserPage s q page' pa) :
    p = q ∧ page = page' := by
  have once := pages.owned.nodup
  have sameProc : p = q := by
    by_contra different
    have apart := (pages.ownedBy p).nodup
    have disjoint := (Multiset.nodup_add.mp (Multiset.nodup_add.mp apart).2.1).2.2
    exact Multiset.disjoint_left.mp disjoint (isPage.mem pages)
      (Multiset.mem_of_le (procPages_le (Ne.symm different)) (isPage'.mem pages))
  subst sameProc
  refine ⟨rfl, ?_⟩
  obtain ⟨inside, pagetable, pte, isTable, isEntry, rfl⟩ := isPage
  obtain ⟨inside', pagetable', pte', isTable', isEntry', same⟩ := isPage'
  rw [isTable] at isTable'
  cases isTable'
  obtain ⟨trapframe, isUser⟩ := pages.user_of_table isTable
  have owned := (pages.user isUser).2.mono
    ((Multiset.le_add_right ..).trans (Multiset.le_add_left ..))
  have leavesOnce := (Multiset.nodup_add.mp owned.nodup).2.1
  rw [lt_PGROUNDUP] at inside inside'
  rcases Nat.lt_trichotomy page page' with before | same' | after
  · exact absurd same.symm (leafPages_ne leavesOnce before inside' isEntry isEntry')
  · exact same'
  · exact absurd same (leafPages_ne leavesOnce after inside isEntry' isEntry)

/-- **Address spaces.** After every system call of a run from boot, the page table of every
process maps the pages of `[0, PGROUNDUP(sz))`, readable and each with its own physical
page, the trapframe and the trampoline without `PTE_U`, and nothing else; no call panics. -/
theorem address_spaces (owned : Owned layout m 0) (enough : 10 ≤ m.free.length) (code : Page) :
    ∃ s₀, userinit layout m code = .ok s₀ ∧
      ∀ s, Reachable (step layout) MayCall s₀ s →
        (∀ p pagetable, (s.proc p).pagetable = some pagetable → AddressSpace s p pagetable) ∧
        (∀ p q page page' pa, IsUserPage s p page pa → IsUserPage s q page' pa →
          p = q ∧ page = page') ∧
        ∀ p c, MayCall s (p, c) → ∃ result, call layout s p c = .ok result := by
  obtain ⟨s₀, booted, first⟩ := userinit_spec owned enough code
  refine ⟨s₀, booted, fun s reachable => ?_⟩
  have invariant := (run_next first.invariant reachable).invariant
  refine ⟨fun p pagetable isTable => invariant.pages.addressSpace isTable,
    fun p q page page' pa isPage isPage' => invariant.pages.userPage_unique isPage isPage',
    fun p c mayCall => call_ok invariant mayCall⟩

/-- The child of the first process maps its three pages, each to a page of its own. -/
theorem address_spaces_fork : Owned megabyteKernel (bootPages 24) 0 ∧
    10 ≤ (bootPages 24).free.length ∧
    ∃ s₀ s pagetable, userinit megabyteKernel (bootPages 24) initcode = .ok s₀ ∧
      Reachable (step megabyteKernel) MayCall s₀ s ∧
      (s.proc 1).sz = 8193 ∧ (s.proc 1).pagetable = some pagetable ∧
      AddressSpace s 1 pagetable ∧
      ∀ page pa, IsUserPage s 1 page pa → ¬ IsUserPage s 0 page pa := by
  obtain ⟨s₀, s, booted, reachable, -, isSize, hasTable⟩ := exists_of_boot
    24 (by decide) (by decide) [(0, .sbrk 4097), (0, .fork)]
    (fun s => (s.proc 1).sz = 8193 ∧ (s.proc 1).pagetable.isSome) (by decide +kernel)
  obtain ⟨pagetable, isTable⟩ := Option.isSome_iff_exists.mp hasTable
  have owned := bootPages_owned (show 24 ≤ 32256 by decide)
  obtain ⟨s₀', booted', spaces⟩ := address_spaces owned (by decide) initcode
  rw [booted] at booted'
  cases booted'
  obtain ⟨mapped, unique, -⟩ := spaces s reachable
  refine ⟨owned, by decide, s₀, s, pagetable, booted, reachable, isSize, isTable,
    mapped 1 pagetable isTable, fun page pa isChild isParent => ?_⟩
  exact absurd (unique 1 0 page page pa isChild isParent).1 (by decide)

end Xv6.Procs
