import Xv6.Vm.Space

/-!
Contract: the address space of a process from `proc_pagetable` to `proc_freepagetable`.

Owns: what the supervisor maps above the user pages (the trampoline and the trapframe,
without `PTE_U`), and the specifications of `proc_pagetable`, `proc_freepagetable`,
`uvmfree` and `growproc`.

Does not own: how user pages are added and removed (`Space`).
-/

namespace Xv6.Vm

open Xv6.Kernel
open Xv6.Pools
open Xv6.Radix
open Function

variable {layout : Layout} {m m' m₁ : Memory} {pagetable trapframe : Addr} {n sz : Nat}
  {top : Nat → Option Pte}

/-! ## Above the user pages -/

def trampolinePage : Nat := TRAMPOLINE / PGSIZE

def trapframePage : Nat := TRAPFRAME / PGSIZE

def trampolinePte (layout : Layout) : Pte :=
  PA2PTE layout.trampoline ||| (PTE_R ||| PTE_X) ||| PTE_V

def trapframePte (trapframe : Addr) : Pte := PA2PTE trapframe ||| (PTE_R ||| PTE_W) ||| PTE_V

def supervisor (layout : Layout) (trapframe : Addr) : Nat → Option Pte :=
  update (update (fun _ => none) trampolinePage (some (trampolinePte layout)))
    trapframePage (some (trapframePte trapframe))

theorem supervisor_clear (layout : Layout) (trapframe : Addr) :
    Clear (supervisor layout trapframe) := by
  intro page low
  have notTrapframe : page ≠ trapframePage := by
    intro same
    rw [same] at low
    exact absurd low (by decide)
  have notTrampoline : page ≠ trampolinePage := by
    intro same
    rw [same] at low
    exact absurd low (by decide)
  rw [supervisor, update_of_ne notTrapframe, update_of_ne notTrampoline]

/-- A page above the user pages is mapped, or nothing has changed. -/
theorem Space.mapTop (space : Space m pagetable top n)
    (owned : Owned layout m (spacePages m pagetable n)) {page : Nat} (isAbove : n ≤ page)
    (inSpace : page < VPAGES) (unmapped : top page = none) (pa : Addr) (perm : Pte) :
    ∃ ok m', mappages m pagetable (page * PGSIZE) PGSIZE pa perm = .ok (ok, m') ∧
      Reshaped m m' pagetable
        (if ok then update top page (some (PA2PTE pa ||| perm ||| PTE_V)) else top) n n := by
  have unmappedEntry : entries m pagetable (page * PGSIZE / PGSIZE) = none := by
    rw [mul_PGSIZE_div, space.above page isAbove, unmapped]
  obtain ⟨ok, m', ran, moved, -, -, isNext, keepsLinks⟩ := mappages_spec
    (owned.mono (Multiset.le_add_left ..)) (Nat.mul_mod_left page PGSIZE) (page_mul_lt inSpace)
    unmappedEntry pa perm
  rw [mul_PGSIZE_div] at isNext
  have lower : ∀ p, p < n → entries m' pagetable p = entries m pagetable p := by
    intro p inside
    rw [isNext]
    split
    · exact update_of_ne (by omega) ..
    · rfl
  have samePages : leafPages (entries m' pagetable) 0 n = leafPages (entries m pagetable) 0 n :=
    leafPages_congr fun p _ inside => lower p (by omega)
  refine ⟨ok, m', ran, ?_, keepsLinks space.linked, fun p inside => ?_, fun p outside => ?_⟩
  · refine moved.widen (add_comm ..) ?_
    rw [spacePages, samePages, add_comm]
  · rw [lower p inside]
    exact space.user p inside
  · rw [isNext]
    cases ok with
    | false => exact space.above p outside
    | true =>
        rw [if_pos rfl, if_pos rfl, update_apply, update_apply,
          space.above p outside]

theorem Space.unmapTop (space : Space m pagetable top n)
    (owned : Owned layout m (spacePages m pagetable n)) {page : Nat} (isAbove : n ≤ page)
    (inSpace : page < VPAGES) {pte : Pte} (mapped : top page = some pte)
    (readable : pte &&& PTE_R ≠ 0) :
    ∃ m', uvmunmap layout m pagetable (page * PGSIZE) 1 false = .ok m' ∧
      Reshaped m m' pagetable (update top page none) n n := by
  have ownedNodes : Owned layout m (freed false (leafPages (entries m pagetable) page 1) +
      tableNodes m pagetable) :=
    owned.mono (by simp [freed])
  obtain ⟨m', ran, moved, sameNodes, isNext, keepsLinks⟩ :=
    uvmunmap_spec ownedNodes (by omega) fun p low high => by
      obtain rfl : p = page := by omega
      exact ⟨pte, by rw [space.above p isAbove, mapped], flags_ne_of_readable readable⟩
  have lower : ∀ p, p < n → entries m' pagetable p = entries m pagetable p := by
    intro p inside
    rw [isNext]
    exact if_neg (by omega)
  have samePages : leafPages (entries m' pagetable) 0 n = leafPages (entries m pagetable) 0 n :=
    leafPages_congr fun p _ inside => lower p (by omega)
  refine ⟨m', ran, ?_, keepsLinks space.linked, fun p inside => ?_, fun p outside => ?_⟩
  · rw [freed, if_neg (by decide), zero_add] at moved
    refine moved.widen (add_comm ..) ?_
    rw [spacePages, samePages, add_comm]
  · rw [lower p inside]
    exact space.user p inside
  · rw [isNext, update_apply, ← space.above p outside]
    by_cases isPage : p = page
    · rw [if_pos isPage]
      exact if_pos (by omega)
    · rw [if_neg isPage]
      exact if_neg (by omega)

/-! ## uvmcreate and uvmfree -/

theorem uvmcreate_spec (created : uvmcreate m = some (pagetable, m')) :
    Transfer m m' 0 (spacePages m' pagetable 0) ∧ Space m' pagetable (fun _ => none) 0 := by
  obtain ⟨⟨node, m₁⟩, allocated, isResult⟩ := Option.map_eq_some_iff.mp created
  cases isResult
  have blank : (memset m₁ pagetable 0).store pagetable = fun _ => 0 := update_self ..
  have noChild : ∀ i, child ((memset m₁ pagetable 0).store pagetable i) = none := fun i => by
    rw [blank, child_zero]
  have alone : spacePages (memset m₁ pagetable 0) pagetable 0 = {pagetable} := by
    rw [spacePages, tableNodes, nodes_blank noChild, leafPages_zero, zero_add]
  refine ⟨?_, pointers_blank noChild, fun page inside => absurd inside (Nat.not_lt_zero page),
    fun page _ => ?_⟩
  · rw [alone]
    exact (kalloc_eq_some allocated).1.trans
      (Transfer.write m₁ (Multiset.mem_singleton_self pagetable) _)
  · rw [entries, lookup, validAt_blank blank]
    exact ite_self _

/-- **`uvmfree`** of a space with nothing above the user pages gives all pages back. -/
theorem uvmfree_spec (space : Space m pagetable (fun _ => none) (npages sz))
    (owned : Owned layout m (spacePages m pagetable (npages sz))) :
    ∃ m', uvmfree layout m pagetable sz = .ok m' ∧
      Transfer m m' (spacePages m pagetable (npages sz)) 0 := by
  have emptied : ∃ m₁,
      (if sz > 0 then uvmunmap layout m pagetable 0 (PGROUNDUP sz / PGSIZE) true else .ok m) =
          .ok m₁ ∧ Reshaped m m₁ pagetable (fun _ => none) (npages sz) 0 := by
    by_cases hasPages : sz > 0
    · obtain ⟨m₁, ran, shrunk⟩ :=
        space.shrink (fun _ _ _ => True) owned (fun _ _ => rfl) (Nat.zero_le _)
      rw [Nat.zero_mul, Nat.sub_zero] at ran
      refine ⟨m₁, ?_, shrunk.toReshaped⟩
      rw [if_pos hasPages, PGROUNDUP_eq, mul_PGSIZE_div, ran]
    · obtain rfl : sz = 0 := by omega
      exact ⟨m, rfl, .refl _ _, space⟩
  obtain ⟨m₁, ran, shrunk⟩ := emptied
  have nothing : MapsNothing m₁ 2 pagetable :=
    .of_entries shrunk.space.linked fun page => shrunk.space.above page (Nat.zero_le page)
  have onlyNodes : spacePages m₁ pagetable 0 = tableNodes m₁ pagetable := by
    rw [spacePages, leafPages_zero, zero_add]
  have moved := shrunk.transfer
  rw [onlyNodes] at moved
  obtain ⟨m', freed, released⟩ := freewalk_spec layout 2 m₁ pagetable (owned.moved moved) nothing
  refine ⟨m', ?_, moved.trans released⟩
  rw [uvmfree, ran]
  dsimp only [Except.bind]
  exact freed

/-! ## proc_pagetable and proc_freepagetable -/

theorem TRAMPOLINE_eq : TRAMPOLINE = trampolinePage * PGSIZE := by decide

theorem TRAPFRAME_eq : TRAPFRAME = trapframePage * PGSIZE := by decide

/-- **`proc_pagetable`** makes a space without user pages, or takes nothing. -/
theorem procPagetable_spec (owned : Owned layout m 0) (trapframe : Addr) :
    ∃ result m', procPagetable layout m trapframe = .ok (result, m') ∧
      (result = none ∧ Transfer m m' 0 0 ∨
        ∃ pagetable, result = some pagetable ∧ Transfer m m' 0 (spacePages m' pagetable 0) ∧
          Space m' pagetable (supervisor layout trapframe) 0) := by
  cases created : uvmcreate m with
  | none =>
      refine ⟨none, m, ?_, .inl ⟨rfl, .refl _ _⟩⟩
      simp only [procPagetable, created]
  | some creation =>
      obtain ⟨pagetable, m₁⟩ := creation
      obtain ⟨moved₁, space₁⟩ := uvmcreate_spec created
      have owned₁ := owned.moved moved₁
      obtain ⟨ok, m₂, ran₂, first⟩ := space₁.mapTop owned₁ (Nat.zero_le trampolinePage) (by decide)
        rfl layout.trampoline (PTE_R ||| PTE_X)
      rw [← TRAMPOLINE_eq] at ran₂
      have moved₂ := moved₁.trans first.transfer
      have owned₂ := owned.moved moved₂
      cases ok with
      | false =>
          obtain ⟨m', freed, released⟩ := uvmfree_spec
            (show Space m₂ pagetable (fun _ => none) (npages 0) from first.space) owned₂
          refine ⟨none, m', ?_, .inl ⟨rfl, moved₂.trans released⟩⟩
          simp only [procPagetable, created, ran₂, freed]
          rfl
      | true =>
          have isTop : update (fun _ => none) trampolinePage
              (some (trampolinePte layout)) trapframePage = none := rfl
          obtain ⟨ok, m₃, ran₃, second⟩ := first.space.mapTop owned₂ (Nat.zero_le trapframePage)
            (by decide) isTop trapframe (PTE_R ||| PTE_W)
          rw [← TRAPFRAME_eq] at ran₃
          have moved₃ := moved₂.trans second.transfer
          have owned₃ := owned.moved moved₃
          cases ok with
          | false =>
              have isMapped : update (fun _ => none) trampolinePage
                  (some (trampolinePte layout)) trampolinePage = some (trampolinePte layout) :=
                update_self ..
              obtain ⟨m₄, ran₄, third⟩ := second.space.unmapTop owned₃
                (Nat.zero_le trampolinePage) (by decide) isMapped
                (readable_mk (by decide) layout.trampoline)
              rw [← TRAMPOLINE_eq] at ran₄
              have isEmpty : update (update (fun _ => none) trampolinePage
                  (some (trampolinePte layout))) trampolinePage none =
                  fun _ => (none : Option Pte) := by
                rw [update_idem, update_eq_self_iff]
              have space₄ : Space m₄ pagetable (fun _ => none) (npages 0) := isEmpty ▸ third.space
              have moved₄ := moved₃.trans third.transfer
              obtain ⟨m', freed, released⟩ := uvmfree_spec space₄ (owned.moved moved₄)
              refine ⟨none, m', ?_, .inl ⟨rfl, moved₄.trans released⟩⟩
              simp only [procPagetable, created, ran₂, ran₃, ran₄, Except.bind, freed]
              rfl
          | true =>
              refine ⟨some pagetable, m₃, ?_, .inr ⟨pagetable, rfl, moved₃, second.space⟩⟩
              simp only [procPagetable, created, ran₂, ran₃]

/-- **`proc_freepagetable`** gives back all pages of the address space of a process. -/
theorem procFreepagetable_spec (space : Space m pagetable (supervisor layout trapframe) (npages sz))
    (owned : Owned layout m (spacePages m pagetable (npages sz))) :
    ∃ m', procFreepagetable layout m pagetable sz = .ok m' ∧
      Transfer m m' (spacePages m pagetable (npages sz)) 0 := by
  have bound := space.le_pages owned
  have below : ∀ page, PHYSPAGES ≤ page → npages sz ≤ page := fun page high => by omega
  have isTrampoline : supervisor layout trapframe trampolinePage = some (trampolinePte layout) := by
    rw [supervisor, update_of_ne (by decide), update_self]
  obtain ⟨m₁, ran₁, first⟩ := space.unmapTop owned (below trampolinePage (by decide)) (by decide)
    isTrampoline (readable_mk (by decide) layout.trampoline)
  have owned₁ := owned.moved first.transfer
  have isTrapframe : update (supervisor layout trapframe) trampolinePage none
      trapframePage = some (trapframePte trapframe) := by
    rw [update_of_ne (by decide), supervisor, update_self]
  obtain ⟨m₂, ran₂, second⟩ := first.space.unmapTop owned₁ (below trapframePage (by decide))
    (by decide) isTrapframe (readable_mk (by decide) trapframe)
  have isEmpty : update (update (supervisor layout trapframe) trampolinePage none)
      trapframePage none = fun _ => none := by
    funext page
    rw [update_apply, update_apply, supervisor, update_apply,
      update_apply]
    split
    · rfl
    · split <;> rfl
  obtain ⟨m', freed, released⟩ := uvmfree_spec (isEmpty ▸ second.space)
    (owned₁.moved second.transfer)
  refine ⟨m', ?_, (first.transfer.trans second.transfer).trans released⟩
  rw [procFreepagetable, TRAMPOLINE_eq, ran₁, TRAPFRAME_eq]
  dsimp only [Except.bind]
  rw [ran₂]
  exact freed

/-! ## growproc -/

/-- The size that `growproc` asks for; the sum wraps at 64 bits. -/
abbrev requested (sz : Nat) (n : Int) : Nat := ((sz + n) % 2 ^ 64).toNat

/-- **`growproc`** leaves a space of the new size, or one of the old size on failure. It fails
only if it is to grow, and then the new size is at least the old one. -/
theorem growproc_spec (space : Space m pagetable (supervisor layout trapframe) (npages sz))
    (owned : Owned layout m (spacePages m pagetable (npages sz))) (n : Int) :
    ∃ result m', growproc layout m pagetable sz n = .ok (result, m') ∧
      Resized (ZeroPage PTE_W) m m' pagetable (supervisor layout trapframe) (npages sz)
        (npages (result.getD sz)) ∧
      (0 < n → result = none ∨ result = some (max sz (requested sz n))) ∧
      (n < 0 → result = some (min sz (requested sz n))) ∧ (n = 0 → result = some sz) := by
  have clear := supervisor_clear layout trapframe
  unfold growproc requested
  generalize ((sz + n) % 2 ^ 64).toNat = target
  by_cases grows : n > 0
  · have small : PTE_W.toNat < 2 ^ 10 := by decide
    obtain ⟨size, m', ran, outcome⟩ := uvmalloc_spec target small space owned clear
    refine ⟨if size = 0 then none else some size, m', ?_, ?_, fun _ => ?_, fun _ => by omega,
      fun _ => by omega⟩
    · simp only [if_pos grows, ran]
      rfl
    · rcases outcome with ⟨isSize, grown⟩ | ⟨isZero, kept⟩
      · subst isSize
        by_cases isZero : max sz target = 0
        · have same : max sz target = sz := by omega
          rw [if_pos isZero]
          rw [same] at grown
          exact grown
        · rw [if_neg isZero]
          exact grown
      · rw [if_pos isZero]
        exact kept
    · by_cases isZero : size = 0
      · exact .inl (if_pos isZero)
      · rw [if_neg isZero, (outcome.resolve_right fun failed => isZero failed.1).1]
        exact .inr rfl
  · by_cases shrinks : n < 0
    · obtain ⟨m', ran, shrunk⟩ := uvmdealloc_spec (ZeroPage PTE_W) target space owned clear
      refine ⟨some (min sz target), m', ?_, shrunk, fun _ => by omega, fun _ => rfl,
        fun _ => by omega⟩
      simp only [if_neg grows, if_pos shrinks, ran]
      rfl
    · refine ⟨some sz, m, ?_, space.resized_refl, fun _ => by omega, fun _ => by omega,
        fun _ => rfl⟩
      simp only [if_neg grows, if_neg shrinks]

end Xv6.Vm
