import Xv6.Vm.Exec
import Xv6.Vm.Release

/-!
Contract: a user address space is a run of pages from address 0 and, above it, what the
supervisor has mapped.

Owns: the shape of an address space with its pages, how it grows and shrinks, and the
specifications of `uvmalloc`, `uvmdealloc`, `uvmcopy`, `uvmclear`, `uvmfree`, `copyout`,
`proc_pagetable` and `proc_freepagetable` in these terms. Each of them completes: none
of the panics is reached from an address space of this shape.

Does not own: which process has which address space.
-/

namespace Xv6.Vm

open Xv6.Format
open Xv6.Kernel
open Xv6.Pools
open Xv6.Radix

variable {layout : Layout} {m m' m₁ m'' : Memory} {pagetable a old new : Addr}
  {n n' page n'' k oldsz o : Nat} {top es topOld : Nat → Option Pte} {pte perm xperm : Pte}
  {given back : Multiset Addr} {fresh : Nat → Pte → Page → Prop}

/-! ## Pages of memory -/

def PHYSPAGES : Nat := (PHYSTOP - KERNBASE) / PGSIZE

/-- There are fewer pages than `TRAPFRAME / PGSIZE`. -/
theorem Owned.card_le {own : Multiset Addr} (owned : Owned layout m own) :
    own.card ≤ PHYSPAGES := by
  have distinct := (Multiset.nodup_add.mp owned.nodup).2.1
  have isPage : ∀ a ∈ own.toFinset, layout.IsPage a := fun a member =>
    owned.pages a (Multiset.mem_add.mpr (.inr (Multiset.mem_toFinset.mp member)))
  have size : (Finset.range PHYSPAGES).card = PHYSPAGES := Finset.card_range _
  rw [← Multiset.toFinset_card_of_nodup distinct, ← size]
  have kernelEnd := layout.kernbase_le
  apply Finset.card_le_card_of_injOn fun a => a.toNat / PGSIZE - KERNBASE / PGSIZE
  · intro a member
    obtain ⟨aligned, low, high⟩ := isPage a member
    have isBound : PHYSTOP = 0x88000000 := rfl
    have isBase : KERNBASE = 0x80000000 := rfl
    have isCount : PHYSPAGES = 32768 := rfl
    simp only [Finset.coe_range, Set.mem_Iio, isCount]
    unfold PGSIZE
    omega
  · intro a member b member' same
    obtain ⟨aligned, low, high⟩ := isPage a member
    obtain ⟨aligned', low', high'⟩ := isPage b member'
    have isBase : KERNBASE = 0x80000000 := rfl
    apply BitVec.eq_of_toNat_eq
    dsimp only at same
    unfold PGSIZE at same aligned aligned'
    omega

/-! ## The shape -/

def npages (sz : Nat) : Nat := (sz + PGSIZE - 1) / PGSIZE

theorem npages_zero : npages 0 = 0 := rfl

theorem PGROUNDUP_eq (sz : Nat) : PGROUNDUP sz = npages sz * PGSIZE := rfl

theorem npages_mul (n : Nat) : npages (n * PGSIZE) = n := by
  unfold npages PGSIZE
  omega

abbrev spacePages (m : Memory) (pagetable : Addr) (n : Nat) : Multiset Addr :=
  leafPages (entries m pagetable) 0 n + tableNodes m pagetable

/-- `n` readable pages from address 0 on, and `top` above them. -/
structure Space (m : Memory) (pagetable : Addr) (top : Nat → Option Pte) (n : Nat) : Prop where
  linked : Linked m pagetable
  user : ∀ page, page < n → ∃ pte, entries m pagetable page = some pte ∧ pte &&& PTE_R ≠ 0
  above : ∀ page, n ≤ page → entries m pagetable page = top page

theorem leafPages_add (es : Nat → Option Pte) (page n k : Nat) :
    leafPages es page (n + k) = leafPages es page n + leafPages es (page + n) k := by
  rw [leafPages, leafPages, leafPages, ← List.range'_append_1, List.filterMap_append,
    List.map_append]
  rfl

theorem leafPages_one (isMapped : es page = some pte) : leafPages es page 1 = {PTE2PA pte} := by
  rw [leafPages_succ isMapped]
  rfl

theorem card_leafPages (mapped : ∀ p, page ≤ p → p < page + n → (es p).isSome) :
    (leafPages es page n).card = n := by
  induction n generalizing page with
  | zero => rfl
  | succ n ih =>
      obtain ⟨pte, isMapped⟩ := Option.isSome_iff_exists.mp
        (mapped page (Nat.le_refl _) (by omega))
      rw [leafPages_succ isMapped, Multiset.card_add, Multiset.card_singleton,
        ih fun p low high => mapped p (by omega) (by omega)]
      omega

theorem and_flag {flag : Pte} (isFlag : flag &&& 0x3FF = flag) (pte : Pte) :
    pte &&& flag = PTE_FLAGS pte &&& flag := by
  rw [PTE_FLAGS, BitVec.and_assoc, BitVec.and_comm (0x3FF : Pte), isFlag]

theorem flags_ne_of_readable (readable : pte &&& PTE_R ≠ 0) :
    PTE_FLAGS pte ≠ PTE_V := by
  intro onlyValid
  rw [and_flag rfl, onlyValid] at readable
  exact readable rfl

namespace Space

theorem mapped (space : Space m pagetable top n) (inside : page < n) :
    ∃ pte, entries m pagetable page = some pte ∧ PTE_FLAGS pte ≠ PTE_V := by
  obtain ⟨pte, isEntry, readable⟩ := space.user page inside
  exact ⟨pte, isEntry, flags_ne_of_readable readable⟩

theorem le_pages (space : Space m pagetable top n)
    (owned : Owned layout m (spacePages m pagetable n)) : n ≤ PHYSPAGES := by
  have size : (leafPages (entries m pagetable) 0 n).card = n := card_leafPages fun p _ inside => by
    obtain ⟨pte, isEntry, -⟩ := space.user p (by omega)
    rw [isEntry]
    rfl
  rw [← size]
  exact (owned.mono (Multiset.le_add_right ..)).card_le

end Space

/-- Nothing is mapped where user pages may come. -/
def Clear (top : Nat → Option Pte) : Prop := ∀ page, page ≤ PHYSPAGES → top page = none

/-- Pages that are given to others leave a table alone. -/
theorem table_frame (owned : Owned layout m (given + tableNodes m pagetable))
    (moved : Transfer m m' given back) :
    tableNodes m' pagetable = tableNodes m pagetable ∧
      entries m' pagetable = entries m pagetable ∧ (Linked m pagetable → Linked m' pagetable) := by
  have kept : ∀ b ∈ tableNodes m pagetable, m'.store b = m.store b :=
    fun b member => owned.untouched moved member
  obtain ⟨sameNodes, sameEntries⟩ := table_congr kept
  exact ⟨sameNodes, sameEntries, fun linked => linked.congr kept⟩

theorem Space.of_entries (space : Space m pagetable top n) (linked : Linked m' pagetable)
    (same : entries m' pagetable = entries m pagetable) : Space m' pagetable top n :=
  ⟨linked, fun page inside => same ▸ space.user page inside,
    fun page outside => same ▸ space.above page outside⟩

theorem Space.frame (space : Space m pagetable top n)
    (owned : Owned layout m (given + spacePages m pagetable n)) (moved : Transfer m m' given back) :
    Space m' pagetable top n ∧ spacePages m' pagetable n = spacePages m pagetable n ∧
      entries m' pagetable = entries m pagetable := by
  have nodesOwned : Owned layout m (given + tableNodes m pagetable) :=
    owned.mono (by gcongr; exact Multiset.le_add_left ..)
  obtain ⟨sameNodes, sameEntries, keepsLinks⟩ := table_frame nodesOwned moved
  exact ⟨space.of_entries (keepsLinks space.linked) sameEntries,
    by rw [spacePages, sameNodes, sameEntries], sameEntries⟩

theorem nodes_of_pages (samePages : spacePages m' pagetable n = spacePages m pagetable n)
    (sameEntries : entries m' pagetable = entries m pagetable) :
    tableNodes m' pagetable = tableNodes m pagetable := by
  rwa [spacePages, spacePages, sameEntries, add_right_inj] at samePages

/-! ## Growing and shrinking -/

/-- From `n` to `n'` pages. -/
structure Reshaped (m m' : Memory) (pagetable : Addr) (top : Nat → Option Pte) (n n' : Nat) :
    Prop where
  transfer : Transfer m m' (spacePages m pagetable n) (spacePages m' pagetable n')
  space : Space m' pagetable top n'

theorem Reshaped.trans (first : Reshaped m m' pagetable top n n')
    (second : Reshaped m' m'' pagetable top n' n'') : Reshaped m m'' pagetable top n n'' :=
  ⟨first.transfer.trans second.transfer, second.space⟩

theorem Space.unchanged (space : Space m pagetable top n) : Reshaped m m pagetable top n n :=
  ⟨.refl _ _, space⟩

theorem mem_leafPages (inside : page < n) (isEntry : es page = some pte) :
    PTE2PA pte ∈ leafPages es 0 n := by
  refine Multiset.mem_coe.mpr (List.mem_map.mpr
    ⟨pte, List.mem_filterMap.mpr ⟨page, ?_, isEntry⟩, rfl⟩)
  exact List.mem_range'_1.mpr ⟨Nat.zero_le page, by omega⟩

/-- Different virtual pages are different physical pages. -/
theorem leafPages_ne {page' : Nat} {pte' : Pte} (once : (leafPages es 0 n).Nodup)
    (before : page < page') (inside : page' < n) (isEntry : es page = some pte)
    (isEntry' : es page' = some pte') :
    PTE2PA pte ≠ PTE2PA pte' := by
  have parts : leafPages es 0 n =
      leafPages es 0 page' + {PTE2PA pte'} + leafPages es (page' + 1) (n - (page' + 1)) := by
    have sum : n = page' + 1 + (n - (page' + 1)) := by omega
    conv_lhs => rw [sum]
    rw [leafPages_add, leafPages_add, Nat.zero_add, Nat.zero_add, leafPages_one isEntry']
  rw [parts] at once
  have firstOnce := (Multiset.nodup_add.mp (Multiset.nodup_add.mp once).1).2.2
  intro same
  exact Multiset.disjoint_left.mp firstOnce (mem_leafPages before isEntry)
    (Multiset.mem_singleton.mpr same)

/-- The first `n` user pages keep their contents. -/
def Kept (m m' : Memory) (pagetable : Addr) (n : Nat) : Prop :=
  ∀ page pte, page < n → entries m pagetable page = some pte →
    m'.store (PTE2PA pte) = m.store (PTE2PA pte)

theorem Owned.kept (owned : Owned layout m (given + leafPages (entries m pagetable) 0 n))
    (moved : Transfer m m' given back) : Kept m m' pagetable n :=
  fun _ _ inside isEntry => owned.untouched moved (mem_leafPages inside isEntry)

theorem Kept.trans (first : Kept m m' pagetable n) (second : Kept m' m'' pagetable n')
    (smaller : n ≤ n')
    (same : ∀ page, page < n → entries m' pagetable page = entries m pagetable page) :
    Kept m m'' pagetable n := by
  intro page pte inside isEntry
  rw [second page pte (by omega) (by rw [same page inside, isEntry]), first page pte inside isEntry]

/-- The pages that stay keep their entries and contents. The flags and the contents of a new
page are as `fresh` says. -/
structure Resized (fresh : Nat → Pte → Page → Prop) (m m' : Memory) (pagetable : Addr)
    (top : Nat → Option Pte) (n n' : Nat) : Prop extends Reshaped m m' pagetable top n n' where
  nodes : tableNodes m pagetable ≤ tableNodes m' pagetable
  old : ∀ page, page < n → page < n' → entries m' pagetable page = entries m pagetable page
  kept : Kept m m' pagetable (min n n')
  new : ∀ page, n ≤ page → page < n' → ∃ pte, entries m' pagetable page = some pte ∧
    fresh page (PTE_FLAGS pte) (m'.store (PTE2PA pte))

theorem Resized.trans (first : Resized fresh m m' pagetable top n n')
    (second : Resized fresh m' m'' pagetable top n' n'') (grows : n ≤ n') :
    Resized fresh m m'' pagetable top n n'' := by
  refine ⟨⟨first.transfer.trans second.transfer, second.space⟩, first.nodes.trans second.nodes,
    fun page inside inside' => ?_, fun page pte inside isEntry => ?_, fun page outside inside => ?_⟩
  · rw [second.old page (by omega) inside', first.old page inside (by omega)]
  · have same := first.old page (by omega) (by omega)
    rw [second.kept page pte (by omega) (by rw [same, isEntry]),
      first.kept page pte (by omega) isEntry]
  · by_cases isOld : page < n'
    · obtain ⟨pte, isEntry, isFresh⟩ := first.new page outside isOld
      refine ⟨pte, by rw [second.old page isOld inside, isEntry], ?_⟩
      rw [second.kept page pte (by omega) isEntry]
      exact isFresh
    · exact second.new page (Nat.le_of_not_lt isOld) inside

theorem Space.resized_self (space : Space m' pagetable top n)
    (moved : Transfer m m' (spacePages m pagetable n) (spacePages m' pagetable n))
    (nodes : tableNodes m pagetable ≤ tableNodes m' pagetable)
    (same : entries m' pagetable = entries m pagetable) (kept : Kept m m' pagetable n) :
    Resized fresh m m' pagetable top n n := by
  refine ⟨⟨moved, space⟩, nodes, fun page _ _ => by rw [same], ?_,
    fun page outside inside => by omega⟩
  rwa [Nat.min_self]

theorem Space.resized_refl (space : Space m pagetable top n) :
    Resized fresh m m pagetable top n n :=
  space.resized_self (.refl _ _) (le_refl _) rfl fun _ _ _ _ => rfl

/-- **The pages from `k` on are unmapped and given back.** -/
theorem Space.shrink (fresh : Nat → Pte → Page → Prop) (space : Space m pagetable top n)
    (owned : Owned layout m (spacePages m pagetable n)) (clear : Clear top) (smaller : k ≤ n) :
    ∃ m', uvmunmap layout m pagetable (k * PGSIZE) (n - k) true = .ok m' ∧
      Resized fresh m m' pagetable top n k := by
  have bound := space.le_pages owned
  have inSpace : k + (n - k) ≤ VPAGES := by
    have small : PHYSPAGES ≤ VPAGES := by decide
    omega
  have parts : leafPages (entries m pagetable) 0 n =
      leafPages (entries m pagetable) k (n - k) + leafPages (entries m pagetable) 0 k := by
    have split := leafPages_add (entries m pagetable) 0 k (n - k)
    rw [Nat.add_sub_cancel' smaller, Nat.zero_add] at split
    rw [split, add_comm]
  have arranged : spacePages m pagetable n =
      (leafPages (entries m pagetable) k (n - k) + tableNodes m pagetable) +
        leafPages (entries m pagetable) 0 k := by
    rw [spacePages, parts]
    abel
  have removed : Owned layout m (freed true (leafPages (entries m pagetable) k (n - k)) +
      tableNodes m pagetable) :=
    owned.mono (by rw [arranged]; exact Multiset.le_add_right ..)
  obtain ⟨m', ran, moved, sameNodes, isNext, keepsLinks⟩ :=
    uvmunmap_spec removed inSpace fun p low high => space.mapped (by omega)
  have lower : ∀ page, page < k → entries m' pagetable page = entries m pagetable page := by
    intro page inside
    rw [isNext]
    exact if_neg (by omega)
  have samePages : leafPages (entries m' pagetable) 0 k = leafPages (entries m pagetable) 0 k :=
    leafPages_congr fun page _ inside => lower page (by omega)
  have kept : Kept m m' pagetable (min n k) := by
    rw [arranged] at owned
    rw [Nat.min_eq_right smaller]
    exact owned.kept moved
  refine ⟨m', ran, ⟨?_, keepsLinks space.linked, fun page inside => ?_, fun page outside => ?_⟩,
    sameNodes.ge, fun page _ inside => lower page inside, kept, fun page _ _ => by omega⟩
  · refine moved.widen arranged ?_
    rw [spacePages, samePages, add_comm]
  · rw [lower page inside]
    exact space.user page (by omega)
  · rw [isNext]
    by_cases isRemoved : page < n
    · rw [clear page (by omega)]
      exact if_pos (by omega)
    · rw [← space.above page (by omega)]
      exact if_neg (by omega)

theorem readable_iff (pte : Pte) : pte &&& PTE_R ≠ 0 ↔ pte.getLsbD 1 = true := by
  have isBit : PTE_R = BitVec.twoPow 64 1 := by decide
  rw [isBit, BitVec.and_twoPow]
  cases pte.getLsbD 1 <;> decide

theorem readable_mk (readable : perm &&& PTE_R ≠ 0) (pa : Addr) :
    (PA2PTE pa ||| perm ||| PTE_V) &&& PTE_R ≠ 0 := by
  rw [readable_iff] at readable ⊢
  simp [readable]

/-- A page that was taken is mapped above the others, or it can be given back. -/
theorem Space.mapPage {mem : Addr} (fresh : Nat → Pte → Page → Prop)
    (space : Space m pagetable top n) (owned : Owned layout m (spacePages m pagetable n))
    (clear : Clear top) (given : Transfer m m₁ 0 {mem}) (readable : perm &&& PTE_R ≠ 0)
    (small : perm.toNat < 2 ^ 10) (isFresh : fresh n (perm ||| PTE_V) (m₁.store mem)) :
    ∃ ok m₂, mappages m₁ pagetable (n * PGSIZE) PGSIZE mem perm = .ok (ok, m₂) ∧
      (ok = true → Resized fresh m m₂ pagetable top n (n + 1) ∧
        mem ∈ leafPages (entries m₂ pagetable) 0 (n + 1)) ∧
      (ok = false → ∃ m', kfree layout m₂ mem = .ok m' ∧ Resized fresh m m' pagetable top n n) := by
  have bound := space.le_pages owned
  have inSpace : n < VPAGES := Nat.lt_of_le_of_lt bound (by decide)
  have ownedFirst : Owned layout m (0 + spacePages m pagetable n) := by rwa [zero_add]
  obtain ⟨space₁, samePages, sameEntries⟩ := space.frame ownedFirst given
  have owned₁ : Owned layout m₁ ({mem} + spacePages m₁ pagetable n) :=
    samePages ▸ ownedFirst.transfer given
  have unmapped₁ : entries m₁ pagetable (n * PGSIZE / PGSIZE) = none := by
    rw [mul_PGSIZE_div, space₁.above n (Nat.le_refl _), clear n bound]
  obtain ⟨ok, m₂, ran, moved, moreNodes, -, isNext, keepsLinks⟩ := mappages_spec
    (owned₁.mono ((Multiset.le_add_left ..).trans (Multiset.le_add_left ..)))
    (Nat.mul_mod_left n PGSIZE) (page_mul_lt inSpace) unmapped₁ mem perm
  rw [mul_PGSIZE_div] at isNext
  have arranged : ({mem} : Multiset Addr) + spacePages m₁ pagetable n =
      tableNodes m₁ pagetable + ({mem} + leafPages (entries m₁ pagetable) 0 n) := by
    rw [spacePages]
    abel
  have taken : Transfer m m₁ (spacePages m pagetable n) ({mem} + spacePages m₁ pagetable n) := by
    rw [samePages]
    exact (given.add (spacePages m pagetable n)).congr (zero_add _).symm rfl
  have nodes : tableNodes m pagetable ≤ tableNodes m₂ pagetable := by
    rwa [← nodes_of_pages samePages sameEntries]
  -- Neither the page that was taken nor a node is a user page.
  have untouched : ∀ a ∈ ({mem} : Multiset Addr) + leafPages (entries m₁ pagetable) 0 n,
      m₂.store a = m₁.store a := by
    rw [arranged] at owned₁
    exact fun a member => owned₁.untouched moved member
  have kept₂ : Kept m m₂ pagetable n := by
    intro page pte inside isEntry
    rw [untouched _ (Multiset.mem_add.mpr (.inr
      (mem_leafPages inside (by rw [sameEntries, isEntry]))))]
    exact ownedFirst.untouched given (Multiset.mem_add.mpr (.inl (mem_leafPages inside isEntry)))
  refine ⟨ok, m₂, ran, ?_, ?_⟩
  · rintro rfl
    rw [if_pos rfl] at isNext
    have isMem : PTE2PA (PA2PTE mem ||| perm ||| PTE_V) = mem :=
      PTE2PA_entry (owned₁.pages mem (by simp)).1 small
    have lower : ∀ page, page < n → entries m₂ pagetable page = entries m pagetable page := by
      intro page inside
      rw [isNext, Function.update_of_ne (by omega), sameEntries]
    have atTop : entries m₂ pagetable n = some (PA2PTE mem ||| perm ||| PTE_V) := by
      rw [isNext, Function.update_self]
    have pages : spacePages m₂ pagetable (n + 1) =
        tableNodes m₂ pagetable + ({mem} + leafPages (entries m₁ pagetable) 0 n) := by
      have lowerPages : leafPages (entries m₂ pagetable) 0 n =
          leafPages (entries m₁ pagetable) 0 n :=
        leafPages_congr fun page _ inside => by rw [lower page (by omega), sameEntries]
      rw [spacePages, leafPages_add, lowerPages, Nat.zero_add, leafPages_one atTop, isMem]
      abel
    refine ⟨⟨⟨taken.trans (moved.widen arranged pages), keepsLinks space₁.linked, ?_,
      ?_⟩, nodes, ?_, ?_, ?_⟩, ?_⟩
    · intro page inside
      by_cases isTop : page = n
      · rw [isTop]
        exact ⟨_, atTop, readable_mk readable mem⟩
      · rw [lower page (by omega)]
        exact space.user page (by omega)
    · intro page outside
      rw [isNext, Function.update_of_ne (by omega)]
      exact space₁.above page (by omega)
    · exact fun page inside _ => lower page inside
    · rwa [Nat.min_eq_left (Nat.le_succ n)]
    · intro page outside inside
      obtain rfl : page = n := by omega
      refine ⟨_, atTop, ?_⟩
      rw [PTE_FLAGS_entry mem small, isMem,
        untouched mem (Multiset.mem_add.mpr (.inl (Multiset.mem_singleton_self mem)))]
      exact isFresh
    · rw [leafPages_add, Nat.zero_add, leafPages_one atTop, isMem]
      exact Multiset.mem_add.mpr (.inr (Multiset.mem_singleton_self mem))
  · rintro rfl
    rw [if_neg (by decide)] at isNext
    have pages : ({mem} : Multiset Addr) + spacePages m₂ pagetable n =
        tableNodes m₂ pagetable + ({mem} + leafPages (entries m₁ pagetable) 0 n) := by
      rw [spacePages, isNext]
      abel
    have moved₂ := taken.trans (moved.widen arranged pages)
    have owned₂ := owned.moved moved₂
    have space₂ := space₁.of_entries (keepsLinks space₁.linked) isNext
    obtain ⟨m', freed, released⟩ := kfree_spec (m := m₂) (owned₂.pages mem (by simp))
    obtain ⟨space', samePages', sameEntries'⟩ := space₂.frame owned₂ released
    have nodes' : tableNodes m pagetable ≤ tableNodes m' pagetable := by
      rwa [nodes_of_pages samePages' sameEntries']
    have keptLast : Kept m₂ m' pagetable n := by
      have part : ({mem} : Multiset Addr) + leafPages (entries m₂ pagetable) 0 n ≤
          {mem} + spacePages m₂ pagetable n := by
        gcongr
        exact Multiset.le_add_right ..
      exact (owned₂.mono part).kept released
    have kept := kept₂.trans keptLast (Nat.le_refl n) fun page _ => by rw [isNext, sameEntries]
    refine ⟨m', freed, space'.resized_self ?_ nodes' (sameEntries'.trans (isNext.trans sameEntries))
      kept⟩
    rw [samePages']
    exact moved₂.trans ((released.add _).congr rfl (zero_add _).symm)

/-! ## uvmdealloc and uvmalloc -/

theorem uvmdealloc_spec (fresh : Nat → Pte → Page → Prop) (newsz : Nat)
    (space : Space m pagetable top (npages oldsz))
    (owned : Owned layout m (spacePages m pagetable (npages oldsz))) (clear : Clear top) :
    ∃ m', uvmdealloc layout m pagetable oldsz newsz = .ok (min oldsz newsz, m') ∧
      Resized fresh m m' pagetable top (npages oldsz) (npages (min oldsz newsz)) := by
  have same : Resized fresh m m pagetable top (npages oldsz) (npages oldsz) := space.resized_refl
  by_cases grows : newsz ≥ oldsz
  · refine ⟨m, ?_, ?_⟩
    · rw [uvmdealloc, if_pos grows, Nat.min_eq_left grows]
    · rwa [Nat.min_eq_left grows]
  · rw [uvmdealloc, if_neg grows, Nat.min_eq_right (by omega)]
    by_cases fewer : PGROUNDUP newsz < PGROUNDUP oldsz
    · rw [PGROUNDUP_eq, PGROUNDUP_eq] at fewer ⊢
      have smaller : npages newsz ≤ npages oldsz :=
        Nat.le_of_mul_le_mul_right (Nat.le_of_lt fewer) (by decide)
      obtain ⟨m', ran, shrunk⟩ := space.shrink fresh owned clear smaller
      refine ⟨m', ?_, shrunk⟩
      rw [if_pos fewer, ← Nat.sub_mul, mul_PGSIZE_div]
      dsimp only
      rw [ran]
      rfl
    · have sameCount : npages newsz = npages oldsz := by
        unfold PGROUNDUP at fewer
        unfold npages
        unfold PGSIZE at *
        omega
      refine ⟨m, if_neg fewer, ?_⟩
      rwa [sameCount]

/-- The pages mapped so far are given back when one more cannot be had. -/
theorem Resized.giveUp (kept : Resized fresh m m₁ pagetable top n n)
    (owned : Owned layout m (spacePages m pagetable n)) (clear : Clear top) (older : o ≤ n) :
    ∃ m', (uvmdealloc layout m₁ pagetable (n * PGSIZE) (o * PGSIZE)).map
        (fun (_, m) => ((0 : Nat), m)) = .ok (0, m') ∧ Resized fresh m m' pagetable top n o := by
  have counts : npages (n * PGSIZE) = n := npages_mul n
  have smaller : min (n * PGSIZE) (o * PGSIZE) = o * PGSIZE :=
    Nat.min_eq_right (Nat.mul_le_mul_right _ older)
  obtain ⟨m', ran, shrunk⟩ := uvmdealloc_spec fresh (o * PGSIZE) (counts.symm ▸ kept.space)
    (counts.symm ▸ owned.moved kept.transfer) clear
  rw [counts, smaller, npages_mul] at shrunk
  exact ⟨m', by rw [ran]; rfl, kept.trans shrunk (Nat.le_refl n)⟩

/-- A permission that `uvmalloc` gives. -/
abbrev userPerm (xperm : Pte) : Pte := PTE_R ||| PTE_U ||| xperm

/-- A page that `uvmalloc` has mapped: zeros, for the user. -/
def ZeroPage (xperm : Pte) (_ : Nat) (flags : Pte) (contents : Page) : Prop :=
  flags = userPerm xperm ||| PTE_V ∧ contents = fun _ => 0

theorem uvmallocLoop_spec (newsz : Nat) (small : xperm.toNat < 2 ^ 10) (rounds : Nat)
    (space : Space m pagetable top n) (owned : Owned layout m (spacePages m pagetable n))
    (clear : Clear top) (older : o ≤ n) :
    ∃ size m', uvmallocLoop layout pagetable (o * PGSIZE) newsz xperm rounds m (n * PGSIZE) =
        .ok (size, m') ∧
      (size = newsz ∧ Resized (ZeroPage xperm) m m' pagetable top n (n + rounds) ∨
        size = 0 ∧ Resized (ZeroPage xperm) m m' pagetable top n o) := by
  have readable : userPerm xperm &&& PTE_R ≠ 0 := by
    rw [readable_iff]
    simp [PTE_R]
  have permSmall : (userPerm xperm).toNat < 2 ^ 10 := by
    rw [BitVec.toNat_or]
    exact Nat.or_lt_two_pow (by decide) small
  induction rounds generalizing m n with
  | zero => exact ⟨newsz, m, rfl, .inl ⟨rfl, space.resized_refl⟩⟩
  | succ rounds ih =>
      cases allocated : kalloc m with
      | none =>
          have unchanged : Resized (ZeroPage xperm) m m pagetable top n n := space.resized_refl
          obtain ⟨m', ran, shrunk⟩ := unchanged.giveUp owned clear older
          refine ⟨0, m', ?_, .inr ⟨rfl, shrunk⟩⟩
          simp only [uvmallocLoop, allocated]
          exact ran
      | some allocation =>
          obtain ⟨mem, m₁⟩ := allocation
          have given : Transfer m (memset m₁ mem 0) 0 {mem} :=
            (kalloc_eq_some allocated).1.trans
              (Transfer.write m₁ (Multiset.mem_singleton_self mem) _)
          obtain ⟨ok, m₂, ran, mapped, failed⟩ :=
            space.mapPage (ZeroPage xperm) owned clear given readable permSmall
              ⟨rfl, Function.update_self ..⟩
          cases ok with
          | true =>
              have grown := (mapped rfl).1
              obtain ⟨size, m', ran', outcome⟩ := ih grown.space
                (owned.moved grown.transfer) (by omega)
              refine ⟨size, m', ?_, ?_⟩
              · simp only [uvmallocLoop, allocated, ran]
                rw [← Nat.succ_mul]
                exact ran'
              · rcases outcome with ⟨isSize, more⟩ | ⟨isZero, shrunk⟩
                · refine .inl ⟨isSize, ?_⟩
                  have all := grown.trans more (by omega)
                  rwa [Nat.add_assoc, Nat.add_comm 1] at all
                · exact .inr ⟨isZero, grown.trans shrunk (by omega)⟩
          | false =>
              obtain ⟨m₃, freed, kept⟩ := failed rfl
              obtain ⟨m', ran', shrunk⟩ := kept.giveUp owned clear older
              refine ⟨0, m', ?_, .inr ⟨rfl, shrunk⟩⟩
              simp only [uvmallocLoop, allocated, ran, freed]
              exact ran'

/-- **`uvmalloc`** grows the space to the new size, or leaves it as it was. -/
theorem uvmalloc_spec (newsz : Nat) (small : xperm.toNat < 2 ^ 10)
    (space : Space m pagetable top (npages oldsz))
    (owned : Owned layout m (spacePages m pagetable (npages oldsz))) (clear : Clear top) :
    ∃ size m', uvmalloc layout m pagetable oldsz newsz xperm = .ok (size, m') ∧
      (size = max oldsz newsz ∧ Resized (ZeroPage xperm) m m' pagetable top (npages oldsz)
          (npages (max oldsz newsz)) ∨
        size = 0 ∧ Resized (ZeroPage xperm) m m' pagetable top (npages oldsz)
          (npages oldsz)) := by
  by_cases smaller : newsz < oldsz
  · refine ⟨oldsz, m, if_pos smaller, ?_⟩
    rw [Nat.max_eq_left (Nat.le_of_lt smaller)]
    exact .inl ⟨rfl, space.resized_refl⟩
  · have larger : max oldsz newsz = newsz := Nat.max_eq_right (by omega)
    have count : npages oldsz + (newsz - npages oldsz * PGSIZE + PGSIZE - 1) / PGSIZE =
        npages newsz := by
      unfold npages PGSIZE
      omega
    obtain ⟨size, m', ran, outcome⟩ := uvmallocLoop_spec newsz small
      ((newsz - npages oldsz * PGSIZE + PGSIZE - 1) / PGSIZE) space owned clear (Nat.le_refl _)
    rw [count] at outcome
    rw [larger]
    refine ⟨size, m', ?_, outcome⟩
    rw [uvmalloc, if_neg smaller]
    exact ran

/-! ## uvmcopy -/

theorem flags_or_valid (isValid : IsValid pte) :
    PTE_FLAGS pte ||| PTE_V = PTE_FLAGS pte := by
  have bit : pte.getLsbD 0 = true := by
    have isBit : PTE_V = BitVec.twoPow 64 0 := by decide
    rw [IsValid, isBit, BitVec.and_twoPow] at isValid
    by_contra notSet
    rw [if_neg notSet] at isValid
    exact isValid rfl
  apply BitVec.eq_of_getLsbD_eq
  intro i inside
  rw [BitVec.getLsbD_or]
  by_cases isFirst : i = 0
  · subst isFirst
    simp [PTE_FLAGS, bit]
  · simp [PTE_V, isFirst]

theorem flags_small (pte : Pte) : (PTE_FLAGS pte).toNat < 2 ^ 10 := by
  rw [PTE_FLAGS, BitVec.toNat_and]
  exact Nat.lt_of_le_of_lt Nat.and_le_right (by decide)

/-- The flags and the contents of the pages of a space are as `fresh` says. -/
def Looks (fresh : Nat → Pte → Page → Prop) (m : Memory) (pagetable : Addr) (n : Nat) : Prop :=
  ∀ page pte, page < n → entries m pagetable page = some pte →
    fresh page (PTE_FLAGS pte) (m.store (PTE2PA pte))

theorem uvmcopyLoop_spec (rounds : Nat) (source : Space m old topOld (k + rounds))
    (looks : Looks fresh m old (k + rounds)) (space : Space m new top k)
    (owned : Owned layout m (spacePages m new k + spacePages m old (k + rounds)))
    (clear : Clear top) :
    ∃ ok m', uvmcopyLoop layout old new rounds m (k * PGSIZE) = .ok (ok, m') ∧
      Resized fresh m m' new top k (if ok then k + rounds else 0) := by
  induction rounds generalizing m k with
  | zero => exact ⟨true, m, rfl, space.resized_refl⟩
  | succ rounds ih =>
      have bound := source.le_pages (owned.mono (Multiset.le_add_left ..))
      have inSpace : k < VPAGES := by
        have small : PHYSPAGES ≤ VPAGES := by decide
        omega
      obtain ⟨pte, isEntry, readable⟩ := source.user k (by omega)
      obtain ⟨node, -, walked, isPte, isValid⟩ := walk_mapped inSpace isEntry
      have ownedNew := owned.mono (Multiset.le_add_right (spacePages m new k) _)
      -- All pages copied so far are given back when one more cannot be had.
      have giveUp : ∀ m₁, Resized fresh m m₁ new top k k →
          ∃ m', uvmunmap layout m₁ new 0 k true = .ok m' ∧ Resized fresh m m' new top k 0 := by
        intro m₁ kept
        obtain ⟨m', ran, shrunk⟩ := kept.space.shrink fresh (ownedNew.moved kept.transfer) clear
          (Nat.zero_le k)
        rw [Nat.zero_mul, Nat.sub_zero] at ran
        exact ⟨m', ran, kept.trans shrunk (Nat.le_refl k)⟩
      cases allocated : kalloc m with
      | none =>
          obtain ⟨m', ran, shrunk⟩ := giveUp m space.resized_refl
          refine ⟨false, m', ?_, shrunk⟩
          simp only [uvmcopyLoop, walked, isPte, if_neg isValid, allocated, mul_PGSIZE_div, ran]
          rfl
      | some allocation =>
          obtain ⟨mem, m₁⟩ := allocation
          have taken := (kalloc_eq_some allocated).1
          have given : Transfer m
              { m₁ with store := Function.update m₁.store mem (m₁.store (PTE2PA pte)) } 0 {mem} :=
            taken.trans (Transfer.write m₁ (Multiset.mem_singleton_self mem) _)
          have flagsReadable : PTE_FLAGS pte &&& PTE_R ≠ 0 := by rwa [← and_flag rfl]
          have isCopy : fresh k (PTE_FLAGS pte ||| PTE_V)
              (Function.update m₁.store mem (m₁.store (PTE2PA pte)) mem) := by
            have isOwned : PTE2PA pte ∈ spacePages m new k + spacePages m old (k + (rounds + 1)) :=
              Multiset.mem_add.mpr (.inr (Multiset.mem_add.mpr
                (.inl (mem_leafPages (by omega) isEntry))))
            have alone : Owned layout m (0 + (spacePages m new k + spacePages m old
                (k + (rounds + 1)))) := by
              rwa [zero_add]
            rw [Function.update_self, flags_or_valid isValid, alone.untouched taken isOwned]
            exact looks k pte (by omega) isEntry
          obtain ⟨ok, m₂, ran, mapped, failed⟩ := space.mapPage fresh ownedNew clear given
            flagsReadable (flags_small pte) isCopy
          cases ok with
          | true =>
              have grown := (mapped rfl).1
              obtain ⟨source', samePages, sameEntries⟩ := source.frame owned grown.transfer
              have part : spacePages m new k + leafPages (entries m old) 0 (k + (rounds + 1)) ≤
                  spacePages m new k + spacePages m old (k + (rounds + 1)) := by
                gcongr
                exact Multiset.le_add_right ..
              have kept := (owned.mono part).kept grown.transfer
              have looks' : Looks fresh m₂ old (k + (rounds + 1)) := by
                intro page pte inside isEntry
                rw [sameEntries] at isEntry
                rw [kept page pte inside isEntry]
                exact looks page pte inside isEntry
              have sum : k + (rounds + 1) = k + 1 + rounds := by omega
              rw [sum] at source' samePages owned looks'
              obtain ⟨ok, m', ran', outcome⟩ := ih source' looks' grown.space
                (samePages ▸ owned.transfer grown.transfer)
              refine ⟨ok, m', ?_, ?_⟩
              · simp only [uvmcopyLoop, walked, isPte, if_neg isValid, allocated, ran]
                rw [← Nat.succ_mul]
                exact ran'
              · rw [sum]
                exact grown.trans outcome (by omega)
          | false =>
              obtain ⟨m₃, freed, kept⟩ := failed rfl
              obtain ⟨m', ran', shrunk⟩ := giveUp m₃ kept
              refine ⟨false, m', ?_, shrunk⟩
              simp only [uvmcopyLoop, walked, isPte, if_neg isValid, allocated, ran, freed,
                mul_PGSIZE_div]
              exact congrArg (Except.map _) ran'

/-- A page of a copy: the flags and the contents of the page it is copied from. -/
def CopyOf (m : Memory) (old : Addr) (page : Nat) (flags : Pte) (contents : Page) : Prop :=
  ∃ pte, entries m old page = some pte ∧ flags = PTE_FLAGS pte ∧ contents = m.store (PTE2PA pte)

/-- **`uvmcopy`** into an empty space copies all pages of the old one, or none. -/
theorem uvmcopy_spec {sz : Nat} (source : Space m old topOld (npages sz))
    (space : Space m new top 0)
    (owned : Owned layout m (spacePages m new 0 + spacePages m old (npages sz)))
    (clear : Clear top) :
    ∃ ok m', uvmcopy layout m old new sz = .ok (ok, m') ∧
      Resized (CopyOf m old) m m' new top 0 (if ok then npages sz else 0) := by
  rw [← Nat.zero_add (npages sz)] at source owned
  have looks : Looks (CopyOf m old) m old (0 + npages sz) := fun page pte _ isEntry =>
    ⟨pte, isEntry, rfl, rfl⟩
  obtain ⟨ok, m', ran, outcome⟩ := uvmcopyLoop_spec (npages sz) source looks space owned clear
  rw [Nat.zero_add] at outcome
  refine ⟨ok, m', ?_, outcome⟩
  rw [uvmcopy, PGROUNDUP_eq, mul_PGSIZE_div]
  rwa [Nat.zero_mul] at ran

end Xv6.Vm
