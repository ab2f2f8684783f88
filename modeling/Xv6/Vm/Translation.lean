import Xv6.Vm.Mapping

/-!
Contract: a page table, read through `walk`, is a finite map from virtual pages to
physical pages with flags; `mappages`, `uvmunmap` and `walkaddr` are update, removal
and lookup of that map.
Owns: `translate`, the refinement theorem and what it needs of alignment.
Does not own: how the entries change in the nodes (`Walk`), or who owns the pages.
-/

namespace Xv6.Vm

open Xv6.Kernel Xv6.Pools Xv6.Radix

variable {layout : Layout} {m m' : Memory} {pagetable : Addr} {va : Nat}

/-- The physical page and the flags of the valid entry that `walk` without `alloc` finds. -/
def translate (m : Memory) (pagetable : Addr) (va : Nat) : Option (Addr × Pte) :=
  match walk m pagetable va false with
  | .ok (some node, _) =>
      let pte := m.store node (PX 0 va)
      if IsValid pte then some (PTE2PA pte, PTE_FLAGS pte) else none
  | _ => none

/-- The nodes of the table form a tree of pages of memory, none of them free; the free
pages are different. -/
abbrev WellFormed (layout : Layout) (m : Memory) (pagetable : Addr) : Prop :=
  Owned layout m (tableNodes m pagetable)

theorem translate_eq (m : Memory) (pagetable : Addr) (inSpace : va < MAXVA) :
    translate m pagetable va =
      (entries m pagetable (va / PGSIZE)).map fun pte => (PTE2PA pte, PTE_FLAGS pte) := by
  obtain ⟨ran, isEntry⟩ := walk_false m pagetable inSpace
  rw [translate, ran, isEntry]
  cases reach child m.store (fun level => PX level va) 2 pagetable with
  | none => rfl
  | some node =>
      dsimp only
      rw [Option.map_some, Option.filter_some]
      by_cases isValid : IsValid (m.store node (PX 0 va))
      · rw [if_pos isValid, if_pos (decide_eq_true isValid), Option.map_some]
      · rw [if_neg isValid, if_neg (by simpa using isValid), Option.map_none]

theorem and_PTE_U (pte : Pte) : PTE_FLAGS pte &&& PTE_U = pte &&& PTE_U := by
  rw [PTE_FLAGS, BitVec.and_assoc]
  rfl

theorem walkaddr_translate (m : Memory) (pagetable : Addr) (inSpace : va < MAXVA) :
    walkaddr m pagetable va = .ok (match translate m pagetable va with
      | some (pa, flags) => if flags &&& PTE_U = 0 then 0 else pa
      | none => 0) := by
  rw [walkaddr_spec m pagetable inSpace, translate_eq m pagetable inSpace]
  cases entries m pagetable (va / PGSIZE) with
  | none => rfl
  | some pte => simp only [Option.map_some, and_PTE_U]

theorem mappages_translate (wellFormed : WellFormed layout m pagetable) (inSpace : va < MAXVA)
    (aligned : va % PGSIZE = 0) {pa : Addr} (paAligned : pa.toNat % PGSIZE = 0) {perm : Pte}
    (small : perm.toNat < 2 ^ 10) (unmapped : translate m pagetable va = none) :
    ∃ ok m', mappages m pagetable va PGSIZE pa perm = .ok (ok, m') ∧
      WellFormed layout m' pagetable ∧ (ok = false → m'.free = []) ∧
      ∀ va', va' < MAXVA → translate m' pagetable va' =
        if ok = true ∧ va' / PGSIZE = va / PGSIZE then some (pa, perm ||| PTE_V)
        else translate m pagetable va' := by
  rw [translate_eq m pagetable inSpace, Option.map_eq_none_iff] at unmapped
  obtain ⟨ok, m', ran, moved, -, failed, isNext, -⟩ :=
    mappages_spec wellFormed aligned inSpace unmapped pa perm
  refine ⟨ok, m', ran, wellFormed.moved moved, failed, fun va' inSpace' => ?_⟩
  rw [translate_eq m' pagetable inSpace', translate_eq m pagetable inSpace', isNext]
  cases ok with
  | false => rfl
  | true =>
      rw [if_pos rfl]
      by_cases samePage : va' / PGSIZE = va / PGSIZE
      · rw [if_pos ⟨rfl, samePage⟩, samePage, Function.update_self, Option.map_some,
          PTE2PA_entry paAligned small, PTE_FLAGS_entry pa small]
      · rw [if_neg (fun both => samePage both.2), Function.update_of_ne samePage]

theorem uvmunmap_translate (wellFormed : WellFormed layout m pagetable)
    (aligned : va % PGSIZE = 0) {n : Nat} (inSpace : va + n * PGSIZE ≤ MAXVA) {doFree : Bool}
    (mapped : ∀ i, i < n → ∃ pa flags,
      translate m pagetable (va + i * PGSIZE) = some (pa, flags) ∧ flags ≠ PTE_V)
    (ownsPages : doFree = true → Owned layout m
      (leafPages (entries m pagetable) (va / PGSIZE) n + tableNodes m pagetable)) :
    ∃ m', uvmunmap layout m pagetable va n doFree = .ok m' ∧ WellFormed layout m' pagetable ∧
      ∀ va', va' < MAXVA → translate m' pagetable va' =
        if va ≤ va' ∧ va' < va + n * PGSIZE then none else translate m pagetable va' := by
  obtain ⟨page, rfl⟩ : ∃ page, va = page * PGSIZE :=
    ⟨va / PGSIZE, (Nat.div_mul_cancel (Nat.dvd_of_mod_eq_zero aligned)).symm⟩
  rw [Nat.mul_div_cancel page (by decide)] at ownsPages
  have owned : Owned layout m (freed doFree (leafPages (entries m pagetable) page n) +
      tableNodes m pagetable) := by
    cases doFree with
    | true => exact ownsPages rfl
    | false => simpa [freed] using wellFormed
  have pagesInSpace : page + n ≤ VPAGES := by
    have whole : MAXVA = VPAGES * PGSIZE := by decide
    rw [whole, ← Nat.add_mul] at inSpace
    exact Nat.le_of_mul_le_mul_right inSpace (by decide)
  have mappedEntries : ∀ p, page ≤ p → p < page + n →
      ∃ pte, entries m pagetable p = some pte ∧ PTE_FLAGS pte ≠ PTE_V := by
    intro p low high
    obtain ⟨pa, flags, isMapped, isLeaf⟩ := mapped (p - page) (by omega)
    have isAddress : page * PGSIZE + (p - page) * PGSIZE = p * PGSIZE := by
      rw [← Nat.add_mul, Nat.add_sub_cancel' low]
    rw [isAddress, translate_eq m pagetable (page_mul_lt (by omega)),
      Nat.mul_div_cancel p (by decide), Option.map_eq_some_iff] at isMapped
    obtain ⟨pte, isEntry, isPair⟩ := isMapped
    rw [Prod.mk.injEq] at isPair
    exact ⟨pte, isEntry, isPair.2 ▸ isLeaf⟩
  obtain ⟨m', ran, moved, -, isNext, -⟩ := uvmunmap_spec owned pagesInSpace mappedEntries
  refine ⟨m', ran, owned.moved moved, fun va' inSpace' => ?_⟩
  have inRange : page * PGSIZE ≤ va' ∧ va' < page * PGSIZE + n * PGSIZE ↔
      page ≤ va' / PGSIZE ∧ va' / PGSIZE < page + n := by
    rw [Nat.le_div_iff_mul_le (by decide), Nat.div_lt_iff_lt_mul (by decide), Nat.add_mul]
  rw [translate_eq m' pagetable inSpace', translate_eq m pagetable inSpace', isNext]
  by_cases inside : page ≤ va' / PGSIZE ∧ va' / PGSIZE < page + n
  · rw [if_pos (inRange.mpr inside)]
    dsimp only
    rw [if_pos inside, Option.map_none]
  · rw [if_neg (fun range => inside (inRange.mp range))]
    dsimp only
    rw [if_neg inside]

/-- **Page tables refine a finite map.** For a page-aligned address, `mappages` on an
unmapped page maps exactly that page, or fails with no free page left and changes no
translation; `uvmunmap` of mapped pages with some permission removes exactly those
translations (when it frees pages, they are not used otherwise); `walkaddr` is the
physical page of the translation if the user may use it. The table stays well-formed. -/
theorem table_refines_map (wellFormed : WellFormed layout m pagetable) (inSpace : va < MAXVA) :
    (∀ pa perm, va % PGSIZE = 0 → pa.toNat % PGSIZE = 0 → perm.toNat < 2 ^ 10 →
      translate m pagetable va = none →
      ∃ ok m', mappages m pagetable va PGSIZE pa perm = .ok (ok, m') ∧
        WellFormed layout m' pagetable ∧ (ok = false → m'.free = []) ∧
        ∀ va', va' < MAXVA → translate m' pagetable va' =
          if ok = true ∧ va' / PGSIZE = va / PGSIZE then some (pa, perm ||| PTE_V)
          else translate m pagetable va') ∧
      (∀ n doFree, va % PGSIZE = 0 → va + n * PGSIZE ≤ MAXVA →
        (∀ i, i < n → ∃ pa flags, translate m pagetable (va + i * PGSIZE) = some (pa, flags) ∧
          flags ≠ PTE_V) →
        (doFree = true → Owned layout m
          (leafPages (entries m pagetable) (va / PGSIZE) n + tableNodes m pagetable)) →
        ∃ m', uvmunmap layout m pagetable va n doFree = .ok m' ∧
          WellFormed layout m' pagetable ∧
          ∀ va', va' < MAXVA → translate m' pagetable va' =
            if va ≤ va' ∧ va' < va + n * PGSIZE then none else translate m pagetable va') ∧
      walkaddr m pagetable va = .ok (match translate m pagetable va with
        | some (pa, flags) => if flags &&& PTE_U = 0 then 0 else pa
        | none => 0) :=
  ⟨fun _ _ aligned paAligned small unmapped =>
      mappages_translate wellFormed inSpace aligned paAligned small unmapped,
    fun _ _ aligned inRange mapped ownsPages =>
      uvmunmap_translate wellFormed aligned inRange mapped ownsPages,
    walkaddr_translate m pagetable inSpace⟩

/-! ## A table with no mapping -/

/-- A layout with a kernel of one megabyte. -/
def megabyteKernel : Layout where
  kernelEnd := KERNBASE + 0x100000
  trampoline := 0x80007000
  kernbase_le := by decide
  trampoline_aligned := by decide
  trampoline_lt := by decide

/-- A blank root node and four free pages. -/
def blankTable : Memory where
  free := [0x80201000, 0x80202000, 0x80203000, 0x80204000]
  store := fun _ _ => 0

theorem blankTable_wellFormed : WellFormed megabyteKernel blankTable 0x80200000 := by
  have root : tableNodes blankTable 0x80200000 = {0x80200000} :=
    nodes_blank fun _ => child_zero
  constructor
  · rw [root]
    decide
  · intro a isMember
    have isOne : a = 0x80201000 ∨ a = 0x80202000 ∨ a = 0x80203000 ∨ a = 0x80204000 ∨
        a = 0x80200000 := by
      rw [root] at isMember
      simpa [blankTable, or_assoc] using isMember
    rcases isOne with rfl | rfl | rfl | rfl | rfl <;> decide

/-- In the blank table the first page can be mapped, once, and is then found. -/
theorem table_refines_map_blank :
    ∃ m', mappages blankTable 0x80200000 0 PGSIZE 0x80300000 (PTE_R ||| PTE_U) = .ok (true, m') ∧
      WellFormed megabyteKernel m' 0x80200000 ∧
      walkaddr m' 0x80200000 5 = .ok 0x80300000 ∧
      ∃ m'', uvmunmap megabyteKernel m' 0x80200000 0 1 false = .ok m'' ∧
        walkaddr m'' 0x80200000 5 = .ok 0 := by
  have inSpace : 0 < MAXVA := by decide
  have fiveInSpace : 5 < MAXVA := by decide
  obtain ⟨ok, m', ran, wellFormed, -, isNext⟩ :=
    (table_refines_map blankTable_wellFormed inSpace).1 0x80300000 (PTE_R ||| PTE_U)
      rfl (by decide) (by decide) (by decide)
  have isOk : (mappages blankTable 0x80200000 0 PGSIZE 0x80300000 (PTE_R ||| PTE_U)).map Prod.fst =
      .ok true := rfl
  obtain rfl : ok = true := by
    rw [ran] at isOk
    exact Except.ok.inj isOk
  have isMapped : ∀ va', va' < PGSIZE → translate m' 0x80200000 va' =
      some (0x80300000, PTE_R ||| PTE_U ||| PTE_V) := by
    intro va' samePage
    rw [isNext va' (Nat.lt_of_lt_of_le samePage (by decide)),
      if_pos ⟨rfl, Nat.div_eq_of_lt samePage⟩]
  obtain ⟨m'', ran', -, isNext'⟩ := (table_refines_map wellFormed inSpace).2.1 1 false rfl
    (by decide) (fun i isFirst => ⟨_, _, isMapped _
    (by rw [Nat.lt_one_iff.mp isFirst]; decide), by decide⟩)
    nofun
  refine ⟨m', ran, wellFormed, ?_, m'', ran', ?_⟩
  · rw [(table_refines_map wellFormed fiveInSpace).2.2, isMapped 5 (by decide)]
    rfl
  · rw [walkaddr_translate m'' _ fiveInSpace, isNext' 5 fiveInSpace, if_pos (by decide)]

/-- An address that is not page-aligned: the region of `PGSIZE` bytes from it lies in two
pages, and `mappages` maps both. -/
theorem unaligned_maps_two_pages :
    WellFormed megabyteKernel blankTable 0x80200000 ∧
      translate blankTable 0x80200000 1 = none ∧
      ∃ m', mappages blankTable 0x80200000 1 PGSIZE 0x80300000 (PTE_R ||| PTE_U) = .ok (true, m') ∧
        translate blankTable 0x80200000 PGSIZE = none ∧
        translate m' 0x80200000 PGSIZE = some (0x80301000, PTE_R ||| PTE_U ||| PTE_V) := by
  refine ⟨blankTable_wellFormed, by decide, _, rfl, by decide, by decide +kernel⟩

end Xv6.Vm
