import Xv6.Vm.Walk

/-!
Contract: a page table in memory is a finite map from virtual pages to entries.

Owns: the entries of a table by page number, and the specifications of `mappages` for
one page and of `uvmunmap` in these terms. Every function says which pages it was given
and which it hands back.
-/

namespace Xv6.Vm

open Xv6.Kernel
open Xv6.Pools
open Xv6.Radix
open Function

variable {layout : Layout} {m m' : Memory} {pagetable a b : Addr} {va page n va' : Nat}
  {pte perm : Pte} {es es' : Nat → Option Pte} {doFree : Bool}

/-! ## Entries of the last level -/

def VPAGES : Nat := MAXVA / PGSIZE

/-- The number of entries of a table of three levels. Only those of the first half are
used: `MAXVA` is one bit less than the hardware allows. -/
def TABLEPAGES : Nat := 512 * 512 * 512

theorem PX_val (l va : Nat) : (PX l va).val = va / PGSIZE / 2 ^ (9 * l) % 512 := by
  rw [PX, Fin.val_ofNat, Nat.shiftRight_eq_div_pow, Nat.pow_add, ← Nat.div_div_eq_div_mul]
  rfl

/-- Addresses of one page have the same indices, those of different pages have not. -/
theorem PX_eq_iff (inTable : va / PGSIZE < TABLEPAGES) (inTable' : va' / PGSIZE < TABLEPAGES) :
    (∀ l, l < 2 + 1 → PX l va' = PX l va) ↔ va' / PGSIZE = va / PGSIZE := by
  constructor
  · intro same
    have low := congrArg Fin.val (same 0 (by decide))
    have middle := congrArg Fin.val (same 1 (by decide))
    have high := congrArg Fin.val (same 2 (by decide))
    rw [PX_val, PX_val] at low middle high
    unfold TABLEPAGES at inTable inTable'
    generalize va / PGSIZE = page at *
    generalize va' / PGSIZE = page' at *
    omega
  · intro same l _
    apply Fin.ext
    rw [PX_val, PX_val, same]

theorem page_lt (inSpace : va < MAXVA) : va / PGSIZE < TABLEPAGES := by
  have inFirstHalf : va / PGSIZE < VPAGES := Nat.div_lt_of_lt_mul inSpace
  exact Nat.lt_of_lt_of_le inFirstHalf (by decide)

theorem page_mul_lt (inSpace : page < VPAGES) : page * PGSIZE < MAXVA := by
  have whole : MAXVA = VPAGES * PGSIZE := by decide
  rw [whole]
  exact Nat.mul_lt_mul_of_pos_right inSpace (by decide)

@[simp] theorem mul_PGSIZE_div (page : Nat) : page * PGSIZE / PGSIZE = page :=
  Nat.mul_div_cancel page (by decide)

/-- The entries above the last level are pointers. -/
abbrev Linked (m : Memory) (pagetable : Addr) : Prop := Pointers child IsPointer m.store 2 pagetable

theorem setPte_nodes (tree : (tableNodes m pagetable).Nodup)
    (found : reach child m.store (fun level => PX level va) 2 pagetable = some b) (i : Fin 512)
    (pte : Pte) : tableNodes (setPte m b i pte) pagetable = tableNodes m pagetable :=
  (write_last tree found _).1

theorem Linked.setPte (linked : Linked m pagetable) (tree : (tableNodes m pagetable).Nodup)
    (found : reach child m.store (fun level => PX level va) 2 pagetable = some b) (i : Fin 512)
    (pte : Pte) : Linked (setPte m b i pte) pagetable :=
  (write_last tree found _).2.2 IsPointer linked

theorem lookup_setPte (tree : (tableNodes m pagetable).Nodup)
    (found : reach child m.store (fun level => PX level va) 2 pagetable = some b) (pte : Pte)
    (inTable : va / PGSIZE < TABLEPAGES) (inTable' : va' / PGSIZE < TABLEPAGES) :
    lookup (setPte m b (PX 0 va) pte) pagetable va' =
      if va' / PGSIZE = va / PGSIZE then (if IsValid pte then some pte else none)
      else lookup m pagetable va' := by
  have written := look_write tree found pte fun level => PX level va'
  rw [lookup, validAt, setPte, written]
  by_cases samePage : va' / PGSIZE = va / PGSIZE
  · rw [if_pos samePage, if_pos ((PX_eq_iff inTable inTable').mpr samePage)]
    simp [Option.filter]
  · rw [if_neg samePage, if_neg fun same => samePage ((PX_eq_iff inTable inTable').mp same)]
    rfl

theorem reach_of_lookup (isMapped : lookup m pagetable va = some pte) :
    ∃ node, reach child m.store (fun level => PX level va) 2 pagetable = some node ∧
      m.store node (PX 0 va) = pte ∧ IsValid pte := by
  rw [lookup, validAt, Option.filter_eq_some_iff] at isMapped
  obtain ⟨found, isValid⟩ := isMapped
  obtain ⟨node, reached, isPte⟩ := Option.map_eq_some_iff.mp found
  exact ⟨node, reached, isPte, by simpa using isValid⟩

/-! ## The map -/

/-- The table as a map from the numbers of virtual pages to valid entries. -/
def entries (m : Memory) (pagetable : Addr) (page : Nat) : Option Pte :=
  if page < TABLEPAGES then lookup m pagetable (page * PGSIZE) else none

theorem lookup_eq_entries (m : Memory) (pagetable : Addr) (inSpace : va < MAXVA) :
    lookup m pagetable va = entries m pagetable (va / PGSIZE) := by
  have inTable := page_lt inSpace
  have sameKey : ∀ l, l < 2 + 1 → PX l va = PX l (va / PGSIZE * PGSIZE) :=
    (PX_eq_iff (by rwa [mul_PGSIZE_div]) inTable).mpr (mul_PGSIZE_div _).symm
  have sameNode : reach child m.store (fun level => PX level va) 2 pagetable =
      reach child m.store (fun level => PX level (va / PGSIZE * PGSIZE)) 2 pagetable :=
    reach_of_same (fun l below => sameKey (l + 1) (by omega)) pagetable
  rw [entries, if_pos inTable, lookup, lookup, validAt, validAt, look, look, sameNode,
    sameKey 0 (by decide)]

theorem entries_setPte (tree : (tableNodes m pagetable).Nodup)
    (found : reach child m.store (fun level => PX level va) 2 pagetable = some b) (pte : Pte)
    (inSpace : va < MAXVA) :
    entries (setPte m b (PX 0 va) pte) pagetable = update (entries m pagetable)
      (va / PGSIZE) (if IsValid pte then some pte else none) := by
  funext page
  by_cases inTable : page < TABLEPAGES
  · have written := lookup_setPte tree found pte (page_lt inSpace)
      ((mul_PGSIZE_div page).symm ▸ inTable)
    rw [mul_PGSIZE_div] at written
    rw [entries, if_pos inTable, written, update_apply, entries, if_pos inTable]
  · have different : page ≠ va / PGSIZE := by
      have := page_lt inSpace
      omega
    rw [update_of_ne different, entries, entries, if_neg inTable, if_neg inTable]

/-- What `walk` without `alloc` reads for an address is the entry of its page. -/
theorem walk_false (m : Memory) (pagetable : Addr) (inSpace : va < MAXVA) :
    walk m pagetable va false =
        .ok (reach child m.store (fun level => PX level va) 2 pagetable, m) ∧
      entries m pagetable (va / PGSIZE) =
        ((reach child m.store (fun level => PX level va) 2 pagetable).map
          fun node => m.store node (PX 0 va)).filter fun pte => decide (IsValid pte) := by
  refine ⟨by rw [walk, if_neg (by omega), descend_false], ?_⟩
  rw [← lookup_eq_entries m pagetable inSpace, lookup, validAt, look]

theorem walk_mapped (inSpace : page < VPAGES) (isEntry : entries m pagetable page = some pte) :
    ∃ node, reach child m.store (fun level => PX level (page * PGSIZE)) 2 pagetable = some node ∧
      walk m pagetable (page * PGSIZE) false = .ok (some node, m) ∧
      m.store node (PX 0 (page * PGSIZE)) = pte ∧ IsValid pte := by
  obtain ⟨walked, -⟩ := walk_false m pagetable (page_mul_lt inSpace)
  have isLookup : lookup m pagetable (page * PGSIZE) = some pte := by
    rw [lookup_eq_entries m pagetable (page_mul_lt inSpace), mul_PGSIZE_div, isEntry]
  obtain ⟨node, found, isPte, isValid⟩ := reach_of_lookup isLookup
  exact ⟨node, found, found ▸ walked, isPte, isValid⟩

theorem walkaddr_spec (m : Memory) (pagetable : Addr) (inSpace : va < MAXVA) :
    walkaddr m pagetable va = .ok (match entries m pagetable (va / PGSIZE) with
      | some pte => if pte &&& PTE_U = 0 then 0 else PTE2PA pte
      | none => 0) := by
  obtain ⟨ran, isEntry⟩ := walk_false m pagetable inSpace
  rw [walkaddr, if_neg (by omega), ran, isEntry]
  cases reach child m.store (fun level => PX level va) 2 pagetable with
  | none => rfl
  | some node =>
      dsimp only
      rw [Option.map_some, Option.filter_some]
      by_cases isValid : IsValid (m.store node (PX 0 va))
      · rw [if_neg isValid, if_pos (decide_eq_true isValid)]
        dsimp only
        split <;> rfl
      · rw [if_pos (not_not.mp isValid), if_neg (by simpa using isValid)]

theorem table_congr (same : ∀ b ∈ tableNodes m pagetable, m'.store b = m.store b) :
    tableNodes m' pagetable = tableNodes m pagetable ∧
      entries m' pagetable = entries m pagetable := by
  refine ⟨nodes_congr same, funext fun page => ?_⟩
  rw [entries, entries, lookup, lookup, validAt, validAt, look_congr same]

/-! ## mappages -/

theorem PGROUNDDOWN_of_aligned (aligned : va % PGSIZE = 0) : PGROUNDDOWN va = va :=
  Nat.div_mul_cancel (Nat.dvd_of_mod_eq_zero aligned)

theorem isValid_mk (pa : Addr) (perm : Pte) : IsValid (PA2PTE pa ||| perm ||| PTE_V) := by
  intro isZero
  have bit := congrArg (fun pte => pte.getLsbD 0) isZero
  simp [PTE_V] at bit

theorem or_PTE_V_small (small : perm.toNat < 2 ^ 10) :
    (perm ||| PTE_V).toNat < 2 ^ 10 := by
  rw [BitVec.toNat_or]
  exact Nat.or_lt_two_pow small (by decide)

theorem PTE2PA_entry {pa : Addr} (aligned : pa.toNat % PGSIZE = 0) (small : perm.toNat < 2 ^ 10) :
    PTE2PA (PA2PTE pa ||| perm ||| PTE_V) = pa := by
  rw [BitVec.or_assoc, PTE2PA_mk aligned (or_PTE_V_small small)]

theorem PTE_FLAGS_entry (pa : Addr) (small : perm.toNat < 2 ^ 10) :
    PTE_FLAGS (PA2PTE pa ||| perm ||| PTE_V) = perm ||| PTE_V := by
  rw [BitVec.or_assoc, PTE_FLAGS_mk pa (or_PTE_V_small small)]

theorem mappages_page (aligned : va % PGSIZE = 0) (pa : Addr) (perm : Pte) :
    mappages m pagetable va PGSIZE pa perm = mappagesLoop pagetable perm 1 m va pa := by
  have last : PGROUNDDOWN (va + PGSIZE - 1) = va := by
    unfold PGROUNDDOWN
    unfold PGSIZE at aligned ⊢
    omega
  rw [mappages, if_neg (by decide)]
  simp only [PGROUNDDOWN_of_aligned aligned, last, Nat.sub_self, Nat.zero_div, Nat.zero_add]

/-- **`mappages` for one page**: the page is mapped, or the memory is used up and no
mapping has changed. -/
theorem mappages_spec (owned : Owned layout m (tableNodes m pagetable))
    (aligned : va % PGSIZE = 0) (inSpace : va < MAXVA)
    (unmapped : entries m pagetable (va / PGSIZE) = none) (pa : Addr) (perm : Pte) :
    ∃ ok m', mappages m pagetable va PGSIZE pa perm = .ok (ok, m') ∧
      Transfer m m' (tableNodes m pagetable) (tableNodes m' pagetable) ∧
      tableNodes m pagetable ≤ tableNodes m' pagetable ∧
      (ok = false → m'.free = []) ∧
      entries m' pagetable = (if ok then update (entries m pagetable) (va / PGSIZE)
        (some (PA2PTE pa ||| perm ||| PTE_V)) else entries m pagetable) ∧
      (Linked m pagetable → Linked m' pagetable) := by
  obtain ⟨result, m₁, ran, walked⟩ := descend_spec va owned
  have sameEntries : entries m₁ pagetable = entries m pagetable := by
    funext page
    rw [entries, entries, lookup, lookup, walked.same]
  rw [mappages_page aligned, mappagesLoop, walk, if_neg (by omega), ran]
  cases result with
  | none =>
      exact ⟨false, m₁, rfl, walked.transfer, walked.grows, fun _ => walked.failed rfl,
        sameEntries, walked.pointers⟩
  | some node =>
      have found := walked.found node rfl
      have isFree : ¬ IsValid (m₁.store node (PX 0 va)) := by
        intro isValid
        rw [← sameEntries, ← lookup_eq_entries m₁ pagetable inSpace, lookup, validAt, look, found,
          Option.map_some, Option.filter_some, decide_eq_true isValid] at unmapped
        cases unmapped
      have tree := (Multiset.nodup_add.mp (owned.moved walked.transfer).nodup).2.1
      refine ⟨true, setPte m₁ node (PX 0 va) (PA2PTE pa ||| perm ||| PTE_V), ?_, ?_, ?_,
        (by simp), ?_, fun linked => Linked.setPte (walked.pointers linked) tree found _ _⟩
      · exact if_neg isFree
      · rw [setPte_nodes tree found]
        exact walked.transfer.trans (Transfer.write _ (reach_mem_nodes found) _)
      · rw [setPte_nodes tree found]
        exact walked.grows
      · rw [entries_setPte tree found _ inSpace, if_pos (isValid_mk pa perm),
          sameEntries, if_pos rfl]

/-! ## uvmunmap -/

/-- The pages that `n` virtual pages are mapped to. -/
def leafPages (es : Nat → Option Pte) (page n : Nat) : Multiset Addr :=
  ((List.range' page n).filterMap es).map PTE2PA

theorem leafPages_zero (es : Nat → Option Pte) (page : Nat) : leafPages es page 0 = 0 := rfl

theorem leafPages_succ (isMapped : es page = some pte) (n : Nat) :
    leafPages es page (n + 1) = {PTE2PA pte} + leafPages es (page + 1) n := by
  rw [leafPages, List.range'_succ, List.filterMap_cons_some isMapped, List.map_cons]
  rfl

theorem leafPages_congr_pa
    (same : ∀ p, page ≤ p → p < page + n → (es' p).map PTE2PA = (es p).map PTE2PA) :
    leafPages es' page n = leafPages es page n := by
  have sameList : (List.range' page n).filterMap (fun p => (es' p).map PTE2PA) =
      (List.range' page n).filterMap fun p => (es p).map PTE2PA := by
    apply List.filterMap_congr
    intro p member
    obtain ⟨i, inside, isSum⟩ := List.mem_range'.mp member
    exact same p (by omega) (by omega)
  rw [leafPages, leafPages, List.map_filterMap, List.map_filterMap, sameList]

theorem leafPages_congr (same : ∀ p, page ≤ p → p < page + n → es' p = es p) :
    leafPages es' page n = leafPages es page n :=
  leafPages_congr_pa fun p low high => by rw [same p low high]

theorem kfree_spec (isPage : layout.IsPage a) :
    ∃ m', kfree layout m a = .ok m' ∧ Transfer m m' {a} 0 := by
  refine ⟨_, if_pos isPage, ?_⟩
  exact (Transfer.write m (Multiset.mem_singleton_self a) _).trans (Transfer.put _ a)

/-- What one round of `uvmunmap` is given for a page with this entry. -/
abbrev freed (doFree : Bool) (pages : Multiset Addr) : Multiset Addr :=
  if doFree then pages else 0

theorem unmapRound_spec {rest : Multiset Addr}
    (owned : Owned layout m (freed doFree {PTE2PA pte} + (tableNodes m pagetable + rest)))
    (inSpace : page < VPAGES) (isMapped : entries m pagetable page = some pte)
    (isLeaf : PTE_FLAGS pte ≠ PTE_V) (n : Nat) :
    ∃ m', uvmunmapLoop layout pagetable doFree (n + 1) m (page * PGSIZE) =
        uvmunmapLoop layout pagetable doFree n m' ((page + 1) * PGSIZE) ∧
      Transfer m m' (freed doFree {PTE2PA pte} + tableNodes m pagetable)
        (tableNodes m' pagetable) ∧
      tableNodes m' pagetable = tableNodes m pagetable ∧
      entries m' pagetable = update (entries m pagetable) page none ∧
      (Linked m pagetable → Linked m' pagetable) := by
  have inSpace' := page_mul_lt inSpace
  obtain ⟨node, found, walked, isPte, isValid⟩ := walk_mapped inSpace isMapped
  have released : ∃ m₁, (if doFree then kfree layout m (PTE2PA pte) else .ok m) = .ok m₁ ∧
      Transfer m m₁ (freed doFree {PTE2PA pte}) 0 := by
    cases doFree with
    | false => exact ⟨m, rfl, .refl m 0⟩
    | true => exact kfree_spec (owned.pages _ (by simp [freed]))
  obtain ⟨m₁, ran, given⟩ := released
  have kept : ∀ b ∈ tableNodes m pagetable, m₁.store b = m.store b := by
    intro b member
    exact owned.untouched given (Multiset.mem_add.mpr (.inl member))
  obtain ⟨sameNodes, sameEntries⟩ := table_congr kept
  have sameReach : reach child m₁.store (fun level => PX level (page * PGSIZE)) 2 pagetable =
      some node := (reach_congr kept _).trans found
  have tree : (tableNodes m₁ pagetable).Nodup := by
    rw [sameNodes]
    exact (Multiset.nodup_add.mp (Multiset.nodup_add.mp
      (Multiset.nodup_add.mp owned.nodup).2.1).2.1).1
  refine ⟨setPte m₁ node (PX 0 (page * PGSIZE)) 0, ?_, ?_, ?_, ?_,
    fun linked => Linked.setPte (linked.congr kept) tree sameReach _ _⟩
  · rw [uvmunmapLoop, walked]
    dsimp only
    rw [isPte, if_neg isValid, if_neg isLeaf, ran, Nat.succ_mul]
    rfl
  · rw [setPte_nodes tree sameReach, sameNodes]
    have withNodes := given.add (tableNodes m pagetable)
    rw [zero_add] at withNodes
    exact withNodes.trans (Transfer.write _ (reach_mem_nodes found) _)
  · rw [setPte_nodes tree sameReach, sameNodes]
  · rw [entries_setPte tree sameReach _ inSpace', mul_PGSIZE_div, sameEntries]
    simp [IsValid]

/-- **`uvmunmap`** removes the mappings it was asked to remove, and gives their pages
back if it was asked to. -/
theorem uvmunmapLoop_spec
    (owned : Owned layout m (freed doFree (leafPages (entries m pagetable) page n) +
      tableNodes m pagetable)) (inSpace : page + n ≤ VPAGES)
    (mapped : ∀ p, page ≤ p → p < page + n →
      ∃ pte, entries m pagetable p = some pte ∧ PTE_FLAGS pte ≠ PTE_V) :
    ∃ m', uvmunmapLoop layout pagetable doFree n m (page * PGSIZE) = .ok m' ∧
      Transfer m m' (freed doFree (leafPages (entries m pagetable) page n) +
        tableNodes m pagetable) (tableNodes m' pagetable) ∧
      tableNodes m' pagetable = tableNodes m pagetable ∧
      (entries m' pagetable = fun p =>
        if page ≤ p ∧ p < page + n then none else entries m pagetable p) ∧
      (Linked m pagetable → Linked m' pagetable) := by
  induction n generalizing page m with
  | zero =>
      refine ⟨m, rfl, ?_, rfl, ?_, id⟩
      · have nothing : freed doFree (leafPages (entries m pagetable) page 0) = 0 := by
          cases doFree <;> rfl
        rw [nothing, zero_add]
        exact .refl _ _
      · funext p
        rw [if_neg (by omega)]
  | succ n ih =>
      obtain ⟨pte, isMapped, isLeaf⟩ := mapped page (Nat.le_refl _) (by omega)
      have split : freed doFree (leafPages (entries m pagetable) page (n + 1)) =
          freed doFree {PTE2PA pte} +
            freed doFree (leafPages (entries m pagetable) (page + 1) n) := by
        cases doFree with
        | false => rfl
        | true => exact leafPages_succ isMapped n
      rw [split] at owned ⊢
      have arranged : Owned layout m (freed doFree {PTE2PA pte} + (tableNodes m pagetable +
          freed doFree (leafPages (entries m pagetable) (page + 1) n))) :=
        owned.mono (le_of_eq (by abel))
      obtain ⟨m₁, ran, first, sameNodes, sameEntries, keepsLinks⟩ :=
        unmapRound_spec arranged (by omega) isMapped isLeaf n
      have others : ∀ p, page + 1 ≤ p → entries m₁ pagetable p = entries m pagetable p := by
        intro p later
        rw [sameEntries, update_of_ne (by omega)]
      have samePages : leafPages (entries m₁ pagetable) (page + 1) n =
          leafPages (entries m pagetable) (page + 1) n :=
        leafPages_congr fun p later _ => others p later
      rw [← add_assoc] at arranged
      have remaining := arranged.transfer first
      rw [← samePages, add_comm] at remaining
      obtain ⟨m', ran', second, sameNodes', sameEntries', keepsLinks'⟩ :=
        ih remaining (by omega) fun p later before => by
          rw [others p later]
          exact mapped p (by omega) (by omega)
      refine ⟨m', ran.trans ran', ?_, sameNodes'.trans sameNodes, ?_, keepsLinks' ∘ keepsLinks⟩
      · rw [samePages] at second
        exact ((first.add _).congr (by abel) rfl).trans (second.congr (add_comm ..) rfl)
      · rw [sameEntries']
        funext p
        by_cases isFirst : p = page
        · subst isFirst
          rw [if_neg (by omega), if_pos (by omega), sameEntries, update_self]
        · by_cases inside : page ≤ p ∧ p < page + (n + 1)
          · rw [if_pos (by omega), if_pos inside]
          · rw [if_neg (by omega), if_neg inside, sameEntries, update_of_ne isFirst]

theorem uvmunmap_spec
    (owned : Owned layout m (freed doFree (leafPages (entries m pagetable) page n) +
      tableNodes m pagetable)) (inSpace : page + n ≤ VPAGES)
    (mapped : ∀ p, page ≤ p → p < page + n →
      ∃ pte, entries m pagetable p = some pte ∧ PTE_FLAGS pte ≠ PTE_V) :
    ∃ m', uvmunmap layout m pagetable (page * PGSIZE) n doFree = .ok m' ∧
      Transfer m m' (freed doFree (leafPages (entries m pagetable) page n) +
        tableNodes m pagetable) (tableNodes m' pagetable) ∧
      tableNodes m' pagetable = tableNodes m pagetable ∧
      (entries m' pagetable = fun p =>
        if page ≤ p ∧ p < page + n then none else entries m pagetable p) ∧
      (Linked m pagetable → Linked m' pagetable) := by
  rw [uvmunmap, if_neg (not_not.mpr (Nat.mul_mod_left ..))]
  exact uvmunmapLoop_spec owned inSpace mapped

end Xv6.Vm
