import Xv6.Vm.Mapping

/-!
Contract: `freewalk` gives back every node of a table that maps nothing.

Owns: what it means for a subtree to map nothing, and the specifications of `freewalk`
and `uvmfree`.
-/

namespace Xv6.Vm

open Xv6.Kernel
open Xv6.Pools
open Xv6.Radix

variable {layout : Layout} {m m' : Memory} {pagetable a : Addr} {level : Nat}
  {indices : List (Fin 512)}

/-- Below this node there are only pointers to nodes. -/
structure MapsNothing (m : Memory) (level : Nat) (a : Addr) : Prop where
  pointers : Pointers child IsPointer m.store level a
  invalid : ∀ key, validAt m key level a = none

theorem MapsNothing.congr (nothing : MapsNothing m level a)
    (same : ∀ b ∈ nodes child m.store level a, m'.store b = m.store b) :
    MapsNothing m' level a :=
  ⟨nothing.pointers.congr same, fun key => by
    rw [validAt, look_congr same]
    exact nothing.invalid key⟩

theorem MapsNothing.child {c : Addr} {i : Fin 512} (nothing : MapsNothing m (level + 1) a)
    (isChild : child (m.store a i) = some c) :
    IsPointer (m.store a i) ∧ MapsNothing m level c := by
  obtain ⟨isPointer, pointersBelow⟩ := nothing.pointers i c isChild
  refine ⟨isPointer, pointersBelow, fun key => ?_⟩
  -- The keys that go through this entry.
  have through := nothing.invalid (Function.update key (level + 1) i)
  rw [validAt_succ, Function.update_self, isChild, Option.bind_some] at through
  rw [← through, validAt, validAt, look, look]
  have sameNode : reach Vm.child m.store key level c =
      reach Vm.child m.store (Function.update key (level + 1) i) level c :=
    reach_of_same (fun l below => (Function.update_of_ne (by omega) ..).symm) c
  rw [sameNode, Function.update_of_ne (by omega)]

/-! ## freewalk -/

abbrev subtrees (m : Memory) (level : Nat) (a : Addr) (indices : List (Fin 512)) : Multiset Addr :=
  (indices.map fun i => below child m.store level (m.store a i)).sum

theorem mem_subtrees {i : Fin 512} {c e : Addr} (member : i ∈ indices)
    (isChild : child (m.store a i) = some c) (isNode : e ∈ nodes child m.store level c) :
    e ∈ subtrees m level a indices := by
  have part : below child m.store level (m.store a i) ≤ subtrees m level a indices :=
    List.single_le_sum (fun _ _ => Multiset.zero_le _) _ (List.mem_map.mpr ⟨i, member, rfl⟩)
  apply Multiset.mem_of_le part
  rw [below, isChild]
  exact isNode

theorem subtrees_congr (sameEntries : ∀ i ∈ indices, m'.store a i = m.store a i)
    (sameNodes : ∀ e ∈ subtrees m level a indices, m'.store e = m.store e) :
    subtrees m' level a indices = subtrees m level a indices := by
  have sameBelow : ∀ i ∈ indices, below child m'.store level (m'.store a i) =
      below child m.store level (m.store a i) := by
    intro i member
    rw [sameEntries i member]
    cases isChild : child (m.store a i) with
    | none => rw [below, below, isChild, Option.elim_none, Option.elim_none]
    | some c =>
        rw [below, below, isChild, Option.elim_some, Option.elim_some]
        exact nodes_congr fun e isNode => sameNodes e (mem_subtrees member isChild isNode)
  rw [subtrees, subtrees, List.map_congr_left sameBelow]

/-- What `freewalk` does for a node of a level. -/
def Frees (layout : Layout) (free : Memory → Addr → Except Panic Memory) (level : Nat) : Prop :=
  ∀ m c, Owned layout m (nodes child m.store level c) → MapsNothing m level c →
    ∃ m', free m c = .ok m' ∧ Transfer m m' (nodes child m.store level c) 0

theorem freewalkLoop_spec {free : Memory → Addr → Except Panic Memory}
    (frees : Frees layout free level) (distinct : indices.Nodup)
    (owned : Owned layout m ({a} + subtrees m level a indices))
    (nothing : ∀ i ∈ indices, ∀ c, child (m.store a i) = some c →
      IsPointer (m.store a i) ∧ MapsNothing m level c) :
    ∃ m', freewalkLoop free a indices m = .ok m' ∧
      Transfer m m' ({a} + subtrees m level a indices) {a} := by
  induction indices generalizing m with
  | nil => exact ⟨m, rfl, .refl m {a}⟩
  | cons i rest ih =>
      obtain ⟨notInRest, distinct⟩ := List.nodup_cons.mp distinct
      by_cases isValid : m.store a i &&& PTE_V ≠ 0
      · have isChild : child (m.store a i) = some (PTE2PA (m.store a i)) := if_pos isValid
        obtain ⟨isPointer, nothingBelow⟩ := nothing i List.mem_cons_self _ isChild
        have parts : {a} + subtrees m level a (i :: rest) =
            nodes child m.store level (PTE2PA (m.store a i)) + ({a} + subtrees m level a rest) := by
          rw [subtrees, List.map_cons, List.sum_cons, below, isChild, Option.elim_some]
          abel
        rw [parts] at owned ⊢
        obtain ⟨m₁, freed, given⟩ :=
          frees m _ (owned.mono (Multiset.le_add_right ..)) nothingBelow
        have withRest := given.add ({a} + subtrees m level a rest)
        rw [zero_add] at withRest
        -- The entry is cleared; the root is not a node of a subtree.
        have cleared : Transfer m₁ (setPte m₁ a i 0) ({a} + subtrees m level a rest)
            ({a} + subtrees m level a rest) :=
          Transfer.write m₁ (Multiset.mem_add.mpr (.inl (Multiset.mem_singleton_self a))) _
        have kept : ∀ e ∈ {a} + subtrees m level a rest, m₁.store e = m.store e :=
          fun e member => owned.untouched given member
        have rootApart : a ∉ subtrees m level a rest := by
          intro member
          have apart := (Multiset.nodup_add.mp (Multiset.nodup_add.mp owned.nodup).2.1).2.1
          exact Multiset.disjoint_left.mp (Multiset.nodup_add.mp apart).2.2
            (Multiset.mem_singleton_self a) member
        have sameEntries : ∀ j ∈ rest, (setPte m₁ a i 0).store a j = m.store a j := by
          intro j member
          have different : j ≠ i := fun same => notInRest (same ▸ member)
          rw [store_setPte, Function.update_of_ne different,
            kept a (Multiset.mem_add.mpr (.inl (Multiset.mem_singleton_self a)))]
        have sameNodes : ∀ e ∈ subtrees m level a rest, (setPte m₁ a i 0).store e = m.store e := by
          intro e member
          have different : e ≠ a := fun same => rootApart (same ▸ member)
          rw [store_setPte_of_ne m₁ different, kept e (Multiset.mem_add.mpr (.inr member))]
        have sameSubtrees := subtrees_congr sameEntries sameNodes
        have moved := withRest.trans cleared
        obtain ⟨m', ran, last⟩ := ih distinct
          (sameSubtrees ▸ owned.moved moved) fun j member c isChild' => by
            rw [sameEntries j member] at isChild' ⊢
            obtain ⟨isPointer', nothing'⟩ := nothing j (List.mem_cons_of_mem i member) c isChild'
            exact ⟨isPointer', nothing'.congr fun e isNode =>
              sameNodes e (mem_subtrees member isChild' isNode)⟩
        refine ⟨m', ?_, moved.trans (sameSubtrees ▸ last)⟩
        rw [freewalkLoop, if_pos ⟨isValid, isPointer⟩, freed]
        exact ran
      · have noChild : child (m.store a i) = none := if_neg isValid
        have parts : subtrees m level a (i :: rest) = subtrees m level a rest := by
          rw [subtrees, List.map_cons, List.sum_cons, below, noChild, Option.elim_none, zero_add]
        rw [parts] at owned ⊢
        obtain ⟨m', ran, moved⟩ := ih distinct owned
          fun j member => nothing j (List.mem_cons_of_mem i member)
        refine ⟨m', ?_, moved⟩
        rw [freewalkLoop, if_neg (fun both => isValid both.1), if_neg isValid]
        exact ran

/-- **`freewalk`** gives back the nodes of a table that maps nothing. -/
theorem freewalk_spec (layout : Layout) (level : Nat) :
    Frees layout (freewalk layout level) level := by
  induction level with
  | zero =>
      intro m c owned nothing
      have isRoot := root_mem_nodes child m.store 0 c
      have noEntry : ∀ i, ¬ IsValid (m.store c i) := by
        intro i isValid
        have invalid := nothing.invalid fun _ => i
        rw [validAt, look, reach, Option.map_some, Option.filter_some,
          if_pos (decide_eq_true isValid)] at invalid
        cases invalid
      have skipped : ∀ indices : List (Fin 512),
          freewalkLoop (fun _ _ => .error .tooDeep) c indices m = .ok m := by
        intro indices
        induction indices with
        | nil => rfl
        | cons i rest ih =>
            rw [freewalkLoop, if_neg (fun both => noEntry i both.1)]
            exact (if_neg (noEntry i)).trans ih
      obtain ⟨m', ran, given⟩ :=
        kfree_spec (m := m) (owned.pages c (Multiset.mem_add.mpr (.inr isRoot)))
      refine ⟨m', ?_, nodes_zero child m.store c ▸ given⟩
      rw [freewalk, skipped]
      exact ran
  | succ level ih =>
      intro m c owned nothing
      have parts : nodes child m.store (level + 1) c =
          {c} + subtrees m level c (List.finRange 512) := by
        rw [nodes_succ, Fin.sum_univ_def]
      rw [parts] at owned ⊢
      obtain ⟨m₁, ran, moved⟩ := freewalkLoop_spec ih (List.nodup_finRange 512)
        owned fun i _ d isChild => nothing.child isChild
      have isPage : layout.IsPage c := owned.pages c (by simp)
      obtain ⟨m', freed, given⟩ := kfree_spec (m := m₁) isPage
      refine ⟨m', ?_, moved.trans given⟩
      rw [freewalk, ran]
      exact freed

/-! ## uvmfree -/

theorem exists_page (key : Nat → Fin 512) :
    ∃ page, page < TABLEPAGES ∧ ∀ l, l < 2 + 1 → PX l (page * PGSIZE) = key l := by
  have low := (key 0).isLt
  have middle := (key 1).isLt
  have high := (key 2).isLt
  refine ⟨(key 2).val * 2 ^ 18 + (key 1).val * 2 ^ 9 + (key 0).val, ?_, fun l inLevels => ?_⟩
  · unfold TABLEPAGES
    omega
  · apply Fin.ext
    rw [PX_val, mul_PGSIZE_div]
    obtain rfl | rfl | rfl : l = 0 ∨ l = 1 ∨ l = 2 := by omega
    all_goals omega

theorem MapsNothing.of_entries (linked : Linked m pagetable)
    (unmapped : ∀ page, entries m pagetable page = none) : MapsNothing m 2 pagetable := by
  refine ⟨linked, fun key => ?_⟩
  obtain ⟨page, inTable, isKey⟩ := exists_page key
  have isNone := unmapped page
  rw [entries, if_pos inTable, lookup] at isNone
  rw [← isNone, validAt, validAt, look, look]
  have sameNode : reach Vm.child m.store key 2 pagetable =
      reach Vm.child m.store (fun level => PX level (page * PGSIZE)) 2 pagetable :=
    reach_of_same (fun l below => (isKey (l + 1) (by omega)).symm) pagetable
  rw [sameNode, isKey 0 (by decide)]

end Xv6.Vm
