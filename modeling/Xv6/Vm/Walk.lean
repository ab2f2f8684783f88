import Xv6.Vm.PageTable

/-!
Contract: `walk` in the nodes of a page table.

Owns: the nodes of a table, who owns pages of memory, the valid entry a key leads to,
and the specification of `walk`: the nodes it was given and hands back, the entry it
finds, and that no mapping changes.

Does not own: the table as a map from virtual pages (`Mapping`).
-/

namespace Xv6.Vm

open Xv6.Kernel
open Xv6.Pools
open Xv6.Radix

variable {layout : Layout} {m m' m₁ : Memory} {pagetable a b node : Addr} {va level : Nat}
  {result : Option Addr} {own : Multiset Addr}

abbrev tableNodes (m : Memory) (pagetable : Addr) : Multiset Addr :=
  nodes child m.store 2 pagetable

def IsValid (pte : Pte) : Prop := pte &&& PTE_V ≠ 0

instance : DecidablePred IsValid := fun pte => inferInstanceAs (Decidable (pte &&& PTE_V ≠ 0))

/-- The valid entry of the last level for this key. -/
def validAt (m : Memory) (key : Nat → Fin 512) (level : Nat) (a : Addr) : Option Pte :=
  (look child m.store key level a).filter fun pte => IsValid pte

def lookup (m : Memory) (pagetable : Addr) (va : Nat) : Option Pte :=
  validAt m (fun level => PX level va) 2 pagetable

/-- These pages of memory are all in different places, none of them free. -/
structure Owned (layout : Layout) (m : Memory) (own : Multiset Addr) : Prop where
  nodup : ((m.free : Multiset Addr) + own).Nodup
  pages : ∀ a ∈ (m.free : Multiset Addr) + own, layout.IsPage a

namespace Owned

variable {own own' rest given back : Multiset Addr}

theorem mono (owned : Owned layout m own) (part : own' ≤ own) : Owned layout m own' := by
  have partOfAll : (m.free : Multiset Addr) + own' ≤ m.free + own := by gcongr
  exact ⟨Multiset.nodup_of_le partOfAll owned.nodup,
    fun a member => owned.pages a (Multiset.mem_of_le partOfAll member)⟩

theorem transfer (owned : Owned layout m (given + rest)) (moved : Transfer m m' given back) :
    Owned layout m' (back + rest) := by
  have same : (m'.free : Multiset Addr) + (back + rest) = m.free + (given + rest) :=
    (moved.add rest).conserved
  exact ⟨same ▸ owned.nodup, fun a member => owned.pages a (same ▸ member)⟩

theorem moved (owned : Owned layout m given) (moved : Transfer m m' given back) :
    Owned layout m' back :=
  ⟨moved.conserved ▸ owned.nodup, fun a member => owned.pages a (moved.conserved ▸ member)⟩

theorem not_mem_of_free (owned : Owned layout m own) (isFree : a ∈ m.free) : a ∉ own :=
  fun member => Multiset.disjoint_left.mp (Multiset.nodup_add.mp owned.nodup).2.2 isFree member

theorem untouched (owned : Owned layout m (given + rest)) (moved : Transfer m m' given back)
    (isRest : a ∈ rest) : m'.store a = m.store a := by
  have apart := owned.nodup
  rw [← add_assoc] at apart
  exact moved.untouched apart isRest

end Owned

/-! ## walk -/

theorem descend_false (va level : Nat) (m : Memory) (a : Addr) :
    descend va false level m a = (reach child m.store (fun level => PX level va) level a, m) := by
  induction level generalizing a with
  | zero => rfl
  | succ level ih =>
      dsimp only [descend]
      rw [reach, child]
      split
      · rw [ih]
        rfl
      · rfl

/-- An entry that `freewalk` follows: valid and without permissions. -/
def IsPointer (pte : Pte) : Prop := pte &&& (PTE_R ||| PTE_W ||| PTE_X) = 0

/-- What the loop of `walk` does to the table below a node. -/
structure Walked (va level : Nat) (a : Addr) (m m' : Memory) (result : Option Addr) : Prop where
  transfer : Transfer m m' (nodes child m.store level a) (nodes child m'.store level a)
  grows : nodes child m.store level a ≤ nodes child m'.store level a
  same : ∀ key, validAt m' key level a = validAt m key level a
  found : ∀ b, result = some b → reach child m'.store (fun level => PX level va) level a = some b
  failed : result = none → m'.free = []
  pointers : Pointers child IsPointer m.store level a → Pointers child IsPointer m'.store level a

@[simp] theorem child_zero : child 0 = none := by simp [child]

theorem validAt_succ (m : Memory) (key : Nat → Fin 512) (level : Nat) (a : Addr) :
    validAt m key (level + 1) a =
      (child (m.store a (key (level + 1)))).bind (validAt m key level) := by
  rw [validAt, look_succ]
  cases child (m.store a (key (level + 1))) <;> rfl

theorem validAt_blank (blank : m.store a = fun _ => 0) (key : Nat → Fin 512) (level : Nat) :
    validAt m key level a = none := by
  cases level with
  | zero =>
      simp [validAt, look, reach, blank, IsValid]
  | succ level =>
      simp [validAt_succ, blank, child]

theorem Walked.step {c : Addr} (owned : Owned layout m (nodes child m.store (level + 1) a))
    (isChild : child (m.store a (PX (level + 1) va)) = some c)
    (walked : Walked va level c m m' result) : Walked va (level + 1) a m m' result := by
  have parts := nodes_split child m.store level a (PX (level + 1) va)
  rw [below, isChild, Option.elim_some] at parts
  have kept : ∀ e : Addr, e ∈ a ::ₘ others child m.store level a (PX (level + 1) va) →
      m'.store e = m.store e := by
    intro e member
    rw [parts] at owned
    exact owned.untouched walked.transfer member
  have sameRoot := kept a (Multiset.mem_cons_self ..)
  obtain ⟨sameOthers, sameLooks, keepsPointers⟩ := replace_child child m.store m'.store level a
    (PX (level + 1) va) (fun j _ => by rw [sameRoot])
    fun e member => kept e (Multiset.mem_cons_of_mem member)
  constructor
  · refine walked.transfer.widen parts ?_
    rw [nodes_split child m'.store level a (PX (level + 1) va), below, sameRoot, isChild,
      sameOthers, Option.elim_some]
  · rw [parts, nodes_split child m'.store level a (PX (level + 1) va), below, sameRoot, isChild,
      sameOthers, Option.elim_some]
    gcongr
    exact walked.grows
  · intro key
    by_cases onPath : key (level + 1) = PX (level + 1) va
    · rw [validAt_succ, validAt_succ, onPath, sameRoot, isChild]
      exact walked.same key
    · rw [validAt, validAt, sameLooks key onPath]
  · intro b isResult
    rw [reach, sameRoot, isChild]
    exact walked.found b isResult
  · exact walked.failed
  · intro pointers
    refine keepsPointers IsPointer pointers fun d isChild' => ?_
    rw [sameRoot] at isChild' ⊢
    obtain ⟨isPointer, pointersBelow⟩ := pointers _ d isChild'
    rw [isChild] at isChild'
    cases isChild'
    exact ⟨isPointer, walked.pointers pointersBelow⟩

/-- A new node is linked into a free entry of `a`. -/
def link (m : Memory) (a : Addr) (i : Fin 512) (node : Addr) : Memory :=
  setPte (memset m node 0) a i (PA2PTE node ||| PTE_V)

theorem store_link_root (m : Memory) (i : Fin 512) (different : a ≠ node) :
    (link m a i node).store a = Function.update (m.store a) i (PA2PTE node ||| PTE_V) := by
  simp [link, setPte, memset, different]

theorem store_link_node (m : Memory) (i : Fin 512) (different : a ≠ node) :
    (link m a i node).store node = fun _ => 0 := by
  simp [link, setPte, memset, different.symm]

theorem store_link_of_ne (m : Memory) (i : Fin 512) (notRoot : b ≠ a) (notNode : b ≠ node) :
    (link m a i node).store b = m.store b := by
  simp [link, setPte, memset, notRoot, notNode]

theorem kalloc_eq_some (allocated : kalloc m = some (node, m')) :
    Transfer m m' 0 {node} ∧ node ∈ m.free := by
  unfold kalloc at allocated
  split at allocated
  · cases allocated
  · rename_i r free isFree
    cases allocated
    refine ⟨(Transfer.take isFree).trans ?_, by rw [isFree]; exact List.mem_cons_self⟩
    exact Transfer.write _ (Multiset.mem_singleton_self node) _

theorem kalloc_eq_none (failed : kalloc m = none) : m.free = [] := by
  unfold kalloc at failed
  split at failed
  · assumption
  · cases failed

theorem link_transfer (m : Memory) (i : Fin 512) (node : Addr) (isOwned : a ∈ own) :
    Transfer m (link m a i node) ({node} + own) ({node} + own) := by
  have cleared : Transfer m (memset m node 0) ({node} + own) ({node} + own) :=
    Transfer.write m (Multiset.mem_add.mpr (.inl (Multiset.mem_singleton_self node))) _
  exact cleared.trans (Transfer.write _ (Multiset.mem_add.mpr (.inr isOwned)) _)

theorem linked_transfer (allocated : kalloc m = some (node, m₁)) (isOwned : a ∈ own) (i : Fin 512) :
    Transfer m (link m₁ a i node) own ({node} + own) := by
  have withRest := (kalloc_eq_some allocated).1.add own
  rw [zero_add] at withRest
  exact withRest.trans (link_transfer m₁ i node isOwned)

theorem child_mk (aligned : node.toNat % PGSIZE = 0) :
    child (PA2PTE node ||| PTE_V) = some node := by
  have isValid : (PA2PTE node ||| PTE_V) &&& PTE_V ≠ 0 := by
    intro isZero
    have bit := congrArg (fun pte => pte.getLsbD 0) isZero
    simp [PTE_V] at bit
  rw [child, if_pos isValid, PTE2PA_mk aligned (by decide)]

theorem isPointer_mk (node : Addr) : IsPointer (PA2PTE node ||| PTE_V) := by
  rw [IsPointer]
  have isFlags : ∀ pte : Pte, pte &&& (PTE_R ||| PTE_W ||| PTE_X) =
      PTE_FLAGS pte &&& (PTE_R ||| PTE_W ||| PTE_X) := by
    intro pte
    rw [PTE_FLAGS, BitVec.and_assoc]
    rfl
  rw [isFlags, PTE_FLAGS_mk node (by decide)]
  rfl

theorem Walked.alloc (owned : Owned layout m (nodes child m.store (level + 1) a))
    (noChild : child (m.store a (PX (level + 1) va)) = none)
    (allocated : kalloc m = some (node, m₁))
    (walked : Walked va level node (link m₁ a (PX (level + 1) va) node) m' result) :
    Walked va (level + 1) a m m' result := by
  obtain ⟨taken, isFree⟩ := kalloc_eq_some allocated
  have parts := nodes_split child m.store level a (PX (level + 1) va)
  rw [below, noChild, Option.elim_none, zero_add] at parts
  have isRoot := root_mem_nodes child m.store (level + 1) a
  have notOwned := owned.not_mem_of_free isFree
  have notRoot : a ≠ node := fun same => notOwned (same ▸ isRoot)
  have linked := linked_transfer allocated isRoot (PX (level + 1) va)
  have pages := owned.moved linked
  have blank := store_link_node m₁ (PX (level + 1) va) notRoot
  have newChild := child_mk (pages.pages node (by simp)).1
  have alone : nodes child (link m₁ a (PX (level + 1) va) node).store level node = {node} :=
    nodes_blank fun i => by rw [blank, child_zero]
  have transfer := walked.transfer
  rw [alone] at transfer
  -- Below the other entries nothing has changed.
  have kept : ∀ e ∈ nodes child m.store (level + 1) a,
      m'.store e = (link m₁ a (PX (level + 1) va) node).store e :=
    fun e member => pages.untouched transfer member
  have before : ∀ e ∈ nodes child m.store (level + 1) a, m₁.store e = m.store e := by
    intro e member
    exact taken.frame e (fun free => owned.not_mem_of_free free member) (Multiset.notMem_zero e)
  have atRoot : m'.store a =
      Function.update (m.store a) (PX (level + 1) va) (PA2PTE node ||| PTE_V) := by
    rw [kept a isRoot, store_link_root m₁ _ notRoot, before a isRoot]
  have elsewhere : ∀ e ∈ others child m.store level a (PX (level + 1) va),
      m'.store e = m.store e := by
    intro e member
    have isNode : e ∈ nodes child m.store (level + 1) a := by
      rw [parts]
      exact Multiset.mem_cons_of_mem member
    have different : e ≠ a := by
      intro same
      have tree := (Multiset.nodup_add.mp owned.nodup).2.1
      rw [parts] at tree
      exact (Multiset.nodup_cons.mp tree).1 (same ▸ member)
    have notNew : e ≠ node := fun same => notOwned (same ▸ isNode)
    rw [kept e isNode, store_link_of_ne m₁ _ different notNew, before e isNode]
  obtain ⟨sameOthers, sameLooks, keepsPointers⟩ := replace_child child m.store m'.store level a
    (PX (level + 1) va) (fun j different => by rw [atRoot, Function.update_of_ne different])
    elsewhere
  have isChild : child (m'.store a (PX (level + 1) va)) = some node := by
    rw [atRoot, Function.update_self, newChild]
  have grown : nodes child m'.store (level + 1) a =
      nodes child m'.store level node + nodes child m.store (level + 1) a := by
    rw [nodes_split child m'.store level a (PX (level + 1) va), below, isChild, sameOthers,
      Option.elim_some, parts]
  constructor
  · rw [grown]
    exact linked.trans (transfer.add _)
  · rw [grown]
    exact Multiset.le_add_left ..
  · intro key
    by_cases onPath : key (level + 1) = PX (level + 1) va
    · rw [validAt_succ, validAt_succ, onPath, isChild, noChild, Option.bind_some, Option.bind_none,
        walked.same key]
      exact validAt_blank blank key level
    · rw [validAt, validAt, sameLooks key onPath]
  · intro b isResult
    rw [reach, isChild]
    exact walked.found b isResult
  · exact walked.failed
  · intro pointers
    refine keepsPointers IsPointer pointers fun d isChild' => ?_
    rw [isChild] at isChild'
    cases isChild'
    refine ⟨?_, walked.pointers (pointers_blank fun i => by rw [blank, child_zero])⟩
    rw [atRoot, Function.update_self]
    exact isPointer_mk node

/-- **`walk` with `alloc`** returns the entry for the address, with the nodes on the way
to it added, or the memory is used up; the valid entries are the same. -/
theorem descend_spec (va : Nat) (owned : Owned layout m (nodes child m.store level a)) :
    ∃ result m', descend va true level m a = (result, m') ∧ Walked va level a m m' result := by
  induction level generalizing m a with
  | zero =>
      refine ⟨some a, m, rfl, .refl _ _, le_refl _, fun _ => rfl, fun b isResult => ?_, nofun, id⟩
      cases isResult
      rfl
  | succ level ih =>
      by_cases isValid : m.store a (PX (level + 1) va) &&& PTE_V ≠ 0
      · have isChild : child (m.store a (PX (level + 1) va)) =
            some (PTE2PA (m.store a (PX (level + 1) va))) := if_pos isValid
        obtain ⟨result, m', ran, walked⟩ := ih (owned.mono (child_le isChild))
        refine ⟨result, m', ?_, walked.step owned isChild⟩
        rw [descend, if_pos isValid]
        exact ran
      · have noChild : child (m.store a (PX (level + 1) va)) = none := if_neg isValid
        cases allocated : kalloc m with
        | none =>
            refine ⟨none, m, ?_, .refl _ _, le_refl _, fun _ => rfl, nofun,
              fun _ => kalloc_eq_none allocated, id⟩
            simp only [descend, if_neg isValid, if_true, allocated]
        | some allocation =>
            obtain ⟨node, m₁⟩ := allocation
            obtain ⟨taken, isFree⟩ := kalloc_eq_some allocated
            have isRoot := root_mem_nodes child m.store (level + 1) a
            have notRoot : a ≠ node := fun same => owned.not_mem_of_free isFree (same ▸ isRoot)
            have blank := store_link_node m₁ (PX (level + 1) va) notRoot
            have ownedNode : Owned layout (link m₁ a (PX (level + 1) va) node)
                (nodes child (link m₁ a (PX (level + 1) va) node).store level node) := by
              rw [nodes_blank fun i => by rw [blank, child_zero]]
              exact (owned.moved (linked_transfer allocated isRoot _)).mono
                (Multiset.le_add_right ..)
            obtain ⟨result, m', ran, walked⟩ := ih ownedNode
            refine ⟨result, m', ?_, walked.alloc owned noChild allocated⟩
            simp only [descend, if_neg isValid, if_true, allocated]
            exact ran

end Xv6.Vm
