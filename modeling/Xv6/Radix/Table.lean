import Mathlib

/-!
Contract: multi-level tables in a store.

A node is an array of entries; an entry above the last level may point to a node of
the level below. A key gives an index for every level.

Owns: the nodes of a table as a multiset (a table is a tree if no node occurs twice),
the node that a key leads to, that both depend on the contents of these nodes only,
and what changes when a node of the last level is written or a subtree is replaced.
-/

namespace Xv6.Radix

open Function

universe u v w

variable {A : Type u} {I : Type v} {E : Type w} [Fintype I] (next : E → Option A)

/-- The nodes of a table with `level` levels above the last one. -/
def nodes (store : A → I → E) : Nat → A → Multiset A
  | 0, a => {a}
  | level + 1, a => a ::ₘ ∑ i, (next (store a i)).elim 0 (nodes store level)

abbrev below (store : A → I → E) (level : Nat) (entry : E) : Multiset A :=
  (next entry).elim 0 (nodes next store level)

omit [Fintype I] in
/-- The node of the last level a key leads to. -/
def reach (store : A → I → E) (key : Nat → I) : Nat → A → Option A
  | 0, a => some a
  | level + 1, a => (next (store a (key (level + 1)))).bind (reach store key level)

omit [Fintype I] in
def look (store : A → I → E) (key : Nat → I) (level : Nat) (a : A) : Option E :=
  (reach next store key level a).map fun b => store b (key 0)

omit [Fintype I] in
/-- Every entry above the last level that points to a node has this property. -/
def Pointers (P : E → Prop) (store : A → I → E) : Nat → A → Prop
  | 0, _ => True
  | level + 1, a => ∀ i c, next (store a i) = some c → P (store a i) ∧ Pointers P store level c

variable {next} {store store' : A → I → E} {key key' : Nat → I} {level : Nat} {a b c : A} {i j : I}
  {P : E → Prop}

theorem nodes_zero (next : E → Option A) (store : A → I → E) (a : A) :
    nodes next store 0 a = {a} := rfl

theorem nodes_succ (next : E → Option A) (store : A → I → E) (level : Nat) (a : A) :
    nodes next store (level + 1) a = {a} + ∑ i, below next store level (store a i) := rfl

theorem root_mem_nodes (next : E → Option A) (store : A → I → E) (level : Nat) (a : A) :
    a ∈ nodes next store level a := by
  cases level with
  | zero => exact Multiset.mem_singleton_self a
  | succ level => exact Multiset.mem_cons_self ..

theorem mem_nodes_succ : b ∈ nodes next store (level + 1) a ↔
    b = a ∨ ∃ i c, next (store a i) = some c ∧ b ∈ nodes next store level c := by
  rw [nodes, Multiset.mem_cons, Multiset.mem_sum]
  constructor
  · rintro (isRoot | ⟨i, _, member⟩)
    · exact .inl isRoot
    · cases isChild : next (store a i) with
      | none =>
          rw [isChild] at member
          cases member
      | some c =>
          rw [isChild] at member
          exact .inr ⟨i, c, isChild, member⟩
  · rintro (isRoot | ⟨i, c, isChild, member⟩)
    · exact .inl isRoot
    · refine .inr ⟨i, Finset.mem_univ i, ?_⟩
      rw [isChild]
      exact member

theorem reach_mem_nodes (found : reach next store key level a = some b) :
    b ∈ nodes next store level a := by
  induction level generalizing a with
  | zero =>
      cases found
      exact root_mem_nodes ..
  | succ level ih =>
      obtain ⟨c, isChild, foundBelow⟩ := Option.bind_eq_some_iff.mp found
      exact mem_nodes_succ.mpr (.inr ⟨_, c, isChild, ih foundBelow⟩)

omit [Fintype I] in
theorem reach_of_same (same : ∀ l, l < level → key (l + 1) = key' (l + 1)) (a : A) :
    reach next store key level a = reach next store key' level a := by
  induction level generalizing a with
  | zero => rfl
  | succ level ih =>
      rw [reach, reach, same level (Nat.lt_succ_self level)]
      have sameBelow := ih fun l below => same l (Nat.lt_succ_of_lt below)
      rw [show reach next store key level = reach next store key' level from funext sameBelow]

/-! ## Frames -/

/-- The nodes are found in the nodes. -/
theorem nodes_congr (same : ∀ b ∈ nodes next store level a, store' b = store b) :
    nodes next store' level a = nodes next store level a := by
  induction level generalizing a with
  | zero => rfl
  | succ level ih =>
      rw [nodes, nodes, same a (root_mem_nodes ..)]
      congr 1
      apply Finset.sum_congr rfl
      intro i _
      cases isChild : next (store a i) with
      | none => rfl
      | some c =>
          exact ih fun b member =>
            same b (mem_nodes_succ.mpr (.inr ⟨i, c, isChild, member⟩))

theorem reach_congr (same : ∀ b ∈ nodes next store level a, store' b = store b)
    (key : Nat → I) : reach next store' key level a = reach next store key level a := by
  induction level generalizing a with
  | zero => rfl
  | succ level ih =>
      rw [reach, reach, same a (root_mem_nodes ..)]
      cases isChild : next (store a (key (level + 1))) with
      | none => rfl
      | some c =>
          exact ih fun b member =>
            same b (mem_nodes_succ.mpr (.inr ⟨_, c, isChild, member⟩))

theorem look_congr (same : ∀ b ∈ nodes next store level a, store' b = store b)
    (key : Nat → I) : look next store' key level a = look next store key level a := by
  rw [look, look, reach_congr same]
  cases found : reach next store key level a with
  | none => rfl
  | some b => rw [Option.map_some, Option.map_some, same b (reach_mem_nodes found)]

theorem Pointers.congr (pointers : Pointers next P store level a)
    (same : ∀ b ∈ nodes next store level a, store' b = store b) :
    Pointers next P store' level a := by
  induction level generalizing a with
  | zero => trivial
  | succ level ih =>
      intro i c isChild
      rw [same a (root_mem_nodes ..)] at isChild ⊢
      exact ⟨(pointers i c isChild).1, ih (pointers i c isChild).2
        fun b member => same b (mem_nodes_succ.mpr (.inr ⟨i, c, isChild, member⟩))⟩

omit [Fintype I] in
theorem look_succ (key : Nat → I) (level : Nat) (a : A) :
    look next store key (level + 1) a =
      (next (store a (key (level + 1)))).bind (look next store key level) := by
  cases isChild : next (store a (key (level + 1))) with
  | none => rw [look, reach, isChild, Option.bind_none, Option.bind_none, Option.map_none]
  | some c => rw [look, reach, isChild, Option.bind_some, Option.bind_some, look]

theorem nodes_blank (blank : ∀ i, next (store a i) = none) :
    nodes next store level a = {a} := by
  cases level with
  | zero => rfl
  | succ level => simp [nodes, blank]

omit [Fintype I] in
theorem pointers_blank (blank : ∀ i, next (store a i) = none) : Pointers next P store level a := by
  cases level with
  | zero => trivial
  | succ level =>
      intro i c isChild
      rw [blank i] at isChild
      cases isChild

/-! ## Trees -/

def others [DecidableEq I] (next : E → Option A) (store : A → I → E) (level : Nat) (a : A) (i : I) :
    Multiset A :=
  ∑ j ∈ Finset.univ.erase i, below next store level (store a j)

theorem nodes_split [DecidableEq I] (next : E → Option A) (store : A → I → E) (level : Nat)
    (a : A) (i : I) : nodes next store (level + 1) a =
      below next store level (store a i) + a ::ₘ others next store level a i := by
  rw [nodes, others, Multiset.add_cons,
    Finset.add_sum_erase _ (fun j => below next store level (store a j)) (Finset.mem_univ i)]

theorem mem_others [DecidableEq I] (different : j ≠ i) (isChild : next (store a j) = some c)
    (member : b ∈ nodes next store level c) : b ∈ others next store level a i := by
  refine Multiset.mem_sum.mpr ⟨j, Finset.mem_erase.mpr ⟨different, Finset.mem_univ j⟩, ?_⟩
  rw [below, isChild]
  exact member

theorem child_le (isChild : next (store a i) = some c) :
    nodes next store level c ≤ nodes next store (level + 1) a := by
  classical
  rw [nodes_split next store level a i, below, isChild]
  exact Multiset.le_add_right ..

section Tree

variable [DecidableEq I] (tree : (nodes next store (level + 1) a).Nodup)

include tree

theorem child_nodup (isChild : next (store a i) = some c) :
    (nodes next store level c).Nodup ∧ a ∉ nodes next store level c := by
  rw [nodes_split next store level a i, below, isChild] at tree
  obtain ⟨childTree, _, disjoint⟩ := Multiset.nodup_add.mp tree
  exact ⟨childTree, fun member =>
    Multiset.disjoint_left.mp disjoint member (Multiset.mem_cons_self ..)⟩

/-- Subtrees have no nodes in common. -/
theorem children_disjoint (isChild : next (store a i) = some b) (different : j ≠ i)
    (isOther : next (store a j) = some c) {d : A} (member : d ∈ nodes next store level b) :
    d ∉ nodes next store level c := by
  rw [nodes_split next store level a i, below, isChild] at tree
  have disjoint := (Multiset.nodup_add.mp tree).2.2
  intro memberOther
  exact Multiset.disjoint_left.mp disjoint member
    (Multiset.mem_cons_of_mem (mem_others different isOther memberOther))

end Tree

variable [DecidableEq I]

theorem reach_inj (tree : (nodes next store level a).Nodup)
    (found : reach next store key level a = some b)
    (found' : reach next store key' level a = some b) :
    ∀ l, l < level → key (l + 1) = key' (l + 1) := by
  induction level generalizing a with
  | zero => exact fun l below => absurd below (Nat.not_lt_zero l)
  | succ level ih =>
      obtain ⟨c, isChild, foundBelow⟩ := Option.bind_eq_some_iff.mp found
      obtain ⟨c', isChild', foundBelow'⟩ := Option.bind_eq_some_iff.mp found'
      have sameIndex : key (level + 1) = key' (level + 1) := by
        by_contra different
        exact children_disjoint tree isChild (Ne.symm different) isChild'
          (reach_mem_nodes foundBelow) (reach_mem_nodes foundBelow')
      rw [← sameIndex, isChild] at isChild'
      cases isChild'
      intro l belowTop
      rcases Nat.lt_succ_iff_lt_or_eq.mp belowTop with lower | top
      · exact ih (child_nodup tree isChild).1 foundBelow foundBelow' l lower
      · rw [top]
        exact sameIndex

/-! ## Writes -/

variable [DecidableEq A]

theorem write_last (tree : (nodes next store level a).Nodup)
    (found : reach next store key level a = some b) (row : I → E) :
    nodes next (update store b row) level a = nodes next store level a ∧
      (∀ key', reach next (update store b row) key' level a =
        reach next store key' level a) ∧
      ∀ P, Pointers next P store level a →
        Pointers next P (update store b row) level a := by
  induction level generalizing a with
  | zero => exact ⟨rfl, fun _ => rfl, fun _ _ => trivial⟩
  | succ level ih =>
      obtain ⟨c, isChild, foundBelow⟩ := Option.bind_eq_some_iff.mp found
      obtain ⟨childTree, rootApart⟩ := child_nodup tree isChild
      have isBelow := reach_mem_nodes foundBelow
      obtain ⟨sameNodes, sameReach, keepsPointers⟩ := ih childTree foundBelow
      have sameRoot : update store b row a = store a := by
        apply update_of_ne
        intro isRoot
        rw [← isRoot] at isBelow
        exact rootApart isBelow
      have others : ∀ j, j ≠ key (level + 1) → ∀ d, next (store a j) = some d →
          ∀ e ∈ nodes next store level d, update store b row e = store e := by
        intro j different d isOther e member
        apply update_of_ne
        intro same
        rw [same] at member
        exact children_disjoint tree isChild different isOther isBelow member
      refine ⟨?_, ?_, ?_⟩
      · rw [nodes, nodes, sameRoot]
        congr 1
        apply Finset.sum_congr rfl
        intro j _
        cases isOther : next (store a j) with
        | none => rfl
        | some d =>
            by_cases isPath : j = key (level + 1)
            · rw [isPath, isChild] at isOther
              cases isOther
              exact sameNodes
            · exact nodes_congr (others j isPath d isOther)
      · intro key'
        rw [reach, reach, sameRoot]
        cases isOther : next (store a (key' (level + 1))) with
        | none => rfl
        | some d =>
            by_cases isPath : key' (level + 1) = key (level + 1)
            · rw [isPath, isChild] at isOther
              cases isOther
              exact sameReach key'
            · exact reach_congr (others _ isPath d isOther) key'
      · intro P pointers j d isOther
        rw [sameRoot] at isOther ⊢
        refine ⟨(pointers j d isOther).1, ?_⟩
        by_cases isPath : j = key (level + 1)
        · rw [isPath, isChild] at isOther
          cases isOther
          exact keepsPointers P (pointers _ c isChild).2
        · exact (pointers j d isOther).2.congr (others j isPath d isOther)

/-- Writing one entry of the last level changes what the keys with these indices find,
and nothing else. -/
theorem look_write (tree : (nodes next store level a).Nodup)
    (found : reach next store key level a = some b) (entry : E) (key' : Nat → I) :
    look next (update store b (update (store b) (key 0) entry)) key' level a =
      if ∀ l, l < level + 1 → key' l = key l then some entry
      else look next store key' level a := by
  rw [look, look, (write_last tree found _).2.1 key']
  split
  · rename_i sameKey
    have sameNode : reach next store key' level a = some b := by
      rw [← found]
      apply reach_of_same
      intro l below
      exact sameKey (l + 1) (by omega)
    rw [sameNode, Option.map_some, update_self, sameKey 0 (by omega),
      update_self]
  · rename_i differentKey
    cases found' : reach next store key' level a with
    | none => rfl
    | some d =>
        rw [Option.map_some, Option.map_some]
        by_cases sameNode : d = b
        · subst sameNode
          have differentIndex : key' 0 ≠ key 0 := by
            intro sameIndex
            apply differentKey
            intro l below
            cases l with
            | zero => exact sameIndex
            | succ l => exact reach_inj tree found' found l (by omega)
          rw [update_self, update_of_ne differentIndex]
        · rw [update_of_ne sameNode]

omit [DecidableEq A] in
/-- One entry of the root and the nodes below it are replaced. -/
theorem replace_child (next : E → Option A) (store store' : A → I → E) (level : Nat) (a : A) (i : I)
    (sameEntries : ∀ j, j ≠ i → store' a j = store a j)
    (sameOthers : ∀ e ∈ others next store level a i, store' e = store e) :
    others next store' level a i = others next store level a i ∧
      (∀ key, key (level + 1) ≠ i →
        look next store' key (level + 1) a = look next store key (level + 1) a) ∧
      ∀ P, Pointers next P store (level + 1) a →
        (∀ c, next (store' a i) = some c → P (store' a i) ∧ Pointers next P store' level c) →
        Pointers next P store' (level + 1) a := by
  refine ⟨?_, ?_, ?_⟩
  · apply Finset.sum_congr rfl
    intro j member
    have different := Finset.ne_of_mem_erase member
    rw [below, below, sameEntries j different]
    cases isOther : next (store a j) with
    | none => rfl
    | some d => exact nodes_congr fun e member => sameOthers e (mem_others different isOther member)
  · intro key different
    rw [look_succ, look_succ, sameEntries _ different]
    cases isOther : next (store a (key (level + 1))) with
    | none => rfl
    | some d =>
        exact look_congr (fun e member => sameOthers e (mem_others different isOther member)) key
  · intro P pointers replaced j d isOther
    by_cases different : j = i
    · subst different
      exact replaced d isOther
    · rw [sameEntries j different] at isOther ⊢
      exact ⟨(pointers j d isOther).1, (pointers j d isOther).2.congr fun e member =>
        sameOthers e (mem_others different isOther member)⟩

-- Otherwise a unifier evaluates the sums over all indices.
attribute [irreducible] nodes others

end Xv6.Radix
