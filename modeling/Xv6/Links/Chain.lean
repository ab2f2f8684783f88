import Mathlib

/-!
Contract: lists that are linked in a map of pointers, and rings of such links.

Owns: what it means that the links lead from one place to another, how such chains compose, and
what a change of one link does to a chain.

Does not own: what the places hold beside their links.
-/

namespace Xv6.Links

universe u

variable {A : Type u} {next next' : A → A} {a b c : A} {l r : List A}

/-- The links lead from `a` through `l` to `b`. -/
def Chain (next : A → A) : A → List A → A → Prop
  | a, [], b => next a = b
  | a, c :: l, b => next a = c ∧ Chain next c l b

theorem chain_append :
    Chain next a (l ++ c :: r) b ↔ Chain next a l c ∧ Chain next c r b := by
  induction l generalizing a with
  | nil => exact Iff.rfl
  | cons d l ih =>
      simp only [List.cons_append, Chain, ih, and_assoc]

/-- Another place with the link of the first one leads the same way. -/
theorem Chain.reroute (chain : Chain next a l b) (first : next' c = next a)
    (same : ∀ x ∈ l, next' x = next x) : Chain next' c l b := by
  induction l generalizing a c with
  | nil => exact first.trans chain
  | cons d l ih =>
      exact ⟨first.trans chain.1, ih chain.2 (same d List.mem_cons_self)
        fun x member => same x (List.mem_cons_of_mem _ member)⟩

theorem Chain.congr (chain : Chain next a l b) (same : ∀ x ∈ a :: l, next' x = next x) :
    Chain next' a l b :=
  chain.reroute (same a List.mem_cons_self) fun x member => same x (List.mem_cons_of_mem _ member)

theorem Chain.next_mem (chain : Chain next a l b) {x : A} (member : x ∈ a :: l) :
    next x ∈ l ++ [b] := by
  induction l generalizing a with
  | nil =>
      obtain rfl := List.mem_singleton.mp member
      exact List.mem_singleton.mpr chain
  | cons c l ih =>
      rcases List.mem_cons.mp member with rfl | later
      · rw [chain.1]
        exact List.mem_append_left _ List.mem_cons_self
      · exact List.mem_cons_of_mem _ (ih chain.2 later)

theorem chain_rotate {before after : List A} (isList : a :: l = before ++ c :: after) :
    Chain next a l a ↔ Chain next c (after ++ before) c := by
  cases before with
  | nil =>
      obtain ⟨rfl, rfl⟩ := List.cons.inj isList
      rw [List.append_nil]
  | cons d before =>
      obtain ⟨rfl, isTail⟩ := List.cons.inj isList
      rw [show l = before ++ c :: after from isTail, chain_append, chain_append, and_comm]

end Xv6.Links
