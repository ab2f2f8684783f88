import Mathlib

/-!
Contract: counting references to objects from slots.

Owns: the number of slots that refer to an object, and how it changes when one slot is
written.
-/

namespace Xv6.Refs

universe u v

variable {S : Type u} {F : Type v} [Fintype S] [DecidableEq S] [DecidableEq F]

def count (slots : S → Option F) (f : F) : Nat :=
  (Finset.univ.filter fun slot => slots slot = some f).card

def one (value : Option F) (f : F) : Nat := if value = some f then 1 else 0

theorem count_update (slots : S → Option F) (slot : S) (value : Option F) (f : F) :
    count (Function.update slots slot value) f + one (slots slot) f =
      count slots f + one value f := by
  have others : (Finset.univ.erase slot).filter
      (fun x => Function.update slots slot value x = some f) =
      (Finset.univ.erase slot).filter fun x => slots x = some f := by
    apply Finset.filter_congr
    intro x member
    rw [Function.update_of_ne (Finset.ne_of_mem_erase member)]
  have split : ∀ slots : S → Option F,
      count slots f = ((Finset.univ.erase slot).filter fun x => slots x = some f).card +
        one (slots slot) f := by
    intro slots
    rw [count, ← Finset.insert_erase (Finset.mem_univ slot), Finset.filter_insert]
    have absent : slot ∉ (Finset.univ.erase slot).filter fun x => slots x = some f :=
      fun member => Finset.notMem_erase slot _ (Finset.mem_of_mem_filter _ member)
    split <;> rename_i isRef
    · rw [Finset.card_insert_of_notMem absent, one, if_pos isRef, Finset.erase_insert_eq_erase,
        Finset.erase_idem]
    · rw [one, if_neg isRef, Finset.erase_insert_eq_erase, Finset.erase_idem, Nat.add_zero]
  rw [split (Function.update slots slot value), split slots, others, Function.update_self]
  omega

omit [DecidableEq S] in
theorem count_pos {slots : S → Option F} {slot : S} {f : F} (isRef : slots slot = some f) :
    0 < count slots f :=
  Finset.card_pos.mpr ⟨slot, Finset.mem_filter.mpr ⟨Finset.mem_univ slot, isRef⟩⟩

end Xv6.Refs
