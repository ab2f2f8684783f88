import Mathlib

/-!
Contract: locks of which each is held by at most one party.

Owns: the agreement between the holder that each lock records and the locks that each party
has according to the code it executes, and its rules for a party that acquires or releases a
lock or keeps the locks it has.
-/

namespace Xv6.Locks

open Function

universe u v

variable {L : Type u} {C : Type v} [DecidableEq L] [DecidableEq C]

/-- The recorded holder of a lock is the party that holds it. -/
def Exclusive (holder : L → Option C) (held : C → L → Prop) : Prop :=
  ∀ c l, holder l = some c ↔ held c l

namespace Exclusive

variable {holder : L → Option C} {held : C → L → Prop} {now : L → Prop} {c c' : C} {l : L}

omit [DecidableEq L] [DecidableEq C] in
theorem unique (exclusive : Exclusive holder held) (first : held c l) (second : held c' l) :
    c = c' :=
  Option.some_inj.mp (((exclusive c l).mpr first).symm.trans ((exclusive c' l).mpr second))

omit [DecidableEq L] in
/-- A party goes on with the locks it has. -/
theorem keep (exclusive : Exclusive holder held) (same : ∀ k, now k ↔ held c k) :
    Exclusive holder (update held c now) := by
  rwa [show now = held c from funext fun k => propext (same k), update_eq_self]

theorem acquire (exclusive : Exclusive holder held) (isFree : holder l = none)
    (gained : ∀ k, now k ↔ k = l ∨ held c k) :
    Exclusive (update holder l (some c)) (update held c now) := by
  intro d k
  have notHeld : ¬ held d l := fun isHeld => by
    rw [(exclusive d l).mpr isHeld] at isFree
    cases isFree
  rcases eq_or_ne d c with rfl | notParty
  · rw [update_self, gained]
    rcases eq_or_ne k l with rfl | notLock
    · simp
    · simp [notLock, exclusive d k]
  · rw [update_of_ne notParty]
    rcases eq_or_ne k l with rfl | notLock
    · simp [notHeld, notParty.symm]
    · rw [update_of_ne notLock, exclusive d k]

theorem release (exclusive : Exclusive holder held) (isHeld : held c l)
    (lost : ∀ k, now k ↔ held c k ∧ k ≠ l) :
    Exclusive (update holder l none) (update held c now) := by
  intro d k
  rcases eq_or_ne d c with rfl | notParty
  · rw [update_self, lost]
    rcases eq_or_ne k l with rfl | notLock
    · simp
    · simp [notLock, exclusive d k]
  · rw [update_of_ne notParty]
    rcases eq_or_ne k l with rfl | notLock
    · simp only [update_self, reduceCtorEq, false_iff]
      exact fun other => notParty (exclusive.unique other isHeld)
    · rw [update_of_ne notLock, exclusive d k]

end Exclusive

end Xv6.Locks
