import Mathlib

/-!
Contract: pieces of a store that are handed around, each in one place.

A pool has a list of free pieces; whoever takes one owns it until it is put back.

Owns: the pool, what a piece of code may do that was given some pieces and hands
some back (`Transfer`: no piece is lost or duplicated, and pieces that were neither
free nor given keep their contents), and the rules to compose such steps.
-/

namespace Xv6.Pools

universe u v

variable {A : Type u} {V : Type v}

structure Pool (A : Type u) (V : Type v) where
  free : List A
  store : A → V

/-- From `pool` to `pool'` with the pieces `given`, of which `back` are handed back. -/
structure Transfer (pool pool' : Pool A V) (given back : Multiset A) : Prop where
  conserved : (pool'.free : Multiset A) + back = pool.free + given
  frame : ∀ a, a ∉ pool.free → a ∉ given → pool'.store a = pool.store a

namespace Transfer

variable {pool pool' pool'' : Pool A V} {given back back' rest given' : Multiset A} {a : A}

theorem refl (pool : Pool A V) (given : Multiset A) : Transfer pool pool given given :=
  ⟨rfl, fun _ _ _ => rfl⟩

theorem trans (first : Transfer pool pool' given back)
    (second : Transfer pool' pool'' back back') : Transfer pool pool'' given back' := by
  refine ⟨second.conserved.trans first.conserved, fun a notFree notGiven => ?_⟩
  have absent : a ∉ (pool'.free : Multiset A) + back := by
    rw [first.conserved, Multiset.mem_add]
    exact not_or.mpr ⟨notFree, notGiven⟩
  rw [Multiset.mem_add, not_or] at absent
  rw [second.frame a absent.1 absent.2, first.frame a notFree notGiven]

theorem congr (transfer : Transfer pool pool' given back) (isGiven : given' = given)
    (isBack : back' = back) : Transfer pool pool' given' back' := by
  subst isGiven isBack
  exact transfer

theorem add (transfer : Transfer pool pool' given back) (rest : Multiset A) :
    Transfer pool pool' (given + rest) (back + rest) := by
  refine ⟨?_, fun a notFree notGiven => ?_⟩
  · rw [← add_assoc, transfer.conserved, add_assoc]
  · rw [Multiset.mem_add, not_or] at notGiven
    exact transfer.frame a notFree notGiven.1

/-- What is not free and was not given keeps its contents. -/
theorem untouched (transfer : Transfer pool pool' given back)
    (apart : ((pool.free : Multiset A) + given + rest).Nodup) (isRest : a ∈ rest) :
    pool'.store a = pool.store a := by
  have disjoint := (Multiset.nodup_add.mp apart).2.2
  have absent : a ∉ (pool.free : Multiset A) + given := fun member =>
    Multiset.disjoint_left.mp disjoint member isRest
  rw [Multiset.mem_add, not_or] at absent
  exact transfer.frame a absent.1 absent.2

theorem widen (transfer : Transfer pool pool' given back) (isGiven : given' = given + rest)
    (isBack : back' = back + rest) :
    Transfer pool pool' given' back' := by
  subst isGiven isBack
  exact transfer.add rest

theorem take {remaining : List A} (isFree : pool.free = a :: remaining) :
    Transfer pool { pool with free := remaining } 0 {a} := by
  refine ⟨?_, fun _ _ _ => rfl⟩
  rw [isFree, ← Multiset.cons_coe, ← Multiset.singleton_add, add_zero, add_comm]

theorem put (pool : Pool A V) (a : A) :
    Transfer pool { pool with free := a :: pool.free } {a} 0 := by
  refine ⟨?_, fun _ _ _ => rfl⟩
  rw [← Multiset.cons_coe, ← Multiset.singleton_add, add_zero, add_comm]

theorem write [DecidableEq A] (pool : Pool A V) (owned : a ∈ given) (v : V) :
    Transfer pool { pool with store := Function.update pool.store a v } given given := by
  refine ⟨rfl, fun b _ notGiven => Function.update_of_ne ?_ ..⟩
  intro same
  rw [same] at notGiven
  exact notGiven owned

end Transfer

end Xv6.Pools
