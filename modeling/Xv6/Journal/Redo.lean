import Mathlib

/-!
Contract: redo logging over arbitrary addresses and contents.

Owns: replaying a list of writes, agreement of two stores outside a list of
addresses, and `Recoverable`: the log lists the addresses at which the store may
still differ from its intended contents, and holds these contents. Copying one
entry home keeps a recoverable store recoverable and brings it one step closer.
-/

namespace Xv6.Journal

open Function

universe u v

variable {A : Type u} {V : Type v} [DecidableEq A]

def replay (store : A → V) (writes : List (A × V)) : A → V :=
  writes.foldl (fun current write => update current write.1 write.2) store

theorem replay_append (store : A → V) (first second : List (A × V)) :
    replay store (first ++ second) = replay (replay store first) second :=
  List.foldl_append ..

theorem replay_concat (store : A → V) (writes : List (A × V)) (a : A) (v : V) :
    replay store (writes ++ [(a, v)]) = update (replay store writes) a v :=
  replay_append store writes [(a, v)]

/-- On the addresses in question the stores agree, with the listed exceptions. -/
def AgreeOff (home : A → Prop) (except : List A) (left right : A → V) : Prop :=
  ∀ a, home a → a ∉ except → left a = right a

section Agreement

variable {home : A → Prop} {except : List A} {left right : A → V} {a : A} {v : V}

theorem AgreeOff.update_foreign (agree : AgreeOff home except left right)
    (foreign : ¬ home a) : AgreeOff home except (update left a v) right := by
  intro b isHome listed
  have different : b ≠ a := fun same => foreign (same ▸ isHome)
  rw [update_of_ne different]
  exact agree b isHome listed

theorem AgreeOff.settle (agree : AgreeOff home (a :: except) left right) (correct : v = right a) :
    AgreeOff home except (update left a v) right := by
  intro b isHome listed
  by_cases same : b = a
  · rw [same, update_self, correct]
  · rw [update_of_ne same]
    exact agree b isHome (by simp [same, listed])

end Agreement

/-- The log with these entries, the copy of entry `i` in `slot i`, describes every
difference between the store and its intended contents. -/
structure Recoverable (home : A → Prop) (slot : Nat → A) (entries : List A)
    (disk intended : A → V) : Prop where
  homes : ∀ a ∈ entries, home a
  copies : ∀ i a, entries[i]? = some a → disk (slot i) = intended a
  agree : AgreeOff home entries disk intended

section Recovery

variable {home : A → Prop} {slot : Nat → A} {entries : List A} {disk intended : A → V}
  {a : A} {i : Nat}

omit [DecidableEq A] in
theorem Recoverable.of_empty (agree : AgreeOff home [] disk intended) :
    Recoverable home slot [] disk intended :=
  ⟨by simp, by simp, agree⟩

theorem Recoverable.install (recoverable : Recoverable home slot entries disk intended)
    (foreign : ∀ j, j < entries.length → ¬ home (slot j)) (isEntry : entries[i]? = some a) :
    Recoverable home slot entries (update disk a (disk (slot i))) intended := by
  have isHome := recoverable.homes a (List.mem_of_getElem? isEntry)
  refine ⟨recoverable.homes, ?_, ?_⟩
  · intro j b isOther
    obtain ⟨inRange, _⟩ := List.getElem?_eq_some_iff.mp isOther
    have different : slot j ≠ a := fun same => foreign j inRange (same ▸ isHome)
    rw [update_of_ne different]
    exact recoverable.copies j b isOther
  · intro b bHome listed
    have different : b ≠ a := fun same => listed (same ▸ List.mem_of_getElem? isEntry)
    rw [update_of_ne different]
    exact recoverable.agree b bHome listed

/-- After entries `0 .. i` are home, only the later ones may still differ. -/
theorem Recoverable.install_agree (recoverable : Recoverable home slot entries disk intended)
    (agree : AgreeOff home (entries.drop i) disk intended) (isEntry : entries[i]? = some a) :
    AgreeOff home (entries.drop (i + 1)) (update disk a (disk (slot i))) intended := by
  obtain ⟨inRange, atIndex⟩ := List.getElem?_eq_some_iff.mp isEntry
  rw [List.drop_eq_getElem_cons inRange, atIndex] at agree
  exact agree.settle (recoverable.copies i a isEntry)

theorem Recoverable.update_foreign {b : A} {v : V}
    (recoverable : Recoverable home slot entries disk intended) (foreign : ¬ home b)
    (unused : ∀ j, j < entries.length → slot j ≠ b) :
    Recoverable home slot entries (update disk b v) intended := by
  refine ⟨recoverable.homes, ?_, recoverable.agree.update_foreign foreign⟩
  intro j c isEntry
  obtain ⟨inRange, _⟩ := List.getElem?_eq_some_iff.mp isEntry
  rw [update_of_ne (unused j inRange)]
  exact recoverable.copies j c isEntry

end Recovery

end Xv6.Journal
