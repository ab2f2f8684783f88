import Mathlib

/-!
Contract: a table of cells as a finite map.

A cell has a key or is free. A new cell goes to the first free place, or to the end of the
table if there is none; a cell is removed by putting a free one in its place.

Owns: replacing a cell, the first free place, the bindings of a table, and what a new cell
and a removed one do to them when no two cells have the same key.
-/

namespace Xv6.Tables

universe u v

variable {α : Type u} {κ : Type v}

/-- Cell `i` is replaced. It may be the place after the last one. -/
def put (cells : List α) (i : Nat) (cell : α) : List α := cells.take i ++ cell :: cells.drop (i + 1)

section Put

variable {cells : List α} {i : Nat}

theorem getElem?_put (inside : i ≤ cells.length) (cell : α) (j : Nat) :
    (put cells i cell)[j]? = if j = i then some cell else cells[j]? := by
  have isTaken : (cells.take i).length = i := by
    rw [List.length_take]
    omega
  unfold put
  rcases Nat.lt_trichotomy j i with before | rfl | after
  · rw [if_neg (by omega), List.getElem?_append_left (by omega), List.getElem?_take_of_lt before]
  · rw [if_pos rfl, List.getElem?_append_right (by omega), isTaken, Nat.sub_self]
    rfl
  · rw [if_neg (by omega), List.getElem?_append_right (by omega), isTaken,
      show j - i = j - i - 1 + 1 by omega, List.getElem?_cons_succ, List.getElem?_drop]
    exact congrArg (cells[·]?) (by omega)

theorem mem_put {cell other : α} (member : other ∈ put cells i cell) :
    other = cell ∨ other ∈ cells := by
  rcases List.mem_append.mp member with before | after
  · exact .inr (List.mem_of_mem_take before)
  · rcases List.mem_cons.mp after with isNew | later
    · exact .inl isNew
    · exact .inr (List.mem_of_mem_drop later)

end Put

variable (key : α → Option κ)

def firstFree (cells : List α) : Nat := cells.findIdx fun cell => (key cell).isNone

/-- The cell at `i` is bound to the key. -/
def BoundAt (cells : List α) (k : κ) (i : Nat) (cell : α) : Prop :=
  cells[i]? = some cell ∧ key cell = some k

def Binds (cells : List α) (k : κ) (cell : α) : Prop := ∃ i, BoundAt key cells k i cell

/-- No two cells have the same key. -/
def Unique (cells : List α) : Prop :=
  ∀ i j k a b, BoundAt key cells k i a → BoundAt key cells k j b → i = j

variable {key} {cells : List α} {cell free other : α} {k : κ} {i j : Nat}

theorem firstFree_le (key : α → Option κ) (cells : List α) : firstFree key cells ≤ cells.length :=
  List.findIdx_le_length

theorem key_firstFree (isCell : cells[firstFree key cells]? = some cell) : key cell = none := by
  obtain ⟨inside, isThere⟩ := List.getElem?_eq_some_iff.mp isCell
  have isFree := @List.findIdx_getElem _ (fun cell => (key cell).isNone) cells inside
  have sameCell : cells[cells.findIdx fun cell => (key cell).isNone] = cell := isThere
  rw [sameCell] at isFree
  exact Option.isNone_iff_eq_none.mp isFree

theorem key_before_firstFree (before : j < firstFree key cells) (isCell : cells[j]? = some cell) :
    key cell ≠ none := by
  obtain ⟨inside, isThere⟩ := List.getElem?_eq_some_iff.mp isCell
  have isTaken := List.not_of_lt_findIdx before
  rw [isThere] at isTaken
  intro isFree
  rw [isFree] at isTaken
  cases isTaken

theorem Unique.nil : Unique key [] := by
  intro i j k a b bound
  cases bound.1

/-- A cell of a new table is the one that was put there or an old one at another place. -/
theorem boundAt_put (inside : i ≤ cells.length) :
    BoundAt key (put cells i cell) k j other ↔
      (j = i ∧ other = cell ∧ key cell = some k) ∨ (j ≠ i ∧ BoundAt key cells k j other) := by
  unfold BoundAt
  rw [getElem?_put inside]
  by_cases same : j = i
  · rw [if_pos same]
    constructor
    · rintro ⟨isNew, isKey⟩
      cases isNew
      exact .inl ⟨same, rfl, isKey⟩
    · rintro (⟨_, rfl, isKey⟩ | ⟨different, _⟩)
      · exact ⟨rfl, isKey⟩
      · exact absurd same different
  · rw [if_neg same]
    constructor
    · exact fun bound => .inr ⟨same, bound⟩
    · rintro (⟨isPlace, _⟩ | ⟨_, bound⟩)
      · exact absurd isPlace same
      · exact bound

theorem Unique.put (unique : Unique key cells) (inside : i ≤ cells.length)
    (alone : ∀ j k other, key cell = some k → BoundAt key cells k j other → j = i) :
    Unique key (put cells i cell) := by
  intro j j' k a b first second
  rcases (boundAt_put inside).mp first with ⟨atPlace, _, isKey⟩ | ⟨elsewhere, bound⟩
  · rcases (boundAt_put inside).mp second with ⟨atPlace', _⟩ | ⟨elsewhere', bound'⟩
    · rw [atPlace, atPlace']
    · exact absurd (alone j' k b isKey bound') elsewhere'
  · rcases (boundAt_put inside).mp second with ⟨_, _, isKey⟩ | ⟨_, bound'⟩
    · exact absurd (alone j k a isKey bound) elsewhere
    · exact unique j j' k a b bound bound'

/-! ## A new binding -/

theorem Unique.insert (unique : Unique key cells) (isKey : key cell = some k)
    (new : ∀ other, ¬ Binds key cells k other) :
    Unique key (Tables.put cells (firstFree key cells) cell) := by
  refine unique.put (firstFree_le key cells) fun j k' other isKey' bound => ?_
  rw [isKey] at isKey'
  cases isKey'
  exact absurd ⟨j, bound⟩ (new other)

theorem binds_insert (isKey : key cell = some k) {k' : κ} :
    Binds key (Tables.put cells (firstFree key cells) cell) k' other ↔
      (k' = k ∧ other = cell) ∨ Binds key cells k' other := by
  have inside := firstFree_le key cells
  constructor
  · rintro ⟨j, bound⟩
    rcases (boundAt_put inside).mp bound with ⟨_, rfl, isKey'⟩ | ⟨_, old⟩
    · rw [isKey] at isKey'
      exact .inl ⟨(Option.some.inj isKey').symm, rfl⟩
    · exact .inr ⟨j, old⟩
  · rintro (⟨rfl, rfl⟩ | ⟨j, old⟩)
    · exact ⟨_, (boundAt_put inside).mpr (.inl ⟨rfl, rfl, isKey⟩)⟩
    · refine ⟨j, (boundAt_put inside).mpr (.inr ⟨?_, old⟩)⟩
      -- A bound cell is not free.
      rintro rfl
      have isFree := key_firstFree old.1
      rw [old.2] at isFree
      cases isFree

/-! ## A removed binding -/

theorem Unique.remove (unique : Unique key cells) (isFree : key free = none)
    (inside : i ≤ cells.length) : Unique key (Tables.put cells i free) := by
  refine unique.put inside fun j k other isKey => ?_
  rw [isFree] at isKey
  cases isKey

end Xv6.Tables
