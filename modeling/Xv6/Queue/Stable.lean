import Mathlib

/-!
Contract: a stable priority queue as an ordered list.

Owns: `enqueue`, which places an element directly after every element of the
queue with a key at most its own, and what it keeps: order, membership, and the
arrival order among equal keys. The two append rules are what a search tree
needs, whose in-order sequence splits around a key.
-/

namespace Xv6.Queue

universe u v

variable {α : Type u} {κ : Type v} [LinearOrder κ]

/-- Directly after every queued element whose key is at most the key of `x`. -/
def enqueue (key : α → κ) (x : α) : List α → List α
  | [] => [x]
  | y :: queue => if key y ≤ key x then y :: enqueue key x queue else x :: y :: queue

def Ordered (key : α → κ) (queue : List α) : Prop :=
  queue.Pairwise fun first second => key first ≤ key second

variable {key : α → κ} {x y : α} {queue left right : List α}

theorem enqueue_perm (key : α → κ) (x : α) (queue : List α) :
    (enqueue key x queue).Perm (x :: queue) := by
  induction queue with
  | nil => rfl
  | cons y queue ih =>
      unfold enqueue
      split
      · exact (ih.cons y).trans (List.Perm.swap x y queue)
      · rfl

@[simp] theorem mem_enqueue : y ∈ enqueue key x queue ↔ y = x ∨ y ∈ queue := by
  rw [(enqueue_perm key x queue).mem_iff, List.mem_cons]

@[simp] theorem length_enqueue : (enqueue key x queue).length = queue.length + 1 :=
  (enqueue_perm key x queue).length_eq

theorem Ordered.enqueue (ordered : Ordered key queue) :
    Ordered key (enqueue key x queue) := by
  induction queue with
  | nil => exact List.pairwise_singleton _ _
  | cons y queue ih =>
      obtain ⟨first, rest⟩ := List.pairwise_cons.mp ordered
      unfold Queue.enqueue
      split
      · rename_i before
        refine List.pairwise_cons.mpr ⟨fun z member => ?_, ih rest⟩
        rcases mem_enqueue.mp member with isNew | queued
        · rw [isNew]
          exact before
        · exact first z queued
      · rename_i after
        have smaller : key x < key y := not_le.mp after
        refine List.pairwise_cons.mpr ⟨fun z member => ?_, ordered⟩
        rcases List.mem_cons.mp member with isNext | queued
        · rw [isNext]
          exact smaller.le
        · exact smaller.le.trans (first z queued)

theorem Ordered.tail (ordered : Ordered key (x :: queue)) : Ordered key queue :=
  (List.pairwise_cons.mp ordered).2

/-- The first element has the least key. -/
theorem Ordered.head_le (ordered : Ordered key (x :: queue)) :
    ∀ y ∈ x :: queue, key x ≤ key y := by
  intro y member
  rcases List.mem_cons.mp member with same | later
  · rw [same]
  · exact (List.pairwise_cons.mp ordered).1 y later

theorem enqueue_append_right (before : ∀ y ∈ left, key y ≤ key x) :
    enqueue key x (left ++ right) = left ++ enqueue key x right := by
  induction left with
  | nil => rfl
  | cons y left ih =>
      have here : key y ≤ key x := before y (by simp)
      have rest : ∀ z ∈ left, key z ≤ key x := fun z member => before z (by simp [member])
      simp [enqueue, here, ih rest]

theorem enqueue_append_left (smaller : key x < key y) :
    enqueue key x (left ++ y :: right) = enqueue key x left ++ y :: right := by
  induction left with
  | nil => simp [enqueue, not_le.mpr smaller]
  | cons z left ih =>
      simp only [List.cons_append, enqueue]
      split
      · rw [ih, List.cons_append]
      · rfl

theorem head?_enqueue_cons :
    (enqueue key x (y :: queue)).head? = some (if key y ≤ key x then y else x) := by
  unfold enqueue
  split <;> rfl

/-- **Stability.** Among equal keys the new element is last. -/
theorem filter_enqueue (ordered : Ordered key queue) (level : κ) :
    (enqueue key x queue).filter (fun y => key y = level) =
      queue.filter (fun y => key y = level) ++ if key x = level then [x] else [] := by
  induction queue with
  | nil => by_cases same : key x = level <;> simp [enqueue, same]
  | cons y queue ih =>
      obtain ⟨first, rest⟩ := List.pairwise_cons.mp ordered
      have tail := ih rest
      unfold enqueue
      split
      · by_cases same : key y = level <;> simp [same, tail]
      · rename_i after
        by_cases same : key x = level
        · -- Nothing behind `y` has the smaller key of `x`.
          have none : ∀ z ∈ y :: queue, ¬ key z = level := by
            intro z member equal
            have above : key y ≤ key z := by
              rcases List.mem_cons.mp member with isNext | queued
              · rw [isNext]
              · exact first z queued
            exact after (by rw [same, ← equal]; exact above)
          have nothing : (y :: queue).filter (fun z => key z = level) = [] := by
            simpa using none
          rw [List.filter_cons, nothing]
          simp [same]
        · rw [List.filter_cons]
          simp [same]

theorem Ordered.congr {key' : α → κ} (ordered : Ordered key queue)
    (same : ∀ y ∈ queue, key' y = key y) : Ordered key' queue := by
  refine ordered.imp_of_mem fun {first second} firstIn secondIn below => ?_
  rw [same first firstIn, same second secondIn]
  exact below

end Xv6.Queue
