import Xv6.RedBlack.Tree
import Xv6.Queue.Stable

/-!
Contract: descent of a search tree to the null link where a new key is hung.

Owns: `Tree.place` and its two readings, as a leaf plugged into the hole that the
descent reaches and as `enqueue` on the in-order sequence.
-/

namespace Xv6.RedBlack

universe u v

variable {α : Type u} {κ : Type v} [LinearOrder κ]

namespace Tree

/-- Hang a red leaf where the descent ends. -/
def place (goesRight : α → Bool) (x : α) : Tree α → Tree α
  | nil => node .red nil x nil
  | node color left y right =>
      if goesRight y then node color left y (place goesRight x right)
      else node color (place goesRight x left) y right

variable {goesRight : α → Bool} {x : α} {tree : Tree α}

@[simp] theorem root?_place_node (color : Color) (left right : Tree α) (y : α) :
    ((node color left y right).place goesRight x).root? = some y := by
  unfold place
  split <;> rfl

/-- The descent ends at a hole. -/
theorem exists_place_eq_plug (goesRight : α → Bool) (x : α) (tree : Tree α) :
    ∃ path, tree = Path.plug path nil ∧
      tree.place goesRight x = Path.plug path (node .red nil x nil) := by
  induction tree with
  | nil => exact ⟨[], rfl, rfl⟩
  | node color left y right leftRule rightRule =>
      by_cases turn : goesRight y = true
      · obtain ⟨path, before, after⟩ := rightRule
        refine ⟨path ++ [⟨.right, color, y, left⟩], ?_, ?_⟩
        · rw [Path.plug_append, ← before]
          rfl
        · rw [Path.plug_append, ← after]
          simp [place, turn, Frame.fill]
      · obtain ⟨path, before, after⟩ := leftRule
        refine ⟨path ++ [⟨.left, color, y, right⟩], ?_, ?_⟩
        · rw [Path.plug_append, ← before]
          rfl
        · rw [Path.plug_append, ← after]
          simp [place, turn, Frame.fill]

theorem keys_place_perm (goesRight : α → Bool) (x : α) (tree : Tree α) :
    (tree.place goesRight x).keys.Perm (x :: tree.keys) := by
  obtain ⟨path, before, after⟩ := exists_place_eq_plug goesRight x tree
  rw [after]
  refine (Path.keys_plug_perm path _).trans (List.Perm.cons x ?_)
  rw [before]
  simpa using (Path.keys_plug_perm path nil).symm

theorem exists_place_onLeft (neverRight : ∀ y ∈ tree.keys, goesRight y = false) :
    ∃ path, Path.OnLeft path ∧ Path.parent? path = tree.keys.head? ∧
      tree = Path.plug path nil ∧
      tree.place goesRight x = Path.plug path (node .red nil x nil) := by
  induction tree with
  | nil => exact ⟨[], by simp [Path.OnLeft], rfl, rfl, rfl⟩
  | node color left y right leftRule _ =>
      have turn : goesRight y = false := neverRight y (by simp)
      obtain ⟨path, spine, parent, before, after⟩ :=
        leftRule fun z member => neverRight z (by simp [member])
      refine ⟨path ++ [⟨.left, color, y, right⟩], ?_, ?_, ?_, ?_⟩
      · intro frame member
        rcases List.mem_append.mp member with inPath | isLast
        · exact spine frame inPath
        · rw [List.mem_singleton.mp isLast]
      · cases path with
        | nil => simp [before]
        | cons frame rest =>
            rw [keys_node, List.head?_append, ← parent]
            rfl
      · rw [Path.plug_append, ← before]
        rfl
      · rw [Path.plug_append, ← after]
        simp [place, turn, Frame.fill]

/-- In a search tree the descent is the stable insertion. -/
theorem keys_place {key : α → κ} (ordered : Queue.Ordered key tree.keys) :
    (tree.place (fun y => decide (key y ≤ key x)) x).keys =
      Queue.enqueue key x tree.keys := by
  induction tree with
  | nil => rfl
  | node color left y right leftRule rightRule =>
      rw [keys_node] at ordered
      obtain ⟨leftOrdered, restOrdered, across⟩ := List.pairwise_append.mp ordered
      obtain ⟨_, rightOrdered⟩ := List.pairwise_cons.mp restOrdered
      by_cases turn : key y ≤ key x
      · have before : ∀ z ∈ left.keys ++ [y], key z ≤ key x := by
          intro z member
          rcases List.mem_append.mp member with inLeft | isTop
          · exact (across z inLeft y (by simp)).trans turn
          · rw [List.mem_singleton.mp isTop]
            exact turn
        have split : left.keys ++ y :: right.keys = (left.keys ++ [y]) ++ right.keys := by
          simp
        rw [keys_node, split, Queue.enqueue_append_right before, ← rightRule rightOrdered]
        simp [place, turn]
      · rw [keys_node, Queue.enqueue_append_left (not_le.mp turn),
          ← leftRule leftOrdered]
        simp [place, turn]

end Tree

end Xv6.RedBlack
