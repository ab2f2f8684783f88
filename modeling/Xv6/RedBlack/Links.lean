import Xv6.RedBlack.Tree

/-!
Contract: when a pointer structure with parent links holds a coloured tree.

Owns: `Tree.Rep` and `Path.Rep`, their splitting at a hole, and the frame rules
that carry them over a write: a write elsewhere keeps a representation, a write
to the top's parent link moves a subtree, a write to one child link re-aims the
hole.

Does not own: any particular mutation. A client shows what its writes do to the
heap pointwise and the rules here do the rest.
-/

namespace Xv6.RedBlack

universe u

variable {α : Type u}

/-- The fields one node keeps about its place in the tree. -/
structure Links (α : Type u) where
  left : Option α
  right : Option α
  parent : Option α
  color : Color
deriving DecidableEq, Repr

/-- Every node of `tree` holds the links the tree says, and the top's parent
link holds `parent`. -/
def Tree.Rep (heap : α → Links α) : Option α → Tree α → Prop
  | _, .nil => True
  | parent, .node color left key right =>
      heap key = ⟨left.root?, right.root?, parent, color⟩ ∧
        left.Rep heap (some key) ∧ right.Rep heap (some key)

/-- The links of a frame whose hole holds `child`. -/
def Frame.links (frame : Frame α) (child parent : Option α) : Links α :=
  match frame.side with
  | .left => ⟨child, frame.sibling.root?, parent, frame.color⟩
  | .right => ⟨frame.sibling.root?, child, parent, frame.color⟩

@[simp] theorem Frame.links_parent (frame : Frame α) (child parent : Option α) :
    (frame.links child parent).parent = parent := by
  unfold Frame.links
  cases frame.side <;> rfl

@[simp] theorem Frame.links_color (frame : Frame α) (child parent : Option α) :
    (frame.links child parent).color = frame.color := by
  unfold Frame.links
  cases frame.side <;> rfl

/-- Every ancestor of the hole holds its links, the hole holding `child`. -/
def Path.Rep (heap : α → Links α) : Path α → Option α → Prop
  | [], _ => True
  | frame :: rest, child =>
      heap frame.key = frame.links child (Path.parent? rest) ∧
        frame.sibling.Rep heap (some frame.key) ∧
        Path.Rep heap rest (some frame.key)

theorem Frame.rep_fill (heap : α → Links α) (parent : Option α) (frame : Frame α)
    (tree : Tree α) :
    (frame.fill tree).Rep heap parent ↔
      heap frame.key = frame.links tree.root? parent ∧
        frame.sibling.Rep heap (some frame.key) ∧
        tree.Rep heap (some frame.key) := by
  unfold Frame.fill Frame.links
  cases frame.side with
  | left => exact and_congr_right fun _ => and_comm
  | right => exact Iff.rfl

/-- **The hole rule.** A plugged tree is represented exactly when its ancestors
and the tree in the hole are. -/
theorem Path.rep_plug (heap : α → Links α) (path : Path α) (tree : Tree α) :
    (Path.plug path tree).Rep heap none ↔
      Path.Rep heap path tree.root? ∧ tree.Rep heap (Path.parent? path) := by
  induction path generalizing tree with
  | nil => simp [Path.Rep]
  | cons frame rest ih =>
      rw [Path.plug_cons, ih, frame.rep_fill, Frame.root?_fill]
      simp only [Path.Rep, Path.parent?_cons]
      tauto

/-! ## Frame rules -/

variable {heap heap' : α → Links α} {parent child : Option α} {tree : Tree α} {path : Path α}

theorem Tree.Rep.congr (rep : tree.Rep heap parent)
    (same : ∀ key ∈ tree.keys, heap' key = heap key) : tree.Rep heap' parent := by
  induction tree generalizing parent with
  | nil => trivial
  | node color left key right leftRule rightRule =>
      obtain ⟨here, leftRep, rightRep⟩ := rep
      refine ⟨?_, ?_, ?_⟩
      · rw [same key (by simp)]
        exact here
      · exact leftRule leftRep fun other member => same other (by simp [member])
      · exact rightRule rightRep fun other member => same other (by simp [member])

/-- Moving a subtree under another parent writes the top's parent link only. -/
theorem Tree.Rep.reparent {newParent : Option α} (rep : tree.Rep heap parent)
    (distinct : tree.keys.Nodup) (top : ∀ key, tree.root? = some key →
      heap' key = { heap key with parent := newParent })
    (same : ∀ key ∈ tree.keys, tree.root? ≠ some key → heap' key = heap key) :
    tree.Rep heap' newParent := by
  cases tree with
  | nil => trivial
  | node color left key right =>
      obtain ⟨here, leftRep, rightRep⟩ := rep
      simp only [Tree.keys_node, List.nodup_append, List.nodup_cons,
        List.mem_cons] at distinct
      refine ⟨?_, ?_, ?_⟩
      · rw [top key rfl, here]
      · refine leftRep.congr fun other member => same other (by simp [member]) ?_
        intro isTop
        cases isTop
        exact distinct.2.2 key member key (Or.inl rfl) rfl
      · refine rightRep.congr fun other member => same other (by simp [member]) ?_
        intro isTop
        cases isTop
        exact distinct.2.1.1 member

theorem Path.Rep.congr (rep : Path.Rep heap path child)
    (same : ∀ key ∈ Path.keys path, heap' key = heap key) :
    Path.Rep heap' path child := by
  induction path generalizing child with
  | nil => trivial
  | cons frame rest ih =>
      obtain ⟨here, siblingRep, restRep⟩ := rep
      refine ⟨?_, ?_, ?_⟩
      · rw [same frame.key (by simp)]
        exact here
      · exact siblingRep.congr fun key member => same key (by simp [member])
      · exact ih restRep fun key member => same key (by simp [member])

/-- Re-aiming the hole writes one child link of the nearest ancestor only. -/
theorem Path.Rep.redirect {newChild : Option α} (rep : Path.Rep heap path child)
    (here : ∀ frame rest, path = frame :: rest →
      heap' frame.key = frame.links newChild (Path.parent? rest))
    (same : ∀ key ∈ Path.keys path, Path.parent? path ≠ some key →
      heap' key = heap key) (distinct : (Path.keys path).Nodup) : Path.Rep heap' path newChild := by
  cases path with
  | nil => trivial
  | cons frame rest =>
      obtain ⟨_, siblingRep, restRep⟩ := rep
      simp only [Path.keys_cons, List.cons_append, List.nodup_cons,
        List.mem_append, not_or] at distinct
      obtain ⟨⟨notSibling, notRest⟩, _⟩ := distinct
      refine ⟨here frame rest rfl, ?_, ?_⟩
      · refine siblingRep.congr fun key member => same key (by simp [member]) ?_
        intro isParent
        cases isParent
        exact notSibling member
      · refine restRep.congr fun key member => same key (by simp [member]) ?_
        intro isParent
        cases isParent
        exact notRest member

end Xv6.RedBlack
