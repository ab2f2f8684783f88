import Xv6.Cfs.Shape

/-!
Contract: what the rotations of `kernel/proc.c` do to the tree a shape holds.

Owns: `Shape.Holds`, the reading rules, the recolouring rule and the two rotation rules, each
stated at an arbitrary position of an arbitrary tree: the subtree in the hole is
rotated, every ancestor is kept and no other process is written.
-/

namespace Xv6.Cfs

open Xv6.Kernel
open Xv6.RedBlack

/-- The pointers form the finite tree `tree`: `tree->root` is its top, the top's
`parentP` is null and every child's `parentP` is its parent. -/
structure Shape.Holds (shape : Shape) (tree : RedBlack.Tree ProcId) : Prop where
  root : shape.root = tree.root?
  rep : tree.Rep shape.node none
  distinct : tree.keys.Nodup

/-- No process outside `members` is written. -/
def Shape.SameOff (members : List ProcId) (before after : Shape) : Prop :=
  ∀ p ∉ members, after.node p = before.node p

variable {members : List ProcId}

theorem Shape.SameOff.mono {more : List ProcId} {before after : Shape}
    (off : Shape.SameOff members before after) (subset : members ⊆ more) :
    Shape.SameOff more before after :=
  fun p outside => off p fun member => outside (subset member)

theorem Shape.SameOff.trans {first second third : Shape} (one : Shape.SameOff members first second)
    (two : Shape.SameOff members second third) : Shape.SameOff members first third :=
  fun p outside => (two p outside).trans (one p outside)

namespace Shape

variable (shape : Shape) (p q : ProcId) (ptr : Option ProcId)

@[simp] theorem node_setLeft :
    (shape.setLeft p ptr).node q =
      if q = p then { shape.node p with left := ptr } else shape.node q := by
  simp [setLeft, setNode, Function.update_apply]

@[simp] theorem node_setRight :
    (shape.setRight p ptr).node q =
      if q = p then { shape.node p with right := ptr } else shape.node q := by
  simp [setRight, setNode, Function.update_apply]

@[simp] theorem node_setParent :
    (shape.setParent p ptr).node q =
      if q = p then { shape.node p with parent := ptr } else shape.node q := by
  simp [setParent, setNode, Function.update_apply]

theorem node_setColor (color : Color) :
    (shape.setColor p color).node q =
      if q = p then { shape.node p with color := color } else shape.node q := by
  simp [setColor, setNode, Function.update_apply]

@[simp] theorem node_setParent? (parent : Option ProcId) :
    (shape.setParent? ptr parent).node q =
      if ptr = some q then { shape.node q with parent := parent }
      else shape.node q := by
  cases ptr with
  | none => simp [setParent?]
  | some target =>
      by_cases same : q = target
      · subst same
        simp [setParent?]
      · have different : target ≠ q := fun equal => same equal.symm
        simp [setParent?, same, different]

@[simp] theorem left_setColor (color : Color) :
    ((shape.setColor p color).node q).left = (shape.node q).left := by
  rw [node_setColor]
  split
  · rename_i same
    rw [same]
  · rfl

@[simp] theorem right_setColor (color : Color) :
    ((shape.setColor p color).node q).right = (shape.node q).right := by
  rw [node_setColor]
  split
  · rename_i same
    rw [same]
  · rfl

@[simp] theorem parent_setColor (color : Color) :
    ((shape.setColor p color).node q).parent = (shape.node q).parent := by
  rw [node_setColor]
  split
  · rename_i same
    rw [same]
  · rfl

@[simp] theorem root_setLeft : (shape.setLeft p ptr).root = shape.root := rfl

@[simp] theorem root_setRight : (shape.setRight p ptr).root = shape.root := rfl

@[simp] theorem root_setParent : (shape.setParent p ptr).root = shape.root := rfl

@[simp] theorem root_setParent? (parent : Option ProcId) :
    (shape.setParent? ptr parent).root = shape.root := by
  cases ptr <;> rfl

end Shape

variable {shape shape' : Shape} {path : Path ProcId}
  {a b d left right old new tree : RedBlack.Tree ProcId} {x y : ProcId} {c c' color : Color}

theorem Shape.Holds.exchange (holds : shape.Holds (Path.plug path old))
    (distinct : (Path.plug path new).keys.Nodup)
    (rootAtTop : path = [] → shape'.root = new.root?)
    (rootBelow : path ≠ [] → shape'.root = shape.root)
    (pathRep : Path.Rep shape'.node path new.root?)
    (treeRep : new.Rep shape'.node (Path.parent? path)) :
    shape'.Holds (Path.plug path new) where
  root := by
    cases path with
    | nil => exact rootAtTop rfl
    | cons frame rest =>
        rw [rootBelow (by simp), holds.root]
        exact Path.root?_plug_cons frame rest old new
  rep := (Path.rep_plug shape'.node path new).mpr ⟨pathRep, treeRep⟩
  distinct := distinct

/-- Exchange the tree in the hole for another one with the same keys. -/
theorem Shape.Holds.replace (holds : shape.Holds (Path.plug path old))
    (sameKeys : new.keys = old.keys)
    (rootAtTop : path = [] → shape'.root = new.root?)
    (rootBelow : path ≠ [] → shape'.root = shape.root)
    (pathRep : Path.Rep shape'.node path new.root?)
    (treeRep : new.Rep shape'.node (Path.parent? path)) :
    shape'.Holds (Path.plug path new) := by
  have distinct := Path.nodup_keys_plug.mp holds.distinct
  rw [← sameKeys] at distinct
  exact holds.exchange (Path.nodup_keys_plug.mpr distinct) rootAtTop rootBelow pathRep
    treeRep

theorem Shape.Holds.congr (holds : shape.Holds tree) (sameRoot : shape'.root = shape.root)
    (same : ∀ p ∈ tree.keys, shape'.node p = shape.node p) : shape'.Holds tree where
  root := sameRoot.trans holds.root
  rep := holds.rep.congr same
  distinct := holds.distinct

theorem Shape.Holds.node_eq (holds : shape.Holds (Path.plug path (.node color left x right))) :
    shape.node x = ⟨left.root?, right.root?, Path.parent? path, color⟩ :=
  ((Path.rep_plug _ _ _).mp holds.rep).2.1

theorem Shape.Holds.frame_eq {frame : Frame ProcId} {rest : Path ProcId}
    (holds : shape.Holds (Path.plug (frame :: rest) tree)) :
    shape.node frame.key = frame.links tree.root? (Path.parent? rest) :=
  ((Path.rep_plug _ _ _).mp holds.rep).1.1

/-- **Recolouring** the top of the hole. -/
theorem setColor_holds (holds : shape.Holds (Path.plug path (.node color left x right)))
    (newColor : Color) :
    (shape.setColor x newColor).Holds
      (Path.plug path (.node newColor left x right)) := by
  obtain ⟨pathRep, atX, leftRep, rightRep⟩ := (Path.rep_plug _ _ _).mp holds.rep
  have distinct := Path.nodup_keys_plug.mp holds.distinct
  simp only [RedBlack.Tree.keys_node, List.nodup_append, List.nodup_cons, List.mem_append,
    List.mem_cons] at distinct
  have untouched : ∀ p, p ≠ x → (shape.setColor x newColor).node p = shape.node p := by
    intro p different
    simp [Shape.node_setColor, different]
  refine holds.replace rfl (fun atTop => ?_) (fun _ => rfl) ?_ ⟨?_, ?_, ?_⟩
  · subst atTop
    exact holds.root
  · refine pathRep.congr fun p member => untouched p ?_
    rintro rfl
    grind
  · simp [Shape.node_setColor, atX]
  · refine leftRep.congr fun p member => untouched p ?_
    rintro rfl
    grind
  · refine rightRep.congr fun p member => untouched p ?_
    rintro rfl
    grind

theorem setColor_sameOff (member : x ∈ members) (color : Color) :
    Shape.SameOff members shape (shape.setColor x color) := by
  intro p outside
  have different : p ≠ x := by
    rintro rfl
    exact outside member
  simp [Shape.node_setColor, different]

/-- What distinctness of the keys says about the two pivots of a rotation, the
subtree that changes sides and the rest of the tree. -/
private theorem pivots_distinct {a b d rest : List ProcId}
    (distinct : ((a ++ x :: (b ++ y :: d)) ++ rest).Nodup) :
    x ≠ y ∧ (∀ z ∈ a, z ≠ x ∧ z ≠ y ∧ z ∉ b ∧ z ∉ rest) ∧
      (∀ z ∈ b, z ≠ x ∧ z ≠ y ∧ z ∉ rest) ∧
      (∀ z ∈ d, z ≠ x ∧ z ≠ y ∧ z ∉ b ∧ z ∉ rest) ∧
      (∀ z ∈ rest, z ≠ x ∧ z ≠ y) ∧ b.Nodup ∧ rest.Nodup := by
  simp [List.nodup_append] at distinct
  grind

/-- The part of a rotation that both directions share: the outer subtrees and the
ancestors above the hole are not written, the inner subtree is moved under the
other pivot and the hole is re-aimed. -/
private theorem rotation_frames {aParent bParent bParent' dParent child child' : Option ProcId}
    (distinct :
      ((a.keys ++ x :: (b.keys ++ y :: d.keys)) ++ Path.keys path).Nodup)
    (pathRep : Path.Rep shape.node path child) (aRep : a.Rep shape.node aParent)
    (bRep : b.Rep shape.node bParent) (dRep : d.Rep shape.node dParent)
    (atChild : ∀ z, b.root? = some z →
      shape'.node z = { shape.node z with parent := bParent' })
    (atFrame : ∀ frame rest, path = frame :: rest →
      shape'.node frame.key = frame.links child' (Path.parent? rest))
    (elsewhere : ∀ p, p ≠ x → p ≠ y → b.root? ≠ some p →
      Path.parent? path ≠ some p → shape'.node p = shape.node p) :
    Path.Rep shape'.node path child' ∧ a.Rep shape'.node aParent ∧
      b.Rep shape'.node bParent' ∧ d.Rep shape'.node dParent ∧
      ∀ p, p ∉ (a.keys ++ x :: (b.keys ++ y :: d.keys)) ++ Path.keys path →
        shape'.node p = shape.node p := by
  obtain ⟨_, inA, inB, inD, inPath, bDistinct, pathDistinct⟩ :=
    pivots_distinct distinct
  have notChild : ∀ p, p ∉ b.keys → b.root? ≠ some p :=
    fun p outside top => outside (RedBlack.Tree.root?_mem_keys top)
  have notParent : ∀ p, p ∉ Path.keys path → Path.parent? path ≠ some p :=
    fun p outside isParent => outside (Path.parent?_mem_keys isParent)
  refine ⟨?_, ?_, ?_, ?_, ?_⟩
  · refine pathRep.redirect atFrame (fun p member notTop => ?_) pathDistinct
    obtain ⟨px, py⟩ := inPath p member
    exact elsewhere p px py (fun top =>
      (inB p (RedBlack.Tree.root?_mem_keys top)).2.2 member) notTop
  · refine aRep.congr fun p member => ?_
    obtain ⟨px, py, notB, notPath⟩ := inA p member
    exact elsewhere p px py (notChild p notB) (notParent p notPath)
  · refine bRep.reparent bDistinct atChild fun p member notTop => ?_
    obtain ⟨px, py, notPath⟩ := inB p member
    exact elsewhere p px py notTop (notParent p notPath)
  · refine dRep.congr fun p member => ?_
    obtain ⟨px, py, notB, notPath⟩ := inD p member
    exact elsewhere p px py (notChild p notB) (notParent p notPath)
  · intro p outside
    simp only [List.mem_append, List.mem_cons, not_or] at outside
    obtain ⟨⟨_, px, notB, py, _⟩, notPath⟩ := outside
    exact elsewhere p px py (notChild p notB) (notParent p notPath)

/-- What both rotations write besides the pivots: `y` takes the place of `x`, which takes
over the subtree `b`. -/
@[mk_iff]
structure Rotated (path : Path ProcId) (b : RedBlack.Tree ProcId) (x y : ProcId)
    (shape shape' : Shape) : Prop where
  rootAtTop : path = [] → shape'.root = some y
  rootBelow : path ≠ [] → shape'.root = shape.root
  atChild : ∀ z, b.root? = some z → shape'.node z = { shape.node z with parent := some x }
  atFrame : ∀ frame rest, path = frame :: rest →
    shape'.node frame.key = frame.links (some y) (Path.parent? rest)
  elsewhere : ∀ p, p ≠ x → p ≠ y → b.root? ≠ some p → Path.parent? path ≠ some p →
    shape'.node p = shape.node p

theorem rotateLeft_nodes (holds : shape.Holds (Path.plug path (.node c a x (.node c' b y d)))) :
    ∃ shape', rotateLeft shape x = some shape' ∧
      shape'.node x = ⟨a.root?, b.root?, some y, c⟩ ∧
      shape'.node y = ⟨some x, d.root?, Path.parent? path, c'⟩ ∧
      Rotated path b x y shape shape' := by
  obtain ⟨pathRep, atX, _, atY, _, _⟩ := (Path.rep_plug _ _ _).mp holds.rep
  obtain ⟨xy, _, inB, _, inPath, _, _⟩ :=
    pivots_distinct (Path.nodup_keys_plug.mp holds.distinct)
  have childX : b.root? ≠ some x := fun top =>
    (inB x (RedBlack.Tree.root?_mem_keys top)).1 rfl
  have childY : b.root? ≠ some y := fun top =>
    (inB y (RedBlack.Tree.root?_mem_keys top)).2.1 rfl
  unfold rotateLeft
  simp only [rotated_iff]
  cases path with
  | nil =>
      refine ⟨_, by
        simp [atX, atY, xy, xy.symm, childX]
        rfl, ?_⟩
      simp [atX, atY, xy, xy.symm, childX, childY]
      grind
  | cons frame rest =>
      obtain ⟨frameX, frameY⟩ := inPath frame.key (by simp)
      have childFrame : b.root? ≠ some frame.key := fun top =>
        (inB frame.key (RedBlack.Tree.root?_mem_keys top)).2.2 (by simp)
      have siblingX : frame.sibling.root? ≠ some x := fun top =>
        (inPath x (by simp [RedBlack.Tree.root?_mem_keys top])).1 rfl
      obtain ⟨atFrame, _, _⟩ := pathRep
      -- The link that is re-aimed is the parent's `left` or `right`.
      cases frameSide : frame.side
      all_goals
        simp only [Frame.links, frameSide, RedBlack.Tree.root?_node] at atFrame
        refine ⟨_, by
          simp [atX, atY, xy, xy.symm, childX, frameX, frameY, childFrame, atFrame, siblingX]
          rfl, ?_⟩
        simp [atX, atY, xy, xy.symm, childX, childY, frameX, frameY, frameX.symm,
          frameY.symm, childFrame, atFrame]
        grind [Frame.links]

/-- **Left rotation.** The right child takes the place of `x`, which takes over
its left subtree. -/
theorem rotateLeft_holds (holds : shape.Holds (Path.plug path (.node c a x (.node c' b y d)))) :
    ∃ shape', rotateLeft shape x = some shape' ∧
      shape'.Holds (Path.plug path (.node c' (.node c a x b) y d)) ∧
      Shape.SameOff (Path.plug path (.node c a x (.node c' b y d))).keys shape shape' := by
  obtain ⟨shape', isRotated, atX, atY, rotated⟩ := rotateLeft_nodes holds
  obtain ⟨pathRep, _, aRep, _, bRep, dRep⟩ := (Path.rep_plug _ _ _).mp holds.rep
  obtain ⟨pathRep', aRep', bRep', dRep', sameOff⟩ :=
    rotation_frames (Path.nodup_keys_plug.mp holds.distinct) pathRep aRep bRep dRep
      rotated.atChild rotated.atFrame rotated.elsewhere
  refine ⟨shape', isRotated, ?_, ?_⟩
  · exact holds.replace (by simp) rotated.rootAtTop rotated.rootBelow pathRep'
      ⟨atY, ⟨atX, aRep', bRep'⟩, dRep'⟩
  · intro p outside
    apply sameOff
    simpa [Path.mem_keys_plug, and_assoc] using outside

theorem rotateRight_nodes (holds : shape.Holds (Path.plug path (.node c (.node c' a y b) x d))) :
    ∃ shape', rotateRight shape x = some shape' ∧
      shape'.node x = ⟨b.root?, d.root?, some y, c⟩ ∧
      shape'.node y = ⟨a.root?, some x, Path.parent? path, c'⟩ ∧
      Rotated path b x y shape shape' := by
  obtain ⟨pathRep, atX, ⟨atY, _, _⟩, _⟩ := (Path.rep_plug _ _ _).mp holds.rep
  have distinct := Path.nodup_keys_plug.mp holds.distinct
  rw [RedBlack.Tree.keys_node, RedBlack.Tree.keys_node, List.append_assoc a.keys,
    List.cons_append] at distinct
  obtain ⟨yx, _, inB, _, inPath, _, _⟩ := pivots_distinct distinct
  have xy : x ≠ y := yx.symm
  have childX : b.root? ≠ some x := fun top =>
    (inB x (RedBlack.Tree.root?_mem_keys top)).2.1 rfl
  have childY : b.root? ≠ some y := fun top =>
    (inB y (RedBlack.Tree.root?_mem_keys top)).1 rfl
  unfold rotateRight
  simp only [rotated_iff]
  cases path with
  | nil =>
      refine ⟨_, by
        simp [atX, atY, xy, xy.symm, childX]
        rfl, ?_⟩
      simp [atX, atY, xy, xy.symm, childX, childY]
      grind
  | cons frame rest =>
      obtain ⟨frameY, frameX⟩ := inPath frame.key (by simp)
      have childFrame : b.root? ≠ some frame.key := fun top =>
        (inB frame.key (RedBlack.Tree.root?_mem_keys top)).2.2 (by simp)
      have siblingX : frame.sibling.root? ≠ some x := fun top =>
        (inPath x (by simp [RedBlack.Tree.root?_mem_keys top])).2 rfl
      obtain ⟨atFrame, _, _⟩ := pathRep
      cases frameSide : frame.side
      all_goals
        simp only [Frame.links, frameSide, RedBlack.Tree.root?_node] at atFrame
        refine ⟨_, by
          simp [atX, atY, xy, xy.symm, childX, frameX, frameY, childFrame, atFrame, siblingX]
          rfl, ?_⟩
        simp [atX, atY, xy, xy.symm, childX, childY, frameX, frameY, frameX.symm,
          frameY.symm, childFrame, atFrame]
        grind [Frame.links]

/-- **Right rotation.** The left child takes the place of `x`, which takes over
its right subtree. -/
theorem rotateRight_holds (holds : shape.Holds (Path.plug path (.node c (.node c' a y b) x d))) :
    ∃ shape', rotateRight shape x = some shape' ∧
      shape'.Holds (Path.plug path (.node c' a y (.node c b x d))) ∧
      Shape.SameOff (Path.plug path (.node c (.node c' a y b) x d)).keys shape shape' := by
  obtain ⟨shape', isRotated, atX, atY, rotated⟩ := rotateRight_nodes holds
  obtain ⟨pathRep, _, ⟨_, aRep, bRep⟩, dRep⟩ := (Path.rep_plug _ _ _).mp holds.rep
  have distinct := Path.nodup_keys_plug.mp holds.distinct
  rw [RedBlack.Tree.keys_node, RedBlack.Tree.keys_node, List.append_assoc a.keys,
    List.cons_append] at distinct
  obtain ⟨pathRep', aRep', bRep', dRep', sameOff⟩ :=
    rotation_frames distinct pathRep aRep bRep dRep rotated.atChild rotated.atFrame
      (fun p py px => rotated.elsewhere p px py)
  refine ⟨shape', isRotated, ?_, ?_⟩
  · exact holds.replace (by simp) rotated.rootAtTop rotated.rootBelow pathRep'
      ⟨atY, aRep', ⟨atX, bRep', dRep'⟩⟩
  · intro p outside
    apply sameOff
    simpa [Path.mem_keys_plug, and_assoc] using outside

end Xv6.Cfs
