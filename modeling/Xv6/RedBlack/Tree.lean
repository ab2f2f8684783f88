import Mathlib

/-!
Contract: coloured binary trees, trees with one hole, and the red-black
balance invariant on both.

Owns: the in-order key list, the two readings of balance (`Balanced`, which the
fix-up proofs use, and the path-by-path `ColorRules` it implies), the hole
`Path` with its own balance invariant, and the recolouring and rotation steps
that an insertion or a removal at a hole needs.

Does not own: pointers. A tree here is a value; `Links` says when a pointer
structure holds one.
-/

namespace Xv6.RedBlack

universe u

variable {α : Type u}

inductive Color where
  | red
  | black
deriving DecidableEq, Repr

/-- Black height of a node of colour `color` over subtrees of height `height`. -/
def Color.bump (color : Color) (height : Nat) : Nat :=
  match color with
  | .red => height
  | .black => height + 1

inductive Tree (α : Type u) where
  | nil
  | node (color : Color) (left : Tree α) (key : α) (right : Tree α)
deriving DecidableEq, Repr

namespace Tree

/-- The key at the top, which is what a pointer to the tree holds. -/
def root? : Tree α → Option α
  | nil => none
  | node _ _ key _ => some key

/-- Absent children count as black. -/
def color : Tree α → Color
  | nil => .black
  | node color _ _ _ => color

def keys : Tree α → List α
  | nil => []
  | node _ left key right => left.keys ++ key :: right.keys

def depth [DecidableEq α] (key : α) : Tree α → Option Nat
  | nil => none
  | node _ left top right =>
      if top = key then some 0 else ((left.depth key).or (right.depth key)).map (· + 1)

def paint (newColor : Color) : Tree α → Tree α
  | nil => nil
  | node _ left key right => node newColor left key right

variable {tree left right : Tree α} {key : α} {c : Color} {height : Nat}

@[simp] theorem keys_nil : (nil : Tree α).keys = [] := rfl

@[simp] theorem keys_node (color : Color) (left right : Tree α) (key : α) :
    (node color left key right).keys = left.keys ++ key :: right.keys := rfl

@[simp] theorem root?_nil : (nil : Tree α).root? = none := rfl

@[simp] theorem root?_node (color : Color) (left right : Tree α) (key : α) :
    (node color left key right).root? = some key := rfl

@[simp] theorem color_nil : (nil : Tree α).color = .black := rfl

@[simp] theorem color_node (color : Color) (left right : Tree α) (key : α) :
    (node color left key right).color = color := rfl

theorem depth_eq_none [DecidableEq α] (outside : key ∉ tree.keys) :
    tree.depth key = none := by
  induction tree with
  | nil => rfl
  | node color left top right leftHypothesis rightHypothesis =>
      rw [keys_node, List.mem_append, List.mem_cons, not_or, not_or] at outside
      obtain ⟨notLeft, notTop, notRight⟩ := outside
      rw [depth, if_neg (Ne.symm notTop), leftHypothesis notLeft, rightHypothesis notRight]
      rfl

theorem root?_mem_keys (top : tree.root? = some key) :
    key ∈ tree.keys := by
  cases tree with
  | nil => cases top
  | node color left top' right =>
      cases top
      simp

def leftmost? : Tree α → Option α
  | nil => none
  | node _ nil key _ => some key
  | node _ (node color left key' right) _ _ =>
      (node color left key' right).leftmost?

theorem leftmost?_eq_head? : ∀ tree : Tree α, tree.leftmost? = tree.keys.head?
  | nil => rfl
  | node _ nil _ _ => rfl
  | node _ (node color left key' right) key other => by
      rw [leftmost?, leftmost?_eq_head?, keys_node _ (node color left key' right)]
      simp [List.head?_append]

/-! ## Balance -/

/-- `tree.Balanced c n`: the root has colour `c`, no red node has a red child,
and every path to an absent child meets `n` black nodes. -/
inductive Balanced : Tree α → Color → Nat → Prop where
  | nil : Balanced nil .black 0
  | red {left right : Tree α} {key : α} {height : Nat}
      (leftBalanced : Balanced left .black height)
      (rightBalanced : Balanced right .black height) :
      Balanced (node .red left key right) .red height
  | black {left right : Tree α} {key : α} {leftColor rightColor : Color}
      {height : Nat}
      (leftBalanced : Balanced left leftColor height)
      (rightBalanced : Balanced right rightColor height) :
      Balanced (node .black left key right) .black (height + 1)

theorem Balanced.color_eq (balanced : tree.Balanced c height) : tree.color = c := by
  cases balanced <;> rfl

/-- A balanced tree whose root is known to be black. -/
theorem Balanced.of_color (balanced : tree.Balanced c height) (isBlack : tree.color = .black) :
    tree.Balanced .black height := by
  rw [← isBlack, balanced.color_eq]
  exact balanced

theorem Balanced.node_of_black (color : Color) (leftBalanced : left.Balanced .black height)
    (rightBalanced : right.Balanced .black height) :
    (node color left key right).Balanced color (color.bump height) := by
  cases color with
  | red => exact .red leftBalanced rightBalanced
  | black => exact .black leftBalanced rightBalanced

/-- Number of black nodes met on each path from the root to an absent child. -/
def blackCounts : Tree α → List Nat
  | nil => [0]
  | node color left _ right =>
      (left.blackCounts ++ right.blackCounts).map
        (fun count => count + if color = .black then 1 else 0)

def NoRedRed : Tree α → Prop
  | nil => True
  | node color left _ right =>
      (color = .red → left.color = .black ∧ right.color = .black) ∧
        left.NoRedRed ∧ right.NoRedRed

/-- The colour rules as they are usually listed. -/
structure ColorRules (tree : Tree α) : Prop where
  rootBlack : tree.color = .black
  noRedRed : tree.NoRedRed
  sameBlackCount :
    ∀ first ∈ tree.blackCounts, ∀ second ∈ tree.blackCounts, first = second

theorem Balanced.noRedRed (balanced : tree.Balanced c height) : tree.NoRedRed := by
  induction balanced with
  | nil => trivial
  | red leftBalanced rightBalanced leftRule rightRule =>
      exact ⟨fun _ => ⟨leftBalanced.color_eq, rightBalanced.color_eq⟩,
        leftRule, rightRule⟩
  | black _ _ leftRule rightRule =>
      exact ⟨fun impossible => (by cases impossible), leftRule, rightRule⟩

theorem Balanced.blackCounts_eq (balanced : tree.Balanced c height) :
    ∀ count ∈ tree.blackCounts, count = height := by
  induction balanced with
  | nil => simp [blackCounts]
  | red _ _ leftCounts rightCounts =>
      intro count member
      simp only [blackCounts, List.mem_map, List.mem_append] at member
      obtain ⟨below, fromLeft | fromRight, rfl⟩ := member
      · simpa using leftCounts below fromLeft
      · simpa using rightCounts below fromRight
  | black _ _ leftCounts rightCounts =>
      intro count member
      simp only [blackCounts, List.mem_map, List.mem_append] at member
      obtain ⟨below, fromLeft | fromRight, rfl⟩ := member
      · simpa using leftCounts below fromLeft
      · simpa using rightCounts below fromRight

theorem Balanced.colorRules (balanced : tree.Balanced .black height) : tree.ColorRules where
  rootBlack := balanced.color_eq
  noRedRed := balanced.noRedRed
  sameBlackCount := by
    intro first firstMember second secondMember
    rw [balanced.blackCounts_eq first firstMember,
      balanced.blackCounts_eq second secondMember]

end Tree

/-! ## Trees with a hole -/

inductive Side where
  | left
  | right
deriving DecidableEq, Repr

def Side.other : Side → Side
  | .left => .right
  | .right => .left

/-- One ancestor of the hole: the side the hole lies on, the ancestor itself and
the subtree on its other side. -/
structure Frame (α : Type u) where
  side : Side
  color : Color
  key : α
  sibling : Tree α
deriving DecidableEq, Repr

/-- Ancestors of the hole, nearest first. -/
abbrev Path (α : Type u) := List (Frame α)

def Frame.fill (frame : Frame α) (tree : Tree α) : Tree α :=
  match frame.side with
  | .left => .node frame.color tree frame.key frame.sibling
  | .right => .node frame.color frame.sibling frame.key tree

@[simp] theorem Frame.root?_fill (frame : Frame α) (tree : Tree α) :
    (frame.fill tree).root? = some frame.key := by
  unfold Frame.fill
  cases frame.side <;> rfl

/-- Keys of one frame and its sibling that precede the hole in order. -/
def Frame.before (frame : Frame α) : List α :=
  match frame.side with
  | .left => []
  | .right => frame.sibling.keys ++ [frame.key]

def Frame.after (frame : Frame α) : List α :=
  match frame.side with
  | .left => frame.key :: frame.sibling.keys
  | .right => []

theorem Frame.keys_fill (frame : Frame α) (tree : Tree α) :
    (frame.fill tree).keys = frame.before ++ tree.keys ++ frame.after := by
  unfold Frame.fill Frame.before Frame.after
  cases frame.side <;> simp

namespace Path

variable {path : Path α} {tree : Tree α} {key : α} {holeColor : Color} {height : Nat}

def plug : Path α → Tree α → Tree α
  | [], tree => tree
  | frame :: rest, tree => plug rest (frame.fill tree)

/-- The key of the nearest ancestor, which is what a parent pointer holds. -/
def parent? (path : Path α) : Option α := path.head?.map Frame.key

def before : Path α → List α
  | [] => []
  | frame :: rest => before rest ++ frame.before

def after : Path α → List α
  | [] => []
  | frame :: rest => frame.after ++ after rest

@[simp] theorem plug_nil (tree : Tree α) : plug [] tree = tree := rfl

theorem plug_append (inner outer : Path α) (tree : Tree α) :
    plug (inner ++ outer) tree = plug outer (plug inner tree) := by
  induction inner generalizing tree with
  | nil => rfl
  | cons frame rest ih => exact ih (frame.fill tree)

@[simp] theorem plug_cons (frame : Frame α) (rest : Path α) (tree : Tree α) :
    plug (frame :: rest) tree = plug rest (frame.fill tree) := rfl

@[simp] theorem parent?_nil : parent? ([] : Path α) = none := rfl

@[simp] theorem parent?_cons (frame : Frame α) (rest : Path α) :
    parent? (frame :: rest) = some frame.key := rfl

theorem keys_plug (path : Path α) (tree : Tree α) :
    (plug path tree).keys = before path ++ tree.keys ++ after path := by
  induction path generalizing tree with
  | nil => simp [before, after]
  | cons frame rest ih =>
      rw [plug_cons, ih, frame.keys_fill]
      simp [before, after]

/-- Keys of the ancestors and of their other subtrees, in no particular order. -/
def keys : Path α → List α
  | [] => []
  | frame :: rest => frame.key :: frame.sibling.keys ++ keys rest

@[simp] theorem keys_nil : keys ([] : Path α) = [] := rfl

@[simp] theorem keys_cons (frame : Frame α) (rest : Path α) :
    keys (frame :: rest) = frame.key :: frame.sibling.keys ++ keys rest := rfl

theorem keys_plug_perm (path : Path α) (tree : Tree α) :
    (plug path tree).keys.Perm (tree.keys ++ keys path) := by
  induction path generalizing tree with
  | nil => simp
  | cons frame rest ih =>
      refine (ih (frame.fill tree)).trans ?_
      rw [keys_cons, ← List.append_assoc]
      refine List.Perm.append_right _ ?_
      unfold Frame.fill
      cases frame.side with
      | left => exact .refl _
      | right =>
          refine (List.perm_middle).trans ?_
          refine (List.Perm.cons _ List.perm_append_comm).trans ?_
          exact (List.perm_middle).symm

theorem mem_keys_plug :
    key ∈ (plug path tree).keys ↔ key ∈ tree.keys ∨ key ∈ keys path := by
  rw [(keys_plug_perm path tree).mem_iff, List.mem_append]

theorem nodup_keys_plug :
    (plug path tree).keys.Nodup ↔ (tree.keys ++ keys path).Nodup :=
  (keys_plug_perm path tree).nodup_iff

/-- What the hole holds does not move the top of the tree, as long as there is
an ancestor. -/
theorem root?_plug_cons (frame : Frame α) (rest : Path α) (first second : Tree α) :
    (plug (frame :: rest) first).root? = (plug (frame :: rest) second).root? := by
  induction rest generalizing frame first second with
  | nil => simp
  | cons next rest ih =>
      simp only [plug_cons frame]
      exact ih next (frame.fill first) (frame.fill second)

theorem plug_swap_sibling (side : Side) (color : Color) (key : α)
    (sibling tree : Tree α) (rest : Path α) :
    plug (⟨side, color, key, sibling⟩ :: rest) tree =
      plug (⟨side.other, color, key, tree⟩ :: rest) sibling := by
  cases side <;> rfl

/-- `path.Balanced c n`: a tree of root colour `c` and black height `n` fits the
hole, and the whole is then balanced with a black root. -/
inductive Balanced : Path α → Color → Nat → Prop where
  | nil {height : Nat} : Balanced [] .black height
  | red {side : Side} {key : α} {sibling : Tree α} {rest : Path α} {height : Nat}
      (siblingBalanced : sibling.Balanced .black height)
      (restBalanced : Balanced rest .red height) :
      Balanced (⟨side, .red, key, sibling⟩ :: rest) .black height
  | black {side : Side} {key : α} {sibling : Tree α} {rest : Path α}
      {holeColor siblingColor : Color} {height : Nat}
      (siblingBalanced : sibling.Balanced siblingColor height)
      (restBalanced : Balanced rest .black (height + 1)) :
      Balanced (⟨side, .black, key, sibling⟩ :: rest) holeColor height

/-- A hole that takes some colour takes black. -/
theorem Balanced.hole_black
    (balanced : Balanced path holeColor height) : Balanced path .black height := by
  cases balanced with
  | nil => exact .nil
  | red siblingBalanced restBalanced => exact .red siblingBalanced restBalanced
  | black siblingBalanced restBalanced => exact .black siblingBalanced restBalanced

theorem Balanced.plug (balanced : Balanced path holeColor height)
    (treeBalanced : tree.Balanced holeColor height) :
    ∃ total, (Path.plug path tree).Balanced .black total := by
  induction balanced generalizing tree with
  | nil => exact ⟨_, treeBalanced⟩
  | @red side key sibling rest height siblingBalanced _ ih =>
      apply ih
      cases side with
      | left => exact .red treeBalanced siblingBalanced
      | right => exact .red siblingBalanced treeBalanced
  | @black side key sibling rest holeColor siblingColor height siblingBalanced _
      ih =>
      apply ih
      cases side with
      | left => exact .black treeBalanced siblingBalanced
      | right => exact .black siblingBalanced treeBalanced

theorem Balanced.of_cons {side : Side} {color : Color} {sibling : Tree α} {rest : Path α}
    (balanced : Balanced (⟨side, color, key, sibling⟩ :: rest) holeColor height) :
    ∃ siblingColor, sibling.Balanced siblingColor height ∧
      (color = .red → siblingColor = .black) ∧
      Balanced rest color (color.bump height) := by
  cases balanced with
  | red siblingBalanced restBalanced =>
      exact ⟨_, siblingBalanced, fun _ => rfl, restBalanced⟩
  | black siblingBalanced restBalanced =>
      exact ⟨_, siblingBalanced, fun impossible => (by cases impossible), restBalanced⟩

theorem Balanced.of_plug {total : Nat} (balanced : (Path.plug path tree).Balanced .black total) :
    ∃ color height, tree.Balanced color height ∧ Balanced path color height := by
  induction path generalizing tree with
  | nil => exact ⟨_, _, balanced, .nil⟩
  | cons frame rest ih =>
      obtain ⟨color, height, filled, restBalanced⟩ := ih balanced
      obtain ⟨side, frameColor, key, sibling⟩ := frame
      cases side with
      | left =>
          cases filled with
          | red treeBalanced siblingBalanced =>
              exact ⟨_, _, treeBalanced, .red siblingBalanced restBalanced⟩
          | black treeBalanced siblingBalanced =>
              exact ⟨_, _, treeBalanced, .black siblingBalanced restBalanced⟩
      | right =>
          cases filled with
          | red siblingBalanced treeBalanced =>
              exact ⟨_, _, treeBalanced, .red siblingBalanced restBalanced⟩
          | black siblingBalanced treeBalanced =>
              exact ⟨_, _, treeBalanced, .black siblingBalanced restBalanced⟩

theorem Balanced.of_red_hole (balanced : Balanced path .red height) :
    ∃ side key sibling rest siblingColor,
      path = ⟨side, .black, key, sibling⟩ :: rest ∧
        sibling.Balanced siblingColor height ∧ Balanced rest .black (height + 1) := by
  cases balanced with
  | @black side key sibling rest _ siblingColor _ siblingBalanced restBalanced =>
      exact ⟨side, key, sibling, rest, siblingColor, rfl, siblingBalanced,
        restBalanced⟩

theorem root?_plug_mem (frame : Frame α) (rest : Path α) (tree : Tree α) :
    ∃ key ∈ keys (frame :: rest), (plug (frame :: rest) tree).root? = some key := by
  induction rest generalizing frame tree with
  | nil => exact ⟨frame.key, by simp, by simp⟩
  | cons next rest ih =>
      obtain ⟨key, member, top⟩ := ih next (frame.fill tree)
      refine ⟨key, ?_, top⟩
      rw [keys_cons]
      exact List.mem_append_right _ member

theorem parent?_mem_keys (isParent : parent? path = some key) :
    key ∈ keys path := by
  cases path with
  | nil => cases isParent
  | cons frame rest =>
      cases isParent
      simp

theorem length_le_keys (path : Path α) (tree : Tree α) :
    path.length + tree.keys.length ≤ (plug path tree).keys.length := by
  have size : path.length ≤ (keys path).length := by
    induction path with
    | nil => simp
    | cons frame rest ih =>
        simp only [keys_cons, List.length_cons, List.length_append]
        omega
  have whole := (keys_plug_perm path tree).length_eq
  rw [List.length_append] at whole
  omega

/-- A key of the tree in the hole lies as much deeper as the hole has ancestors. -/
theorem depth_plug [DecidableEq α] {depth : Nat}
    (isDepth : tree.depth key = some depth) (outside : key ∉ keys path) :
    (plug path tree).depth key = some (depth + path.length) := by
  induction path generalizing tree depth with
  | nil => exact isDepth
  | cons frame rest ih =>
      rw [keys_cons, List.cons_append, List.mem_cons, List.mem_append, not_or, not_or] at outside
      obtain ⟨notFrame, notSibling, notAbove⟩ := outside
      have oneMore : (frame.fill tree).depth key = some (depth + 1) := by
        unfold Frame.fill
        cases frame.side with
        | left => simp [Tree.depth, Ne.symm notFrame, isDepth]
        | right => simp [Tree.depth, Ne.symm notFrame, isDepth, Tree.depth_eq_none notSibling]
      rw [plug_cons, ih oneMore notAbove, List.length_cons, Nat.add_assoc,
        Nat.add_comm 1]

def OnLeft (path : Path α) : Prop := ∀ frame ∈ path, frame.side = .left

/-- The least key sits in a hole on the left spine and has no left child. -/
theorem exists_onLeft_of_head? {least : α} (first : tree.keys.head? = some least) :
    ∃ path color right, OnLeft path ∧ tree = plug path (.node color .nil least right) := by
  induction tree with
  | nil => cases first
  | node color left key right leftRule _ =>
      cases left with
      | nil =>
          cases first
          exact ⟨[], color, right, by simp [OnLeft], rfl⟩
      | node leftColor a x b =>
          have below : (Tree.node leftColor a x b).keys.head? = some least := by
            rw [← first]
            cases h : a.keys <;> simp [h]
          obtain ⟨path, leastColor, leastRight, spine, shape⟩ := leftRule below
          refine ⟨path ++ [⟨.left, color, key, right⟩], leastColor, leastRight, ?_, ?_⟩
          · intro frame member
            rcases List.mem_append.mp member with inPath | isLast
            · exact spine frame inPath
            · rw [List.mem_singleton.mp isLast]
          · rw [shape, plug_append]
            rfl

theorem OnLeft.keys_plug (spine : OnLeft path) (tree : Tree α) :
    (plug path tree).keys = tree.keys ++ after path := by
  have nothing : before path = [] := by
    induction path with
    | nil => rfl
    | cons frame rest ih =>
        have onLeft : frame.side = .left := spine frame (by simp)
        have restSpine : OnLeft rest := fun other member => spine other (by simp [member])
        simp [before, Frame.before, onLeft, ih restSpine]
  rw [Path.keys_plug, nothing, List.nil_append]

end Path

end Xv6.RedBlack
