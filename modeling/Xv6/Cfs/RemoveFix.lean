import Xv6.Cfs.InsertFix

/-!
Contract: `retrievingCases` takes the leftmost process out of the tree and
repairs the black counts above the hole.

Owns: the three outcomes of the loop body of case 2, the loop itself and
`retrievingCases_removes`.

The loop has no branch for a right child. It needs none: the hole lies on the
left spine (`Path.OnLeft`), every rotation of the body keeps it there, and a sibling
is present because the hole lacks one black node.
-/

namespace Xv6.Cfs

open Xv6.Kernel
open Xv6.RedBlack

section Body

variable {shape : Shape} {rest path : Path ProcId} {t a b tree n o : RedBlack.Tree ProcId}
  {pk sk nk : ProcId} {color siblingColor : Color} {height fuel : Nat} {side : Side}
  {parentProc : Option ProcId}

/-! ## The loop body -/

theorem blackOrNull_root? (holds : shape.Holds (Path.plug path tree)) :
    blackOrNull shape tree.root? = true ↔ tree.color = .black := by
  cases tree with
  | nil => simp [blackOrNull]
  | node color left x right => simp [blackOrNull, holds.node_eq]

theorem sibling_node_eq (holds : shape.Holds (Path.plug
      (⟨side, color, pk, .node siblingColor a sk b⟩ :: rest) t)) :
    shape.node sk = ⟨a.root?, b.root?, some pk, siblingColor⟩ := by
  rw [Path.plug_swap_sibling] at holds
  exact holds.node_eq

theorem nephews_black (holds : shape.Holds (Path.plug
      (⟨side, color, pk, .node siblingColor a sk b⟩ :: rest) t)) :
    (blackOrNull shape a.root? = true ↔ a.color = .black) ∧
      (blackOrNull shape b.root? = true ↔ b.color = .black) := by
  rw [Path.plug_swap_sibling] at holds
  have leftHole : shape.Holds (Path.plug (⟨.left, siblingColor, sk, b⟩ ::
    ⟨side.other, color, pk, t⟩ :: rest) a) := holds
  have rightHole : shape.Holds (Path.plug (⟨.right, siblingColor, sk, a⟩ ::
    ⟨side.other, color, pk, t⟩ :: rest) b) := holds
  exact ⟨blackOrNull_root? leftHole, blackOrNull_root? rightHole⟩

theorem setColor_sibling_holds (holds : shape.Holds (Path.plug
      (⟨side, color, pk, .node siblingColor a sk b⟩ :: rest) t)) (newColor : Color) :
    (shape.setColor sk newColor).Holds (Path.plug
      (⟨side, color, pk, .node newColor a sk b⟩ :: rest) t) := by
  rw [Path.plug_swap_sibling] at holds ⊢
  exact setColor_holds holds newColor

/-- A red sibling is rotated above the parent, which turns red. -/
theorem liftRedSibling_holds
    (holds : shape.Holds (Path.plug
      (⟨.left, .black, pk, .node .red a sk b⟩ :: rest) t)) :
    ∃ shape', liftRedSibling shape pk = some shape' ∧
      shape'.Holds (Path.plug
        (⟨.left, .red, pk, a⟩ :: ⟨.left, .black, sk, b⟩ :: rest) t) ∧
      Shape.SameOff (Path.plug
        (⟨.left, .black, pk, .node .red a sk b⟩ :: rest) t).keys shape shape' := by
  have atParent : shape.node pk = ⟨t.root?, some sk, Path.parent? rest, .black⟩ :=
    holds.frame_eq
  have atSibling := sibling_node_eq holds
  have painted : ((shape.setColor sk .black).setColor pk .red).Holds (Path.plug rest
      (.node .red t pk (.node .black a sk b))) :=
    setColor_frame_holds (setColor_sibling_holds holds .black) .red
  obtain ⟨shape', rotated, result, off⟩ := rotateLeft_holds painted
  refine ⟨shape', ?_, result, ?_⟩
  · simp [liftRedSibling, atParent, atSibling, rotated]
  · have sameKeys : (Path.plug rest (.node .red t pk (.node .black a sk b))).keys =
        (Path.plug (⟨.left, .black, pk, .node .red a sk b⟩ :: rest) t).keys := by
      simp [Path.keys_plug, Frame.fill]
    rw [sameKeys] at off
    refine ((setColor_sameOff ?_ .black).trans (setColor_sameOff ?_ .red)).trans off
    all_goals exact Path.mem_keys_plug.mpr (.inr (by simp))

/-- The sibling takes the parent's place and colour; the outer nephew turns black. -/
theorem liftSibling_holds {c : Color} (holds : shape.Holds (Path.plug
      (⟨.left, color, pk, .node .black a sk (.node c n nk o)⟩ :: rest) t)) :
    ∃ shape', liftSibling shape pk = some shape' ∧
      shape'.Holds (Path.plug rest
        (.node color (.node .black t pk a) sk (.node .black n nk o))) ∧
      Shape.SameOff (Path.plug
        (⟨.left, color, pk, .node .black a sk (.node c n nk o)⟩ :: rest) t).keys
        shape shape' := by
  have atParent : shape.node pk =
      ⟨t.root?, some sk, Path.parent? rest, color⟩ := holds.frame_eq
  have atSibling := sibling_node_eq holds
  have parentBlack : ((shape.setColor sk color).setColor pk .black).Holds (Path.plug
      (⟨.left, .black, pk, .node color a sk (.node c n nk o)⟩ :: rest) t) :=
    setColor_frame_holds (setColor_sibling_holds holds color) .black
  have painted : (((shape.setColor sk color).setColor pk .black).setColor nk
      .black).Holds (Path.plug rest
        (.node .black t pk (.node color a sk (.node .black n nk o)))) := by
    have outer : ((shape.setColor sk color).setColor pk .black).Holds (Path.plug
        (⟨.right, color, sk, a⟩ :: ⟨.right, .black, pk, t⟩ :: rest)
        (.node c n nk o)) := parentBlack
    exact setColor_holds outer .black
  obtain ⟨shape', rotated, result, off⟩ := rotateLeft_holds painted
  refine ⟨shape', ?_, result, ?_⟩
  · simp [liftSibling, atParent, atSibling, rotated]
  · have sameKeys : (Path.plug rest
        (.node .black t pk (.node color a sk (.node .black n nk o)))).keys =
        (Path.plug
          (⟨.left, color, pk, .node .black a sk (.node c n nk o)⟩ :: rest) t).keys := by
      simp [Path.keys_plug, Frame.fill]
    rw [sameKeys] at off
    refine (((setColor_sameOff ?_ color).trans (setColor_sameOff ?_ .black)).trans
      (setColor_sameOff ?_ .black)).trans off
    all_goals exact Path.mem_keys_plug.mpr (.inr (by simp))

/-- The red inner nephew is rotated into the outer place. -/
theorem turnInnerNephew_holds (holds : shape.Holds (Path.plug
      (⟨.left, color, pk, .node .black (.node .red n nk o) sk b⟩ :: rest) t))
    (outerBlack : b.color = .black) :
    ∃ shape', turnInnerNephew shape sk = some shape' ∧
      shape'.Holds (Path.plug
        (⟨.left, color, pk, .node .black n nk (.node .red o sk b)⟩ :: rest) t) ∧
      Shape.SameOff (Path.plug
        (⟨.left, color, pk, .node .black (.node .red n nk o) sk b⟩ :: rest) t).keys
        shape shape' := by
  have atSibling := sibling_node_eq holds
  have outerTest := (nephews_black holds).2.mpr outerBlack
  have painted : ((shape.setColor nk .black).setColor sk .red).Holds (Path.plug
      (⟨.right, color, pk, t⟩ :: rest) (.node .red (.node .black n nk o) sk b)) := by
    have inner : shape.Holds (Path.plug (⟨.left, .black, sk, b⟩ ::
        ⟨.right, color, pk, t⟩ :: rest) (.node .red n nk o)) := holds
    exact setColor_frame_holds (setColor_holds inner .black) .red
  obtain ⟨shape', rotated, result, off⟩ := rotateRight_holds painted
  refine ⟨shape', ?_, result, ?_⟩
  · simp [turnInnerNephew, atSibling, outerTest, rotated]
  · have sameKeys : (Path.plug (⟨.right, color, pk, t⟩ :: rest)
        (.node .red (.node .black n nk o) sk b)).keys =
        (Path.plug
          (⟨.left, color, pk, .node .black (.node .red n nk o) sk b⟩ :: rest) t).keys := by
      simp [Path.keys_plug, Frame.fill]
    rw [sameKeys] at off
    refine ((setColor_sameOff ?_ .black).trans (setColor_sameOff ?_ .red)).trans off
    all_goals exact Path.mem_keys_plug.mpr (.inr (by simp))

/-- Two black nephews: the sibling turns red and the hole moves up to the parent. -/
theorem blackSibling_climbs
    (holds : shape.Holds (Path.plug
      (⟨.left, color, pk, .node .black a sk b⟩ :: rest) t))
    (innerBlack : a.color = .black) (outerBlack : b.color = .black) :
    blackSibling shape pk =
        some (shape.setColor sk .red, Path.parent? rest, some pk) ∧
      (shape.setColor sk .red).Holds
        (Path.plug rest (.node color t pk (.node .red a sk b))) ∧
      Shape.SameOff (Path.plug
        (⟨.left, color, pk, .node .black a sk b⟩ :: rest) t).keys
        shape (shape.setColor sk .red) := by
  have atParent : shape.node pk = ⟨t.root?, some sk, Path.parent? rest, color⟩ :=
    holds.frame_eq
  have atSibling := sibling_node_eq holds
  obtain ⟨innerTest, outerTest⟩ := nephews_black holds
  refine ⟨?_, setColor_sibling_holds holds .red, setColor_sameOff ?_ .red⟩
  · simp [blackSibling, atParent, atSibling, innerTest.mpr innerBlack,
      outerTest.mpr outerBlack]
  · exact Path.mem_keys_plug.mpr (.inr (by simp))

/-- A red nephew: one or two rotations give the hole its missing black node. -/
theorem blackSibling_closes {innerColor outerColor : Color}
    (holds : shape.Holds (Path.plug
      (⟨.left, color, pk, .node .black a sk b⟩ :: rest) t))
    (oneRed : ¬ (a.color = .black ∧ b.color = .black))
    (tBalanced : t.Balanced .black height) (aBalanced : a.Balanced innerColor height)
    (bBalanced : b.Balanced outerColor height)
    (restBalanced : Path.Balanced rest color (color.bump (height + 1))) :
    ∃ shape' tree' total,
      blackSibling shape pk = some (shape', some pk, shape'.root) ∧
      shape'.Holds tree' ∧ tree'.Balanced .black total ∧
      tree'.keys = (Path.plug
        (⟨.left, color, pk, .node .black a sk b⟩ :: rest) t).keys ∧
      Shape.SameOff (Path.plug
        (⟨.left, color, pk, .node .black a sk b⟩ :: rest) t).keys shape shape' := by
  have atParent : shape.node pk = ⟨t.root?, some sk, Path.parent? rest, color⟩ :=
    holds.frame_eq
  have atSibling := sibling_node_eq holds
  obtain ⟨innerTest, outerTest⟩ := nephews_black holds
  by_cases outerBlack : b.color = .black
  · -- The inner nephew is the red one: after one rotation it is the sibling.
    cases aBalanced with
    | nil => exact absurd ⟨rfl, outerBlack⟩ oneRed
    | black => exact absurd ⟨rfl, outerBlack⟩ oneRed
    | @red n o nk _ nBalanced oBalanced =>
        obtain ⟨middle, turned, middleHolds, middleOff⟩ :=
          turnInnerNephew_holds holds outerBlack
        obtain ⟨shape', lifted, result, off⟩ := liftSibling_holds middleHolds
        have innerNotBlack : blackOrNull shape (some nk) = false := by
          simpa using innerTest.not.mpr (by simp)
        obtain ⟨total, balanced⟩ := restBalanced.plug
          (RedBlack.Tree.Balanced.node_of_black color (.black tBalanced nBalanced)
            (.black oBalanced bBalanced))
        refine ⟨shape', _, total, ?_, result, balanced, ?_, middleOff.trans ?_⟩
        · simp [blackSibling, atParent, atSibling, innerNotBlack, turned, lifted]
        · simp [Path.keys_plug, Frame.fill]
        · have sameKeys : (Path.plug (⟨.left, color, pk, .node .black n nk
              (.node .red o sk b)⟩ :: rest) t).keys = (Path.plug (⟨.left, color, pk,
                .node .black (.node .red n nk o) sk b⟩ :: rest) t).keys := by
            simp [Path.keys_plug, Frame.fill]
          rw [← sameKeys]
          exact off
  · cases bBalanced with
    | nil => exact absurd rfl outerBlack
    | black => exact absurd rfl outerBlack
    | @red n o nk _ nBalanced oBalanced =>
        obtain ⟨shape', lifted, result, off⟩ := liftSibling_holds holds
        have outerNotBlack : blackOrNull shape (some nk) = false := by
          simpa using outerTest.not.mpr (by simp)
        obtain ⟨total, balanced⟩ := restBalanced.plug
          (RedBlack.Tree.Balanced.node_of_black color (.black tBalanced aBalanced)
            (.black nBalanced oBalanced))
        refine ⟨shape', _, total, ?_, result, balanced, ?_, off⟩
        · simp [blackSibling, atParent, atSibling, turnInnerNephew, outerNotBlack, lifted]
        · simp [Path.keys_plug, Frame.fill]

/-! ## The loop -/

theorem retrievingLoop_done (holds : shape.Holds tree) (balanced : tree.Balanced .black height) :
    Repairs shape tree (retrievingLoop (fuel + 1) shape parentProc shape.root) := by
  cases tree with
  | nil =>
      have evaluated : retrievingLoop (fuel + 1) shape parentProc shape.root =
          some shape := by
        simp [retrievingLoop, holds.root]
      rw [evaluated]
      exact ⟨_, _, height, rfl, holds, rfl, balanced, fun _ _ => rfl⟩
  | node rootColor left x right =>
      have evaluated : retrievingLoop (fuel + 1) shape parentProc shape.root =
          some (shape.setColor x .black) := by
        simp [retrievingLoop, holds.root]
      have isBlack := balanced.color_eq
      simp only [RedBlack.Tree.color_node] at isBlack
      subst isBlack
      have top : shape.Holds (Path.plug [] (.node .black left x right)) := holds
      rw [evaluated]
      exact ⟨_, _, height, rfl, setColor_holds top .black, rfl, balanced,
        setColor_sameOff (by simp) .black⟩

theorem retrievingLoop_red {holeColor : Color} (holds : shape.Holds (Path.plug path tree))
    (isRed : tree.color = .red) (balanced : (tree.paint .black).Balanced .black height)
    (pathBalanced : Path.Balanced path holeColor height) :
    Repairs shape (Path.plug path tree)
      (retrievingLoop (fuel + 1) shape parentProc tree.root?) := by
  cases tree with
  | nil => cases isRed
  | node topColor left x right =>
      simp only [RedBlack.Tree.color_node] at isRed
      subst isRed
      have atX := holds.node_eq
      have evaluated : retrievingLoop (fuel + 1) shape parentProc (some x) =
          some (shape.setColor x .black) := by
        simp [retrievingLoop, blackOrNull, atX]
      obtain ⟨total, whole⟩ := pathBalanced.hole_black.plug balanced
      rw [RedBlack.Tree.root?_node, evaluated]
      refine ⟨_, _, total, rfl, setColor_holds holds .black, ?_, whole,
        setColor_sameOff ?_ .black⟩
      · simp [Path.keys_plug]
      · exact Path.mem_keys_plug.mpr (.inl (by simp))

end Body

/-- The tree in the hole lacks one black node; a red root may have a red child,
since the loop is about to paint it. -/
def LacksOne (tree : RedBlack.Tree ProcId) (height : Nat) : Prop :=
  tree.Balanced .black height ∨
    tree.color = .red ∧ (tree.paint .black).Balanced .black (height + 1)

section Loop

variable {shape : Shape} {rest path : Path ProcId} {t a b sibling : RedBlack.Tree ProcId}
  {pk sk : ProcId} {color holeColor : Color} {height fuel : Nat}

/-- With its sibling red, the subtree below the parent lacks one black node. -/
theorem LacksOne.climb (tBalanced : t.Balanced .black height)
    (aBalanced : a.Balanced .black height) (bBalanced : b.Balanced .black height)
    (restBalanced : Path.Balanced rest color (color.bump (height + 1))) :
    ∃ height', LacksOne (.node color t pk (.node .red a sk b)) height' ∧
      Path.Balanced rest color (height' + 1) := by
  have blackNode : (RedBlack.Tree.node .black t pk (.node .red a sk b)).Balanced .black
      (height + 1) := .black tBalanced (.red aBalanced bBalanced)
  cases color with
  | red => exact ⟨height, .inr ⟨rfl, blackNode⟩, restBalanced⟩
  | black => exact ⟨height + 1, .inl blackNode, restBalanced⟩

/-- Where the loop stands: a hole on the left spine that lacks one black node. -/
structure Hole (shape : Shape) (path : Path ProcId) (tree : RedBlack.Tree ProcId) : Prop where
  spine : Path.OnLeft path
  holds : shape.Holds (Path.plug path tree)
  lacks : ∃ holeColor height, LacksOne tree height ∧ Path.Balanced path holeColor (height + 1)

/-- The end of the loop body, with the new `parentProc` and `process`: a hole below `rest` whose
tree has this colour, or a repaired tree. -/
inductive AfterBody (rest : Path ProcId) (color : Color) (keys : List ProcId) (shape : Shape) :
    Option ProcId → Option ProcId → Prop where
  | climbs {tree : RedBlack.Tree ProcId} (hole : Hole shape rest tree)
      (isColor : tree.color = color)
      (sameKeys : (Path.plug rest tree).keys = keys) :
      AfterBody rest color keys shape (Path.parent? rest) tree.root?
  | closes {tree : RedBlack.Tree ProcId} {total : Nat} {parentProc : Option ProcId}
      (holds : shape.Holds tree) (balanced : tree.Balanced .black total)
      (sameKeys : tree.keys = keys) :
      AfterBody rest color keys shape parentProc shape.root

theorem blackSibling_ends {innerColor outerColor : Color}
    (holds : shape.Holds (Path.plug
      (⟨.left, color, pk, .node .black a sk b⟩ :: rest) t))
    (spine : Path.OnLeft rest)
    (tBalanced : t.Balanced .black height) (aBalanced : a.Balanced innerColor height)
    (bBalanced : b.Balanced outerColor height)
    (restBalanced : Path.Balanced rest color (color.bump (height + 1))) :
    ∃ shape' parentProc process,
      blackSibling shape pk = some (shape', parentProc, process) ∧
      AfterBody rest color (Path.plug
        (⟨.left, color, pk, .node .black a sk b⟩ :: rest) t).keys shape' parentProc process ∧
      Shape.SameOff (Path.plug
        (⟨.left, color, pk, .node .black a sk b⟩ :: rest) t).keys shape shape' := by
  by_cases bothBlack : a.color = .black ∧ b.color = .black
  · obtain ⟨evaluated, climbed, off⟩ :=
      blackSibling_climbs holds bothBlack.1 bothBlack.2
    rw [aBalanced.color_eq, bBalanced.color_eq] at bothBlack
    obtain ⟨innerBlack, outerBlack⟩ := bothBlack
    subst innerBlack outerBlack
    obtain ⟨height', lacks, above⟩ :
        ∃ height', LacksOne (.node color t pk (.node .red a sk b)) height' ∧
          Path.Balanced rest color (height' + 1) :=
      LacksOne.climb tBalanced aBalanced bBalanced restBalanced
    refine ⟨_, _, _, evaluated, .climbs ⟨spine, climbed, color, height', lacks, above⟩ rfl ?_, off⟩
    simp [Path.keys_plug, Frame.fill]
  · obtain ⟨shape', tree', total, evaluated, closed, balanced, sameKeys, off⟩ :=
      blackSibling_closes holds bothBlack tBalanced aBalanced bBalanced restBalanced
    exact ⟨_, _, _, evaluated, .closes closed balanced sameKeys, off⟩

def leftBody (shape : Shape) (parentProc : ProcId) :
    Option (Shape × Option ProcId × Option ProcId) := do
  let shape ← liftRedSibling shape parentProc
  blackSibling shape parentProc

/-- The loop condition holds at a black process below an ancestor, and the body
takes the branch for a left child. -/
theorem retrievingLoop_enters
    (holds : shape.Holds (Path.plug (⟨.left, color, pk, sibling⟩ :: rest) t))
    (isBlack : t.color = .black) :
    retrievingLoop (fuel + 1) shape (some pk) t.root? =
      (do
        let (shape, parentProc, process) ← leftBody shape pk
        retrievingLoop fuel shape parentProc process) := by
  have atParent : shape.node pk =
      ⟨t.root?, sibling.root?, Path.parent? rest, color⟩ := holds.frame_eq
  have notRoot : t.root? ≠ shape.root := by
    obtain ⟨top, member, isTop⟩ :=
      Path.root?_plug_mem ⟨.left, color, pk, sibling⟩ rest t
    rw [holds.root, isTop]
    intro same
    have distinct := Path.nodup_keys_plug.mp holds.distinct
    exact (List.nodup_append.mp distinct).2.2 top (RedBlack.Tree.root?_mem_keys same) top
      member rfl
  have blackTest : blackOrNull shape t.root? = true :=
    (blackOrNull_root? holds).mpr isBlack
  rw [retrievingLoop.eq_def]
  simp [notRoot, blackTest, atParent, leftBody, Option.bind_assoc]

/-- **One iteration** at a black process. The sibling is there; the hole is closed, or moves up one
ancestor, or its tree is red. -/
theorem leftBody_ends (hole : Hole shape (⟨.left, color, pk, sibling⟩ :: rest) t)
    (isBlack : t.color = .black) :
    sibling.root? ≠ none ∧ ∃ rest' color' shape' parentProc process,
      leftBody shape pk = some (shape', parentProc, process) ∧
      AfterBody rest' color' (Path.plug (⟨.left, color, pk, sibling⟩ :: rest) t).keys shape'
        parentProc process ∧
      (color' = .red ∨ rest' = rest) ∧
      Shape.SameOff (Path.plug (⟨.left, color, pk, sibling⟩ :: rest) t).keys shape shape' := by
  obtain ⟨spine, holds, holeColor, height, lacks, pathBalanced⟩ := hole
  have restSpine : Path.OnLeft rest := fun frame member => spine frame (by simp [member])
  have tBalanced : t.Balanced .black height := by
    rcases lacks with black | ⟨isRed, -⟩
    · exact black
    · rw [isBlack] at isRed
      cases isRed
  obtain ⟨siblingColor, siblingBalanced, siblingBlack, restBalanced⟩ :=
    pathBalanced.of_cons
  cases siblingBalanced with
  | @black a b sk innerColor outerColor _ aBalanced bBalanced =>
      have keeps : liftRedSibling shape pk = some shape := by
        have atParent : shape.node pk = ⟨t.root?, some sk, Path.parent? rest, color⟩ :=
          holds.frame_eq
        simp [liftRedSibling, atParent, sibling_node_eq holds]
      obtain ⟨shape', parentProc, process, evaluated, after, off⟩ :=
        blackSibling_ends holds restSpine tBalanced aBalanced bBalanced restBalanced
      refine ⟨(by simp), rest, color, shape', parentProc, process, ?_, after, .inr rfl, off⟩
      rw [leftBody, keeps]
      exact evaluated
  | @red a b sk _ aBalanced bBalanced =>
      -- The parent is black, so the new sibling is the black child `a` of the old.
      have parentBlack : color = .black := by
        cases color with
        | red => cases siblingBlack rfl
        | black => rfl
      subst parentBlack
      obtain ⟨lifted, isLifted, liftedHolds, off⟩ := liftRedSibling_holds holds
      have above : Path.Balanced (⟨.left, .black, sk, b⟩ :: rest) .red (height + 1) :=
        .black bBalanced restBalanced
      have aboveSpine : Path.OnLeft (⟨.left, .black, sk, b⟩ :: rest) :=
        List.forall_mem_cons.mpr ⟨rfl, restSpine⟩
      cases aBalanced with
      | @black inner outer nk innerColor outerColor _ innerBalanced outerBalanced =>
          obtain ⟨shape', parentProc, process, evaluated, after, off'⟩ :=
            blackSibling_ends liftedHolds aboveSpine tBalanced innerBalanced outerBalanced above
          have sameKeys : (Path.plug (⟨.left, .red, pk, .node .black inner nk outer⟩ ::
              ⟨.left, .black, sk, b⟩ :: rest) t).keys = (Path.plug (⟨.left, .black, pk,
                .node .red (.node .black inner nk outer) sk b⟩ :: rest) t).keys := by
            simp [Path.keys_plug, Frame.fill]
          rw [sameKeys] at after off'
          refine ⟨(by simp), _, .red, shape', parentProc, process, ?_, after, .inl rfl,
            off.trans off'⟩
          rw [leftBody, isLifted]
          exact evaluated

theorem retrievingLoop_redHole {parentProc : Option ProcId} (hole : Hole shape path t)
    (isRed : t.color = .red) :
    Repairs shape (Path.plug path t) (retrievingLoop (fuel + 1) shape parentProc t.root?) := by
  obtain ⟨-, holds, holeColor, height, lacks, pathBalanced⟩ := hole
  rcases lacks with black | ⟨-, painted⟩
  · rw [black.color_eq] at isRed
    cases isRed
  · exact retrievingLoop_red holds isRed painted pathBalanced

/-- **The removal loop.** From a hole on the left spine that lacks one black node
the loop ends with a balanced tree. -/
theorem retrievingLoop_repairs (hole : Hole shape path t) (enough : path.length + 1 ≤ fuel) :
    Repairs shape (Path.plug path t)
      (retrievingLoop fuel shape (Path.parent? path) t.root?) := by
  induction path generalizing shape t fuel with
  | nil =>
      obtain ⟨fuel, rfl⟩ : ∃ more, fuel = more + 1 := ⟨fuel - 1, by grind⟩
      cases isColor : t.color with
      | red => exact retrievingLoop_redHole hole isColor
      | black =>
          have top : t.root? = shape.root := hole.holds.root.symm
          obtain ⟨holeColor, height, black | ⟨isRed, -⟩, -⟩ := hole.lacks
          · rw [top]
            exact retrievingLoop_done hole.holds black
          · rw [isColor] at isRed
            cases isRed
  | cons frame rest ih =>
      obtain ⟨side, color, pk, sibling⟩ := frame
      have onLeft : side = .left := hole.spine _ List.mem_cons_self
      subst onLeft
      obtain ⟨fuel, rfl⟩ : ∃ more, fuel = more + 2 := ⟨fuel - 2, by grind⟩
      cases isColor : t.color with
      | red => exact retrievingLoop_redHole hole isColor
      | black =>
          obtain ⟨-, rest', color', shape', parentProc, process, evaluated, after, up, off⟩ :=
            leftBody_ends hole isColor
          rw [Path.parent?_cons, retrievingLoop_enters hole.holds isColor, evaluated]
          cases after with
          | closes holds balanced sameKeys =>
              exact (retrievingLoop_done holds balanced).after sameKeys off
          | climbs hole' isColor' sameKeys =>
              rcases up with rfl | rfl
              · exact (retrievingLoop_redHole hole' isColor').after sameKeys off
              · exact (ih hole' (by grind)).after sameKeys off

end Loop

/-! ## Taking the leftmost process out -/

section Unlink

variable {shape shape' : Shape} {path rest : Path ProcId} {right sibling : RedBlack.Tree ProcId}
  {m pk : ProcId} {color parentColor : Color} {height fuel : Nat}

theorem unlinked_holds
    (holds : shape.Holds (Path.plug path (.node color .nil m right)))
    (rootAtTop : path = [] → shape'.root = right.root?)
    (rootBelow : path ≠ [] → shape'.root = shape.root)
    (atChild : ∀ z, right.root? = some z →
      shape'.node z = { shape.node z with parent := Path.parent? path })
    (atFrame : ∀ frame rest, path = frame :: rest →
      shape'.node frame.key = frame.links right.root? (Path.parent? rest))
    (elsewhere : ∀ p, right.root? ≠ some p → Path.parent? path ≠ some p →
      shape'.node p = shape.node p) :
    shape'.Holds (Path.plug path right) := by
  obtain ⟨pathRep, _, _, rightRep⟩ := (Path.rep_plug _ _ _).mp holds.rep
  have distinct := Path.nodup_keys_plug.mp holds.distinct
  simp only [RedBlack.Tree.keys_node, RedBlack.Tree.keys_nil, List.nil_append, List.cons_append,
    List.nodup_cons] at distinct
  obtain ⟨rightDistinct, pathDistinct, apart⟩ := List.nodup_append.mp distinct.2
  refine holds.exchange (Path.nodup_keys_plug.mpr distinct.2) rootAtTop rootBelow
    (pathRep.redirect atFrame (fun p member notTop => ?_) pathDistinct)
    (rightRep.reparent rightDistinct atChild (fun p member notTop => ?_))
  · exact elsewhere p
      (fun top => apart p (RedBlack.Tree.root?_mem_keys top) p member rfl) notTop
  · exact elsewhere p notTop fun isParent =>
      apart p member p (Path.parent?_mem_keys isParent) rfl

/-- `process == tree->root`: a single right child becomes the root. -/
theorem unlinkProcess_root
    (holds : shape.Holds (RedBlack.Tree.node color .nil m right))
    (balanced : (RedBlack.Tree.node color .nil m right).Balanced .black height) :
    ∃ shape' tree' total, unlinkProcess fuel shape none m = some shape' ∧
      shape'.Holds tree' ∧ tree'.keys = right.keys ∧ tree'.Balanced .black total ∧
      Shape.SameOff (m :: right.keys) shape shape' := by
  have top : shape.Holds (Path.plug [] (RedBlack.Tree.node color .nil m right)) := holds
  have atM := top.node_eq
  have isRoot : some m = shape.root := holds.root.symm
  cases balanced with
  | black leftBalanced rightBalanced =>
      cases leftBalanced
      cases rightBalanced with
      | nil =>
          have evaluated : unlinkProcess fuel shape none m =
              some { shape with root := none } := by
            simp [unlinkProcess, ← isRoot, atM]
          exact ⟨_, .nil, 0, evaluated, ⟨rfl, trivial, by simp⟩, rfl, .nil, fun _ _ => rfl⟩
      | @red a b z _ aBalanced bBalanced =>
          have evaluated : unlinkProcess fuel shape none m = some
              ((({ shape with root := some z } : Shape).setParent z none).setColor z
                .black) := by
            simp [unlinkProcess, ← isRoot, atM]
          have moved : (({ shape with root := some z } : Shape).setParent z none).Holds
              (Path.plug [] (.node .red a z b)) := by
            refine unlinked_holds top (fun _ => rfl) (fun different => absurd rfl different)
              (fun y isTop => ?_) (fun _ _ impossible => by cases impossible)
              (fun p notTop _ => ?_)
            · cases isTop
              simp
            · have different : p ≠ z := fun same => notTop (by rw [same]; rfl)
              simp [different]
          refine ⟨_, _, 1, evaluated, setColor_holds moved .black, rfl,
            .black aBalanced bBalanced, fun p outside => ?_⟩
          have different : p ≠ z := by
            rintro rfl
            exact outside (by simp)
          simp [Shape.node_setColor, different]

/-- The two link writes below an ancestor; a null child has no parent link. -/
theorem relinked_holds (holds : shape.Holds (Path.plug (⟨.left, parentColor, pk, sibling⟩ :: rest)
      (.node color .nil m right))) :
    ((shape.setParent? right.root? (some pk)).setLeft pk right.root?).Holds
        (Path.plug (⟨.left, parentColor, pk, sibling⟩ :: rest) right) ∧
      Shape.SameOff (Path.plug (⟨.left, parentColor, pk, sibling⟩ :: rest) right).keys
        shape ((shape.setParent? right.root? (some pk)).setLeft pk right.root?) := by
  have atParent : shape.node pk =
      ⟨some m, sibling.root?, Path.parent? rest, parentColor⟩ := holds.frame_eq
  have apart : right.root? ≠ some pk := by
    intro isTop
    have distinct := Path.nodup_keys_plug.mp holds.distinct
    exact (List.nodup_append.mp distinct).2.2 pk
      (by simp [RedBlack.Tree.root?_mem_keys isTop]) pk (by simp) rfl
  refine ⟨unlinked_holds holds (fun impossible => by cases impossible) (fun _ => by simp)
    (fun z isTop => ?_) (fun frame rest' isPath => ?_) (fun p notTop notParent => ?_), ?_⟩
  · have different : z ≠ pk := by
      rintro rfl
      exact apart isTop
    simp [different, isTop]
  · cases isPath
    simp [apart, atParent, Frame.links]
  · have different : p ≠ pk := fun same => notParent (by rw [same]; rfl)
    simp [different, notTop]
  · intro p outside
    have notTop : right.root? ≠ some p := fun isTop =>
      outside (Path.mem_keys_plug.mpr (.inl (RedBlack.Tree.root?_mem_keys isTop)))
    have different : p ≠ pk := by
      rintro rfl
      exact outside (Path.mem_keys_plug.mpr (.inr (by simp)))
    simp [different, notTop]

theorem unlink_hole (holds : shape.Holds (Path.plug (⟨.left, parentColor, pk, sibling⟩ :: rest)
      (.node .black .nil m .nil))) (spine : Path.OnLeft rest)
    (pathBalanced : Path.Balanced (⟨.left, parentColor, pk, sibling⟩ :: rest) .black 1) :
    Hole (shape.setLeft pk none) (⟨.left, parentColor, pk, sibling⟩ :: rest) .nil :=
  ⟨List.forall_mem_cons.mpr ⟨rfl, spine⟩, (relinked_holds holds).1, .black, 0, .inl .nil,
    pathBalanced⟩

/-- Below an ancestor: a red process leaves without trace, a red right child
takes the black of its parent, and a black leaf leaves a hole to the loop. -/
theorem unlinkProcess_below
    (holds : shape.Holds (Path.plug (⟨.left, parentColor, pk, sibling⟩ :: rest)
      (.node color .nil m right))) (spine : Path.OnLeft rest)
    (balanced : (RedBlack.Tree.node color .nil m right).Balanced color height) (pathBalanced :
      Path.Balanced (⟨.left, parentColor, pk, sibling⟩ :: rest) color height)
    (enough : rest.length + 2 ≤ fuel) :
    Repairs shape (Path.plug (⟨.left, parentColor, pk, sibling⟩ :: rest) right)
      (unlinkProcess fuel shape (some pk) m) := by
  have atM := holds.node_eq
  have notRoot : some m ≠ shape.root := by
    obtain ⟨top, member, isTop⟩ := Path.root?_plug_mem
      ⟨.left, parentColor, pk, sibling⟩ rest (.node color .nil m right)
    rw [holds.root, isTop]
    rintro ⟨⟩
    have distinct := Path.nodup_keys_plug.mp holds.distinct
    exact (List.nodup_append.mp distinct).2.2 m (by simp) m member rfl
  obtain ⟨linked, off⟩ := relinked_holds holds
  cases balanced with
  | red leftBalanced rightBalanced =>
      cases leftBalanced
      cases rightBalanced
      have evaluated : unlinkProcess fuel shape (some pk) m =
          some (shape.setLeft pk none) := by
        simp [unlinkProcess, notRoot, atM]
      obtain ⟨total, whole⟩ := pathBalanced.hole_black.plug .nil
      rw [evaluated]
      exact ⟨_, _, total, rfl, linked, rfl, whole, off⟩
  | black leftBalanced rightBalanced =>
      cases leftBalanced
      cases rightBalanced with
      | @red a b z _ aBalanced bBalanced =>
          have atZ : shape.node z = ⟨a.root?, b.root?, some m, .red⟩ := by
            have inner : shape.Holds (Path.plug (⟨.right, .black, m, .nil⟩ ::
              ⟨.left, parentColor, pk, sibling⟩ :: rest) (.node .red a z b)) := holds
            exact inner.node_eq
          have evaluated : unlinkProcess fuel shape (some pk) m = some
              (((shape.setParent z (some pk)).setLeft pk (some z)).setColor z .black) := by
            simp [unlinkProcess, notRoot, atM, atZ]
          obtain ⟨total, whole⟩ := pathBalanced.plug (.black aBalanced bBalanced)
          rw [evaluated]
          refine ⟨_, _, total, rfl, setColor_holds linked .black, ?_, whole,
            off.trans (setColor_sameOff ?_ .black)⟩
          · simp [Path.keys_plug, Frame.fill]
          · exact Path.mem_keys_plug.mpr (.inl (by simp))
      | nil =>
          have evaluated : unlinkProcess fuel shape (some pk) m =
              retrievingLoop fuel (shape.setLeft pk none) (some pk) none := by
            simp [unlinkProcess, notRoot, atM]
          rw [evaluated]
          exact (retrievingLoop_repairs (unlink_hole holds spine pathBalanced)
            (by rw [List.length_cons]; omega)).after rfl off

/-- **Removal.** Called on the leftmost process and its parent, `retrievingCases`
leaves a balanced tree over the remaining in-order sequence, clears the links of
the removed process and writes no process outside the tree. -/
theorem retrievingCases_removes {tree : RedBlack.Tree ProcId}
    (holds : shape.Holds tree) (balanced : tree.Balanced .black height)
    (least : tree.keys.head? = some m) (enough : tree.keys.length + 1 ≤ fuel) :
    ∃ shape' tree' total,
      retrievingCases fuel shape (shape.node m).parent (some m) 1 = some shape' ∧
      shape'.Holds tree' ∧ tree'.keys = tree.keys.tail ∧ tree'.Balanced .black total ∧
      Shape.SameOff tree.keys shape shape' ∧
      (shape'.node m).left = none ∧ (shape'.node m).right = none := by
  obtain ⟨path, color, right, spine, isTree⟩ := Path.exists_onLeft_of_head? least
  subst isTree
  obtain ⟨nodeColor, below, nodeBalanced, pathBalanced⟩ :=
    Path.Balanced.of_plug balanced
  have sameColor : color = nodeColor := nodeBalanced.color_eq
  subst sameColor
  have parent : (shape.node m).parent = Path.parent? path := by rw [holds.node_eq]
  have keys : (Path.plug path (.node color .nil m right)).keys =
      m :: (Path.plug path right).keys := by
    rw [spine.keys_plug, spine.keys_plug]
    simp
  obtain ⟨unlinked, tree', total, evaluated, result, resultKeys, resultBalanced, off⟩ :
      ∃ unlinked tree' total,
        unlinkProcess fuel shape (Path.parent? path) m = some unlinked ∧
        unlinked.Holds tree' ∧ tree'.keys = (Path.plug path right).keys ∧
        tree'.Balanced .black total ∧
        Shape.SameOff (m :: (Path.plug path right).keys) shape unlinked := by
    cases path with
    | nil => exact unlinkProcess_root holds balanced
    | cons frame rest =>
        obtain ⟨side, parentColor, pk, sibling⟩ := frame
        have onLeft : side = .left := spine _ List.mem_cons_self
        subst onLeft
        have deep := Path.length_le_keys
          (⟨.left, parentColor, pk, sibling⟩ :: rest) (.node color .nil m right)
        simp only [List.length_cons, RedBlack.Tree.keys_node, List.length_append] at deep
        have deepEnough : rest.length + 2 ≤ fuel := by omega
        obtain ⟨unlinked, tree', total, evaluated, result, resultKeys, resultBalanced,
          off⟩ := unlinkProcess_below holds
            (fun other member => spine other (List.mem_cons_of_mem _ member))
            nodeBalanced pathBalanced deepEnough
        exact ⟨unlinked, tree', total, evaluated, result, resultKeys, resultBalanced,
          off.mono (List.subset_cons_self _ _)⟩
  have distinct := holds.distinct
  rw [keys] at distinct
  refine ⟨((unlinked.setParent m none).setLeft m none).setRight m none, tree', total,
    ?_, ?_, ?_, resultBalanced, ?_, by simp, by simp⟩
  · simp [retrievingCases, parent, evaluated]
  · refine result.congr rfl fun p member => ?_
    have different : p ≠ m := by
      rintro rfl
      rw [resultKeys] at member
      exact (List.nodup_cons.mp distinct).1 member
    simp [different]
  · rw [keys, List.tail_cons, resultKeys]
  · rw [keys]
    intro p outside
    have different : p ≠ m := by
      rintro rfl
      exact outside (by simp)
    simp [different, off p outside]

end Unlink

end Xv6.Cfs
