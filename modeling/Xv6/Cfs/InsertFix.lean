import Xv6.Cfs.Rotation

/-!
Contract: `insertionCases` repairs the tree after a red process was hung into it.

Owns: `Repairs`, the outcome every fix-up of the run queue is measured by, and
`insertionCases_repairs`. The proof follows the five cases of the source: two
lemmas for the outer position of case 5, two for the inner position of case 4,
one for the recolouring of case 3, and an induction on the number of ancestors
that strings them together.
-/

namespace Xv6.Cfs

open Xv6.Kernel
open Xv6.RedBlack

/-- The code returned a shape that holds a balanced tree with the in-order
sequence of `tree`, and wrote no process outside it. -/
def Repairs (shape : Shape) (tree : RedBlack.Tree ProcId) (result : Option Shape) : Prop :=
  ∃ shape' tree' height, result = some shape' ∧ shape'.Holds tree' ∧
    tree'.keys = tree.keys ∧ tree'.Balanced .black height ∧
    Shape.SameOff tree.keys shape shape'

variable {shape shape' : Shape} {height fuel : Nat} {path : Path ProcId}
  {b tree a : RedBlack.Tree ProcId} {x : ProcId}

/-- Work done before the repair, as long as it kept the in-order sequence. -/
theorem Repairs.after {middle : Shape} {middleTree : RedBlack.Tree ProcId} {result : Option Shape}
    (repairs : Repairs middle middleTree result) (sameKeys : middleTree.keys = tree.keys)
    (sameOff : Shape.SameOff tree.keys shape middle) :
    Repairs shape tree result := by
  obtain ⟨shape', tree', height, returned, holds, keys, balanced, off⟩ := repairs
  rw [sameKeys] at keys off
  exact ⟨shape', tree', height, returned, holds, keys, balanced, sameOff.trans off⟩

theorem Repairs.rotated {painted : Shape} {paintedTree tree' : RedBlack.Tree ProcId}
    (paintedOff : Shape.SameOff tree.keys shape painted)
    (paintedKeys : paintedTree.keys = tree.keys)
    (rotatedOff : Shape.SameOff paintedTree.keys painted shape')
    (rotatedKeys : tree'.keys = paintedTree.keys) (holds : shape'.Holds tree')
    (balanced : tree'.Balanced .black height) : Repairs shape tree (some shape') :=
  Repairs.after ⟨shape', tree', height, rfl, holds, rotatedKeys, balanced, rotatedOff⟩
    paintedKeys paintedOff

/-! ## Case 5: the outer position -/

section Outer

/-- The subtrees, the sibling and the uncle have one height, and the ancestors go with it. -/
structure Level (a b s u : RedBlack.Tree ProcId) (rest : Path ProcId) (height : Nat) : Prop where
  left : a.Balanced .black height
  right : b.Balanced .black height
  sibling : s.Balanced .black height
  uncle : u.Balanced .black height
  above : Path.Balanced rest .black (height + 1)

variable {shape : Shape} {rest : Path ProcId} {a b s u ul ur : RedBlack.Tree ProcId}
  {x pk gk uk : ProcId} {sideP sideG : Side} {colorP colorG : Color} {height fuel : Nat}

private theorem relatives_distinct (holds : shape.Holds (Path.plug
      (⟨sideP, colorP, pk, s⟩ :: ⟨sideG, colorG, gk, u⟩ :: rest) (.node .red a x b))) :
    s.root? ≠ some x ∧ u.root? ≠ some pk := by
  have distinct := Path.nodup_keys_plug.mp holds.distinct
  simp [List.nodup_append] at distinct
  constructor
  · intro top
    have member := RedBlack.Tree.root?_mem_keys top
    grind
  · intro top
    have member := RedBlack.Tree.root?_mem_keys top
    grind

theorem insertionCases_outerLeft_eq {f : Nat} (holds : shape.Holds (Path.plug
      (⟨.left, .red, pk, s⟩ :: ⟨.left, .black, gk, u⟩ :: rest) (.node .red a x b))) :
    insertionCases (f + 1) shape x 5 =
        rotateRight ((shape.setColor gk .red).setColor pk .black) gk ∧
      ((shape.setColor gk .red).setColor pk .black).Holds (Path.plug rest
        (.node .red (.node .black (.node .red a x b) pk s) gk u)) := by
  have atX := holds.node_eq
  have atParent : shape.node pk = ⟨some x, s.root?, some gk, .red⟩ := holds.frame_eq
  have grand : shape.Holds (Path.plug rest
      (.node .black (.node .red (.node .red a x b) pk s) gk u)) := holds
  have atGrand := grand.node_eq
  have once : (shape.setColor gk .red).Holds (Path.plug (⟨.left, .red, gk, u⟩ :: rest)
      (.node .red (.node .red a x b) pk s)) := setColor_holds grand .red
  refine ⟨?_, setColor_holds once .black⟩
  simp [insertionCases, retrieveGrandparentproc, atX, atParent, atGrand]

theorem insertionCases_outerLeft (holds : shape.Holds (Path.plug
      (⟨.left, .red, pk, s⟩ :: ⟨.left, .black, gk, u⟩ :: rest) (.node .red a x b)))
    (level : Level a b s u rest height) :
    Repairs shape (Path.plug
      (⟨.left, .red, pk, s⟩ :: ⟨.left, .black, gk, u⟩ :: rest) (.node .red a x b))
      (insertionCases (fuel + 1) shape x 5) := by
  have painted := (insertionCases_outerLeft_eq (f := fuel) holds).2
  obtain ⟨shape', rotated, result, off⟩ := rotateRight_holds painted
  obtain ⟨total, balanced⟩ := level.above.plug
    (.black (.red level.left level.right) (.red level.sibling level.uncle))
  rw [(insertionCases_outerLeft_eq holds).1, rotated]
  refine .rotated ?_ ?_ off ?_ result balanced
  · refine (setColor_sameOff ?_ .red).trans (setColor_sameOff ?_ .black)
    · exact Path.mem_keys_plug.mpr (.inr (by simp))
    · exact Path.mem_keys_plug.mpr (.inr (by simp))
  · simp [Path.keys_plug, Frame.fill]
  · simp [Path.keys_plug]

theorem insertionCases_outerRight (holds : shape.Holds (Path.plug
      (⟨.right, .red, pk, s⟩ :: ⟨.right, .black, gk, u⟩ :: rest) (.node .red a x b)))
    (level : Level a b s u rest height) :
    Repairs shape (Path.plug
      (⟨.right, .red, pk, s⟩ :: ⟨.right, .black, gk, u⟩ :: rest) (.node .red a x b))
      (insertionCases (fuel + 1) shape x 5) := by
  have atX := holds.node_eq
  have atParent : shape.node pk = ⟨s.root?, some x, some gk, .red⟩ := holds.frame_eq
  have grand : shape.Holds (Path.plug rest
      (.node .black u gk (.node .red s pk (.node .red a x b)))) := holds
  have atGrand := grand.node_eq
  have once : (shape.setColor gk .red).Holds (Path.plug (⟨.right, .red, gk, u⟩ :: rest)
      (.node .red s pk (.node .red a x b))) := setColor_holds grand .red
  have painted : ((shape.setColor gk .red).setColor pk .black).Holds (Path.plug rest
      (.node .red u gk (.node .black s pk (.node .red a x b)))) := setColor_holds once .black
  obtain ⟨shape', rotated, result, off⟩ := rotateLeft_holds painted
  obtain ⟨total, balanced⟩ := level.above.plug
    (.black (.red level.uncle level.sibling) (.red level.left level.right))
  have notLeft : s.root? ≠ some x := (relatives_distinct holds).1
  have evaluated : insertionCases (fuel + 1) shape x 5 = some shape' := by
    simp [insertionCases, retrieveGrandparentproc, atX, atParent, atGrand, rotated, notLeft]
  rw [evaluated]
  refine .rotated ?_ ?_ off ?_ result balanced
  · refine (setColor_sameOff ?_ .red).trans (setColor_sameOff ?_ .black)
    · exact Path.mem_keys_plug.mpr (.inr (by simp))
    · exact Path.mem_keys_plug.mpr (.inr (by simp))
  · simp [Path.keys_plug, Frame.fill]
  · simp [Path.keys_plug]

/-! ## Case 4: from the inner to the outer position -/

theorem insertionCases_innerLeft (holds : shape.Holds (Path.plug
      (⟨.right, .red, pk, s⟩ :: ⟨.left, .black, gk, u⟩ :: rest) (.node .red a x b)))
    (level : Level a b s u rest height) :
    Repairs shape (Path.plug
      (⟨.right, .red, pk, s⟩ :: ⟨.left, .black, gk, u⟩ :: rest) (.node .red a x b))
      (insertionCases (fuel + 2) shape x 4) := by
  have atX := holds.node_eq
  have atParent : shape.node pk = ⟨s.root?, some x, some gk, .red⟩ := holds.frame_eq
  have parent : shape.Holds (Path.plug (⟨.left, .black, gk, u⟩ :: rest)
      (.node .red s pk (.node .red a x b))) := holds
  have atGrand : shape.node gk = ⟨some pk, u.root?, Path.parent? rest, .black⟩ :=
    parent.frame_eq
  obtain ⟨turned, rotated, turnedHolds, off⟩ := rotateLeft_holds parent
  have turnedX : turned.node x = ⟨some pk, b.root?, some gk, .red⟩ := turnedHolds.node_eq
  have evaluated : insertionCases (fuel + 2) shape x 4 =
      insertionCases (fuel + 1) turned pk 5 := by
    rw [insertionCases]
    simp [andAlso, retrieveGrandparentproc, atX, atParent, atGrand, rotated, turnedX]
  rw [evaluated]
  refine Repairs.after (insertionCases_outerLeft turnedHolds
    ⟨level.sibling, level.left, level.right, level.uncle, level.above⟩) ?_ off
  simp [Path.keys_plug, Frame.fill]

theorem insertionCases_innerRight (holds : shape.Holds (Path.plug
      (⟨.left, .red, pk, s⟩ :: ⟨.right, .black, gk, u⟩ :: rest) (.node .red a x b)))
    (level : Level a b s u rest height) :
    Repairs shape (Path.plug
      (⟨.left, .red, pk, s⟩ :: ⟨.right, .black, gk, u⟩ :: rest) (.node .red a x b))
      (insertionCases (fuel + 2) shape x 4) := by
  have atX := holds.node_eq
  have atParent : shape.node pk = ⟨some x, s.root?, some gk, .red⟩ := holds.frame_eq
  have parent : shape.Holds (Path.plug (⟨.right, .black, gk, u⟩ :: rest)
      (.node .red (.node .red a x b) pk s)) := holds
  have atGrand : shape.node gk = ⟨u.root?, some pk, Path.parent? rest, .black⟩ :=
    parent.frame_eq
  have notRight : s.root? ≠ some x := (relatives_distinct holds).1
  obtain ⟨turned, rotated, turnedHolds, off⟩ := rotateRight_holds parent
  have turnedX : turned.node x = ⟨a.root?, some pk, some gk, .red⟩ := turnedHolds.node_eq
  have evaluated : insertionCases (fuel + 2) shape x 4 =
      insertionCases (fuel + 1) turned pk 5 := by
    rw [insertionCases]
    simp [andAlso, retrieveGrandparentproc, atX, atParent, atGrand, notRight, rotated,
      turnedX]
  rw [evaluated]
  refine Repairs.after (insertionCases_outerRight turnedHolds
    ⟨level.right, level.sibling, level.left, level.uncle, level.above⟩) ?_ off
  simp [Path.keys_plug, Frame.fill]

theorem insertionCases_outerLeft_turn (holds : shape.Holds (Path.plug
      (⟨.left, .red, pk, s⟩ :: ⟨.left, .black, gk, u⟩ :: rest) (.node .red a x b))) :
    insertionCases (fuel + 2) shape x 4 = insertionCases (fuel + 1) shape x 5 := by
  have atX := holds.node_eq
  obtain ⟨notX, notParent⟩ := relatives_distinct holds
  have atParent : shape.node pk = ⟨some x, s.root?, some gk, .red⟩ := holds.frame_eq
  have grand : shape.Holds (Path.plug (⟨.left, .black, gk, u⟩ :: rest)
    (.node .red (.node .red a x b) pk s)) := holds
  have atGrand : shape.node gk = ⟨some pk, u.root?, Path.parent? rest, .black⟩ :=
    grand.frame_eq
  rw [insertionCases]
  simp [andAlso, retrieveGrandparentproc, atX, atParent, atGrand, notX, notParent]

/-- Case 4 at any of the four positions below a black uncle. -/
theorem insertionCases_rotation (holds : shape.Holds (Path.plug
      (⟨sideP, .red, pk, s⟩ :: ⟨sideG, .black, gk, u⟩ :: rest) (.node .red a x b)))
    (level : Level a b s u rest height) :
    Repairs shape (Path.plug
      (⟨sideP, .red, pk, s⟩ :: ⟨sideG, .black, gk, u⟩ :: rest) (.node .red a x b))
      (insertionCases (fuel + 2) shape x 4) := by
  have atX := holds.node_eq
  obtain ⟨notX, notParent⟩ := relatives_distinct holds
  cases sideP with
  | left =>
      have atParent : shape.node pk = ⟨some x, s.root?, some gk, .red⟩ := holds.frame_eq
      cases sideG with
      | left =>
          rw [insertionCases_outerLeft_turn holds]
          exact insertionCases_outerLeft holds level
      | right =>
          exact insertionCases_innerRight holds level
  | right =>
      have atParent : shape.node pk = ⟨s.root?, some x, some gk, .red⟩ := holds.frame_eq
      cases sideG with
      | left =>
          exact insertionCases_innerLeft holds level
      | right =>
          have grand : shape.Holds (Path.plug (⟨.right, .black, gk, u⟩ :: rest)
            (.node .red s pk (.node .red a x b))) := holds
          have atGrand : shape.node gk = ⟨u.root?, some pk, Path.parent? rest, .black⟩ :=
            grand.frame_eq
          have evaluated : insertionCases (fuel + 2) shape x 4 =
              insertionCases (fuel + 1) shape x 5 := by
            rw [insertionCases]
            simp [andAlso, retrieveGrandparentproc, atX, atParent, atGrand, notX,
              notParent]
          rw [evaluated]
          exact insertionCases_outerRight holds level

/-! ## Case 3: a red uncle -/

theorem retrieveGrandparentproc_eq (holds : shape.Holds (Path.plug
      (⟨sideP, colorP, pk, s⟩ :: ⟨sideG, colorG, gk, u⟩ :: rest) (.node .red a x b))) :
    retrieveGrandparentproc shape (some x) = some gk := by
  have atX := holds.node_eq
  have atParent := holds.frame_eq
  simp only [Path.parent?_cons] at atX
  simp only at atParent
  simp [retrieveGrandparentproc, atX, atParent]

theorem retrieveUncleproc_eq (holds : shape.Holds (Path.plug
      (⟨sideP, colorP, pk, s⟩ :: ⟨sideG, colorG, gk, u⟩ :: rest) (.node .red a x b))) :
    retrieveUncleproc shape x = u.root? := by
  have atX := holds.node_eq
  have notParent := (relatives_distinct holds).2
  have grand : shape.Holds (Path.plug (⟨sideG, colorG, gk, u⟩ :: rest)
    (Frame.fill ⟨sideP, colorP, pk, s⟩ (.node .red a x b))) := holds
  have atGrand := grand.frame_eq
  simp only [Frame.root?_fill] at atGrand
  unfold retrieveUncleproc
  rw [retrieveGrandparentproc_eq holds]
  simp only [atX, atGrand, Path.parent?_cons]
  cases sideG with
  | left => simp [Frame.links]
  | right =>
      have different : some pk ≠ u.root? := fun equal => notParent equal.symm
      simp [Frame.links, different]

theorem uncle_node_eq {colorU : Color} (holds : shape.Holds (Path.plug
      (⟨sideP, colorP, pk, s⟩ :: ⟨sideG, colorG, gk, .node colorU ul uk ur⟩ :: rest)
      (.node .red a x b))) :
    shape.node uk = ⟨ul.root?, ur.root?, some gk, colorU⟩ := by
  rw [Path.plug_cons, Path.plug_swap_sibling] at holds
  exact holds.node_eq

theorem setColor_frame_holds {side : Side} {color : Color} {key : ProcId}
    {tree sibling : RedBlack.Tree ProcId}
    (holds : shape.Holds (Path.plug (⟨side, color, key, sibling⟩ :: rest) tree))
    (newColor : Color) :
    (shape.setColor key newColor).Holds
      (Path.plug (⟨side, newColor, key, sibling⟩ :: rest) tree) := by
  cases side with
  | left =>
      have atTop : shape.Holds (Path.plug rest (.node color tree key sibling)) := holds
      exact setColor_holds atTop newColor
  | right =>
      have atTop : shape.Holds (Path.plug rest (.node color sibling key tree)) := holds
      exact setColor_holds atTop newColor

/-- The red of parent and uncle moves up to the grandparent. -/
theorem recolor_holds (holds : shape.Holds (Path.plug
      (⟨sideP, .red, pk, s⟩ :: ⟨sideG, .black, gk, .node .red ul uk ur⟩ :: rest)
      (.node .red a x b))) :
    (((shape.setColor pk .black).setColor uk .black).setColor gk .red).Holds
      (Path.plug
        (⟨sideP, .black, pk, s⟩ :: ⟨sideG, .red, gk, .node .black ul uk ur⟩ :: rest)
        (.node .red a x b)) := by
  have parentBlack := setColor_frame_holds holds .black
  rw [Path.plug_cons, Path.plug_swap_sibling] at parentBlack
  have uncleBlack := setColor_holds parentBlack .black
  rw [← Path.plug_swap_sibling] at uncleBlack
  exact setColor_frame_holds uncleBlack .red

theorem insertionCases_redUncle (holds : shape.Holds (Path.plug
      (⟨sideP, .red, pk, s⟩ :: ⟨sideG, .black, gk, .node .red ul uk ur⟩ :: rest)
      (.node .red a x b))) :
    insertionCases (fuel + 1) shape x 3 =
      insertionCases fuel
        (((shape.setColor pk .black).setColor uk .black).setColor gk .red) gk 1 := by
  have atX := holds.node_eq
  simp only [Path.parent?_cons] at atX
  have atUncle := uncle_node_eq holds
  have grandEq := retrieveGrandparentproc_eq holds
  have paintedGrand : retrieveGrandparentproc
      ((shape.setColor pk .black).setColor uk .black) (some x) = some gk := by
    rw [← grandEq]
    simp [retrieveGrandparentproc]
  rw [insertionCases, retrieveUncleproc_eq holds]
  simp [atX, atUncle, paintedGrand]

theorem insertionCases_blackUncle (holds : shape.Holds (Path.plug
      (⟨sideP, colorP, pk, s⟩ :: ⟨sideG, colorG, gk, u⟩ :: rest) (.node .red a x b)))
    (uncleBlack : u.color = .black) :
    insertionCases (fuel + 1) shape x 3 = insertionCases fuel shape x 4 := by
  rw [insertionCases, retrieveUncleproc_eq holds]
  cases u with
  | nil => rfl
  | node colorU ul uk ur =>
      have atUncle := uncle_node_eq holds
      simp only [RedBlack.Tree.color_node] at uncleBlack
      simp [atUncle, uncleBlack]

theorem insertionCases_root (holds : shape.Holds (Path.plug [] (.node .red a x b))) :
    insertionCases (fuel + 1) shape x 1 = some (shape.setColor x .black) := by
  have atX := holds.node_eq
  simp [insertionCases, atX]

theorem insertionCases_blackParent
    (holds : shape.Holds (Path.plug (⟨sideP, .black, pk, s⟩ :: rest) (.node .red a x b))) :
    insertionCases (fuel + 2) shape x 1 = some shape := by
  have atX := holds.node_eq
  have atParent := holds.frame_eq
  simp only [Path.parent?_cons] at atX
  simp only at atParent
  simp [insertionCases, atX, atParent]

theorem insertionCases_redParent
    (holds : shape.Holds (Path.plug (⟨sideP, .red, pk, s⟩ :: rest) (.node .red a x b))) :
    insertionCases (fuel + 2) shape x 1 = insertionCases fuel shape x 3 := by
  have atX := holds.node_eq
  have atParent := holds.frame_eq
  simp only [Path.parent?_cons] at atX
  simp only at atParent
  simp [insertionCases, atX, atParent]

end Outer

/-! ## All cases -/

/-- **Insertion fix-up.** A red process with black balanced subtrees, hung where a
black tree of the same height belongs, is worked into a balanced tree. The
recursion ends after at most `2 * path.length + 5` calls. -/
theorem insertionCases_repairs (holds : shape.Holds (Path.plug path (.node .red a x b)))
    (aBalanced : a.Balanced .black height) (bBalanced : b.Balanced .black height)
    (pathBalanced : Path.Balanced path .black height) (enough : 2 * path.length + 5 ≤ fuel) :
    Repairs shape (Path.plug path (.node .red a x b)) (insertionCases fuel shape x 1) := by
  -- Case 3 continues two ancestors up, so the induction is on their number.
  induction length : path.length using Nat.strong_induction_on
    generalizing path shape a b x height fuel with
  | _ size ih =>
      obtain ⟨fuel, rfl⟩ : ∃ less, fuel = less + 5 := ⟨fuel - 5, by omega⟩
      cases pathBalanced with
      | nil =>
          rw [insertionCases_root holds]
          refine ⟨_, _, height + 1, rfl, setColor_holds holds .black, ?_, ?_, ?_⟩
          · simp
          · exact .black aBalanced bBalanced
          · exact setColor_sameOff (by simp) .black
      | @black sideP pk s rest _ _ _ sBalanced restBalanced =>
          rw [insertionCases_blackParent holds]
          -- A black parent takes a red child as well as a black one.
          have redHole : Path.Balanced (⟨sideP, .black, pk, s⟩ :: rest) .red height :=
            .black sBalanced restBalanced
          obtain ⟨total, balanced⟩ := redHole.plug (.red aBalanced bBalanced)
          exact ⟨_, _, total, rfl, holds, rfl, balanced, fun _ _ => rfl⟩
      | @red sideP pk s rest _ sBalanced restBalanced =>
          obtain ⟨sideG, gk, u, above, uColor, rfl, uBalanced, aboveBalanced⟩ :=
            restBalanced.of_red_hole
          rw [insertionCases_redParent holds]
          by_cases uncleRed : u.color = .red
          · cases uBalanced with
            | nil => cases uncleRed
            | black => cases uncleRed
            | @red ul ur uk _ ulBalanced urBalanced =>
                rw [insertionCases_redUncle holds]
                have painted := recolor_holds holds
                have parentBalanced :
                    (Frame.fill ⟨sideP, .black, pk, s⟩ (.node .red a x b)).Balanced
                      .black (height + 1) := by
                  cases sideP with
                  | left => exact .black (.red aBalanced bBalanced) sBalanced
                  | right => exact .black sBalanced (.red aBalanced bBalanced)
                have uncleBalanced :
                    (RedBlack.Tree.node .black ul uk ur).Balanced .black (height + 1) :=
                  .black ulBalanced urBalanced
                have shorter : above.length < size := by
                  rw [← length, List.length_cons, List.length_cons]
                  omega
                have off : Shape.SameOff (Path.plug (⟨sideP, .red, pk, s⟩ ::
                    ⟨sideG, .black, gk, .node .red ul uk ur⟩ :: above)
                    (.node .red a x b)).keys shape
                    (((shape.setColor pk .black).setColor uk .black).setColor gk .red) := by
                  refine ((setColor_sameOff ?_ .black).trans
                    (setColor_sameOff ?_ .black)).trans (setColor_sameOff ?_ .red)
                  all_goals exact Path.mem_keys_plug.mpr (.inr (by simp))
                simp only [List.length_cons] at enough
                cases sideG with
                | left =>
                    refine Repairs.after (ih above.length shorter painted
                      parentBalanced uncleBalanced aboveBalanced (by omega) rfl) ?_ off
                    simp [Path.keys_plug, Frame.keys_fill, Frame.before, Frame.after]
                | right =>
                    refine Repairs.after (ih above.length shorter painted
                      uncleBalanced parentBalanced aboveBalanced (by omega) rfl) ?_ off
                    simp [Path.keys_plug, Frame.keys_fill, Frame.before, Frame.after]
          · have uncleBlack : u.color = .black := by
              cases shown : u.color with
              | red => exact absurd shown uncleRed
              | black => rfl
            rw [insertionCases_blackUncle holds uncleBlack]
            exact insertionCases_rotation holds ⟨aBalanced, bBalanced, sBalanced,
              uBalanced.of_color uncleBlack, aboveBalanced⟩

/-! ## The left spine -/

/-- A right rotation keeps the left links of the process it lifts and of
everything below that. -/
theorem rotateRight_keeps_left {t d : RedBlack.Tree ProcId} {y : ProcId} {c c' : Color}
    (holds : shape.Holds (Path.plug path (.node c (.node c' t y b) x d)))
    (rotated : rotateRight shape x = some shape') :
    ∀ q ∈ y :: t.keys, (shape'.node q).left = (shape.node q).left := by
  obtain ⟨_, rotatedTo, _, atY, isRotated⟩ := rotateRight_nodes holds
  rw [rotated] at rotatedTo
  cases rotatedTo
  have inner : shape.Holds (Path.plug (⟨.left, c, x, d⟩ :: path) (.node c' t y b)) := holds
  intro q member
  rcases List.mem_cons.mp member with isLifted | below
  · rw [isLifted, atY, inner.node_eq]
  · have distinct := Path.nodup_keys_plug.mp holds.distinct
    simp [List.nodup_append] at distinct
    have same : shape'.node q = shape.node q := by
      apply isRotated.elsewhere
      · rintro rfl
        grind
      · rintro rfl
        grind
      · intro top
        have inB := RedBlack.Tree.root?_mem_keys top
        grind
      · intro isParent
        have inPath := Path.parent?_mem_keys isParent
        grind
    rw [same]

/-- On the left spine the fix-up keeps every left link at and below the parent
of `x`, whichever ancestors it recolours and rotates. -/
theorem insertionCases_keeps_left (spine : Path.OnLeft path)
    (holds : shape.Holds (Path.plug path (.node .red a x b)))
    (pathBalanced : Path.Balanced path .black height) (enough : 2 * path.length + 5 ≤ fuel)
    (returned : insertionCases fuel shape x 1 = some shape') :
    ∀ q, q ∈ (RedBlack.Tree.node .red a x b).keys ∨ Path.parent? path = some q →
      (shape'.node q).left = (shape.node q).left := by
  induction length : path.length using Nat.strong_induction_on
    generalizing path shape a b x height fuel with
  | _ size ih =>
      obtain ⟨fuel, rfl⟩ : ∃ less, fuel = less + 5 := ⟨fuel - 5, by omega⟩
      cases pathBalanced with
      | nil =>
          rw [insertionCases_root holds] at returned
          cases returned
          simp
      | @black sideP pk s rest _ _ _ sBalanced restBalanced =>
          rw [insertionCases_blackParent holds] at returned
          cases returned
          exact fun _ _ => rfl
      | @red sideP pk s rest _ sBalanced restBalanced =>
          obtain ⟨sideG, gk, u, above, uColor, rfl, uBalanced, aboveBalanced⟩ :=
            restBalanced.of_red_hole
          have parentLeft : sideP = .left := spine _ List.mem_cons_self
          have grandLeft : sideG = .left :=
            spine _ (List.mem_cons_of_mem _ List.mem_cons_self)
          subst parentLeft grandLeft
          have aboveSpine : Path.OnLeft above := fun frame member =>
            spine frame (List.mem_cons_of_mem _ (List.mem_cons_of_mem _ member))
          rw [insertionCases_redParent holds] at returned
          simp only [List.length_cons] at enough length
          cases uColor with
          | red =>
              cases uBalanced with
              | @red ul ur uk _ ulBalanced urBalanced =>
                  rw [insertionCases_redUncle holds] at returned
                  have painted : (((shape.setColor pk .black).setColor uk .black).setColor
                      gk .red).Holds (Path.plug above (.node .red (.node .black
                        (.node .red a x b) pk s) gk (.node .black ul uk ur))) :=
                    recolor_holds holds
                  have kept := ih above.length (by omega) aboveSpine
                    painted aboveBalanced (by omega) returned rfl
                  intro q member
                  have inside : q ∈ (RedBlack.Tree.node .red (.node .black (.node .red a x b) pk s)
                      gk (.node .black ul uk ur)).keys := by
                    rcases member with below | isParent
                    · simp only [RedBlack.Tree.keys_node, List.mem_append] at below ⊢
                      tauto
                    · cases isParent
                      simp
                  simpa using kept q (.inl inside)
          | black =>
              obtain ⟨toRotation, painted⟩ := insertionCases_outerLeft_eq (f := fuel) holds
              rw [insertionCases_blackUncle holds uBalanced.color_eq,
                insertionCases_outerLeft_turn holds, toRotation] at returned
              intro q member
              have inside : q ∈ pk :: (RedBlack.Tree.node .red a x b).keys := by
                rcases member with below | isParent
                · exact List.mem_cons_of_mem _ below
                · cases isParent
                  exact List.mem_cons_self
              simpa using rotateRight_keeps_left painted returned q inside

end Xv6.Cfs
