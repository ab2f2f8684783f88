import Xv6.Kernel.Param
import Xv6.RedBlack.Links

/-!
Contract: the rebalancing code of the run queue in `kernel/proc.c`, on the part
of the kernel memory it can see.

Owns: `rotateLeft`, `rotateRight`, `setMinimumVRuntimeproc`, `insertionCases` and
`retrievingCases`, written over the pointer fields `left`, `right`, `parentP`
(`parent`) and `coloring` (`color`) of every `struct proc` and over `tree->root`.

A null dereference, or a recursion deeper than the given fuel, yields `none`.
Where the source stores through a pointer, the pointer is first taken out of its
`Option`; where it only compares or copies a pointer, the `Option` is kept.

Does not own: why any of this is right. See `Rotation`, `InsertFix` and
`RemoveFix`.
-/

namespace Xv6.Cfs

open Xv6.Kernel
open Xv6.RedBlack

/-- `tree->root` and the tree fields of each `struct proc`. -/
structure Shape where
  root : Option ProcId
  node : ProcId → Links ProcId

namespace Shape

def setNode (shape : Shape) (p : ProcId) (links : Links ProcId) : Shape :=
  { shape with node := Function.update shape.node p links }

def setLeft (shape : Shape) (p : ProcId) (child : Option ProcId) : Shape :=
  shape.setNode p { shape.node p with left := child }

def setRight (shape : Shape) (p : ProcId) (child : Option ProcId) : Shape :=
  shape.setNode p { shape.node p with right := child }

def setParent (shape : Shape) (p : ProcId) (parent : Option ProcId) : Shape :=
  shape.setNode p { shape.node p with parent := parent }

def setColor (shape : Shape) (p : ProcId) (color : Color) : Shape :=
  shape.setNode p { shape.node p with color := color }

/-- `if(ptr != 0) ptr->parentP = parent`. -/
def setParent? (shape : Shape) (ptr : Option ProcId) (parent : Option ProcId) : Shape :=
  match ptr with
  | none => shape
  | some p => shape.setParent p parent

end Shape

/-- `first && second`, where evaluating `second` may fault and is skipped when
`first` is false. -/
def andAlso (first : Prop) [Decidable first] (second : Option Bool) : Option Bool :=
  if first then second else some false

/-- `process != 0 && process->parentP != 0` guard both loads, so the result is a
pointer and never a fault. -/
def retrieveGrandparentproc (shape : Shape) (process : Option ProcId) : Option ProcId :=
  match process with
  | none => none
  | some p =>
      match (shape.node p).parent with
      | none => none
      | some parentP => (shape.node parentP).parent

def retrieveUncleproc (shape : Shape) (process : ProcId) : Option ProcId :=
  match retrieveGrandparentproc shape (some process) with
  | none => none
  | some grandParent =>
      if (shape.node process).parent = (shape.node grandParent).left then
        (shape.node grandParent).right
      else
        (shape.node grandParent).left

def rotateLeft (shape : Shape) (positionProc : ProcId) : Option Shape := do
  let saveRightProc ← (shape.node positionProc).right
  let shape := shape.setRight positionProc (shape.node saveRightProc).left
  let shape := shape.setParent? (shape.node saveRightProc).left (some positionProc)
  let shape := shape.setParent saveRightProc (shape.node positionProc).parent
  let shape :=
    match (shape.node positionProc).parent with
    | none => { shape with root := some saveRightProc }
    | some parentP =>
        if (shape.node parentP).left = some positionProc then
          shape.setLeft parentP (some saveRightProc)
        else
          shape.setRight parentP (some saveRightProc)
  let shape := shape.setLeft saveRightProc (some positionProc)
  return shape.setParent positionProc (some saveRightProc)

def rotateRight (shape : Shape) (positionProc : ProcId) : Option Shape := do
  let saveLeftProc ← (shape.node positionProc).left
  let shape := shape.setLeft positionProc (shape.node saveLeftProc).right
  let shape := shape.setParent? (shape.node saveLeftProc).right (some positionProc)
  let shape := shape.setParent saveLeftProc (shape.node positionProc).parent
  let shape :=
    match (shape.node positionProc).parent with
    | none => { shape with root := some saveLeftProc }
    | some parentP =>
        if (shape.node parentP).right = some positionProc then
          shape.setRight parentP (some saveLeftProc)
        else
          shape.setLeft parentP (some saveLeftProc)
  let shape := shape.setRight saveLeftProc (some positionProc)
  return shape.setParent positionProc (some saveLeftProc)

/-- Depth that every recursion and loop of the run queue stays below: each one
climbs or descends a tree of at most `NPROC` processes. -/
def treeFuel : Nat := 4 * NPROC

/-- The inner `Option` is the returned pointer. -/
def setMinimumVRuntimeproc :
    Nat → Shape → Option ProcId → Option (Option ProcId)
  | 0, _, _ => none
  | _ + 1, _, none => some none
  | fuel + 1, shape, some traversingProcess =>
      if (shape.node traversingProcess).left ≠ none then
        setMinimumVRuntimeproc fuel shape (shape.node traversingProcess).left
      else
        some (some traversingProcess)

/-- `cases` selects the branch, as in the source; `rbProcess` is never null at a
call. -/
def insertionCases : Nat → Shape → ProcId → Nat → Option Shape
  | 0, _, _, _ => none
  | fuel + 1, shape, rbProcess, cases =>
      match cases with
      | 1 =>
          if (shape.node rbProcess).parent = none then
            some (shape.setColor rbProcess .black)
          else
            insertionCases fuel shape rbProcess 2
      | 2 => do
          let parentP ← (shape.node rbProcess).parent
          if (shape.node parentP).color = .red then
            insertionCases fuel shape rbProcess 3
          else
            some shape
      | 3 =>
          match retrieveUncleproc shape rbProcess with
          | some uncle =>
              if (shape.node uncle).color = .red then do
                let parentP ← (shape.node rbProcess).parent
                let shape := shape.setColor parentP .black
                let shape := shape.setColor uncle .black
                let grandparent ← retrieveGrandparentproc shape (some rbProcess)
                let shape := shape.setColor grandparent .red
                insertionCases fuel shape grandparent 1
              else
                insertionCases fuel shape rbProcess 4
          | none => insertionCases fuel shape rbProcess 4
      | 4 => do
          let parentP ← (shape.node rbProcess).parent
          let grandparent := retrieveGrandparentproc shape (some rbProcess)
          let innerLeft ← andAlso ((shape.node parentP).right = some rbProcess)
            (grandparent.map fun g => decide ((shape.node g).left = some parentP))
          if innerLeft then do
            let shape ← rotateLeft shape parentP
            let rbProcess ← (shape.node rbProcess).left
            insertionCases fuel shape rbProcess 5
          else do
            let innerRight ← andAlso ((shape.node parentP).left = some rbProcess)
              (grandparent.map fun g => decide ((shape.node g).right = some parentP))
            if innerRight then do
              let shape ← rotateRight shape parentP
              let rbProcess ← (shape.node rbProcess).right
              insertionCases fuel shape rbProcess 5
            else
              insertionCases fuel shape rbProcess 5
      | 5 =>
          match retrieveGrandparentproc shape (some rbProcess) with
          | none => some shape
          | some grandparent => do
              let shape := shape.setColor grandparent .red
              let parentP ← (shape.node rbProcess).parent
              let shape := shape.setColor parentP .black
              if (shape.node parentP).left = some rbProcess ∧
                  (shape.node grandparent).left = some parentP then
                rotateRight shape grandparent
              else if (shape.node parentP).right = some rbProcess ∧
                  (shape.node grandparent).right = some parentP then
                rotateLeft shape grandparent
              else
                some shape
      | _ => some shape

/-- `ptr == 0 || ptr->coloring == BLACK`. -/
def blackOrNull (shape : Shape) (ptr : Option ProcId) : Bool :=
  match ptr with
  | none => true
  | some p => decide ((shape.node p).color = .black)

/-- Loop body of `retrievingCases` case 2, first part: a red sibling is rotated
above the parent. -/
def liftRedSibling (shape : Shape) (parentProc : ProcId) : Option Shape :=
  match (shape.node parentProc).right with
  | none => some shape
  | some siblingProcess =>
      if (shape.node siblingProcess).color = .red then
        rotateLeft ((shape.setColor siblingProcess .black).setColor parentProc .red)
          parentProc
      else
        some shape

/-- Loop body, the part for a black outer nephew: the inner one is rotated into
its place. -/
def turnInnerNephew (shape : Shape) (siblingProcess : ProcId) : Option Shape :=
  if blackOrNull shape (shape.node siblingProcess).right then
    let shape :=
      match (shape.node siblingProcess).left with
      | none => shape
      | some nephew => shape.setColor nephew .black
    rotateRight (shape.setColor siblingProcess .red) siblingProcess
  else
    some shape

/-- Loop body, last part: the sibling takes the parent's place and colour. -/
def liftSibling (shape : Shape) (parentProc : ProcId) : Option Shape := do
  let siblingProcess ← (shape.node parentProc).right
  let shape := shape.setColor siblingProcess (shape.node parentProc).color
  let shape := shape.setColor parentProc .black
  let nephew ← (shape.node siblingProcess).right
  rotateLeft (shape.setColor nephew .black) parentProc

/-- Loop body after the sibling is known to be black. Returns the shape with the
new `parentProc` and `process`. -/
def blackSibling (shape : Shape) (parentProc : ProcId) :
    Option (Shape × Option ProcId × Option ProcId) := do
  let siblingProcess ← (shape.node parentProc).right
  if blackOrNull shape (shape.node siblingProcess).left ∧
      blackOrNull shape (shape.node siblingProcess).right then
    let shape := shape.setColor siblingProcess .red
    return (shape, (shape.node parentProc).parent, some parentProc)
  else do
    let shape ← turnInnerNephew shape siblingProcess
    let shape ← liftSibling shape parentProc
    return (shape, some parentProc, shape.root)

/-- The loop of `retrievingCases` case 2, together with the recolouring after
it. Each unit of fuel is one evaluation of the loop condition. -/
def retrievingLoop :
    Nat → Shape → Option ProcId → Option ProcId → Option Shape
  | 0, _, _, _ => none
  | fuel + 1, shape, parentProc, process =>
      if process ≠ shape.root ∧ blackOrNull shape process then do
        let parent ← parentProc
        if process = (shape.node parent).left then do
          let shape ← liftRedSibling shape parent
          let (shape, parentProc, process) ← blackSibling shape parent
          retrievingLoop fuel shape parentProc process
        else
          -- No branch for a right child: the body is empty and the loop spins.
          retrievingLoop fuel shape parentProc process
      else
        match process with
        | none => some shape
        | some p => some (shape.setColor p .black)

/-- `retrievingCases` case 1 up to the clearing of the removed links. -/
def unlinkProcess (fuel : Nat) (shape : Shape) (parentProc : Option ProcId)
    (process : ProcId) : Option Shape :=
  let childProcess := (shape.node process).right
  if some process = shape.root then
    let shape := { shape with root := childProcess }
    match childProcess with
    | none => some shape
    | some child => some ((shape.setParent child none).setColor child .black)
  else do
    let parent ← parentProc
    match childProcess with
    | some child =>
        if (shape.node process).color ≠ (shape.node child).color then
          let shape := shape.setParent child (some parent)
          let shape := shape.setLeft parent (some child)
          some (shape.setColor child .black)
        else if (shape.node process).color = .red then
          some (shape.setLeft parent (some child))
        else
          let shape := shape.setParent child (some parent)
          let shape := shape.setLeft parent (some child)
          retrievingLoop fuel shape (some parent) (some child)
    | none =>
        if (shape.node process).color = .red then
          some (shape.setLeft parent none)
        else
          retrievingLoop fuel (shape.setLeft parent none) (some parent) none

/-- Case 1 removes `process` from the tree, case 2 repairs the colours above the
hole. -/
def retrievingCases (fuel : Nat) (shape : Shape) (parentProc : Option ProcId)
    (process : Option ProcId) (cases : Nat) : Option Shape :=
  match cases with
  | 1 => do
      let p ← process
      let shape ← unlinkProcess fuel shape parentProc p
      let shape := shape.setParent p none
      let shape := shape.setLeft p none
      return shape.setRight p none
  | 2 => retrievingLoop fuel shape parentProc process
  | _ => some shape

end Xv6.Cfs
