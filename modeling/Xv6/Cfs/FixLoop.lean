import Xv6.Cfs.RemoveFix

/-!
Contract: the loop of `retrievingCases` case 2, one iteration after the other.

Owns: the state of the loop, its iterations, and the bound on their number.

Does not own: what the tree is at the end. Each iteration is the loop body of `retrievingLoop`
(`retrievingLoop_succ`), and a null pointer that it follows ends it without a next state.
-/

namespace Xv6.Cfs

open Xv6.Kernel
open Xv6.RedBlack

/-! ## Iterations -/

/-- What an iteration reads: the tree, `parentProc` and `process`. -/
structure LoopState where
  shape : Shape
  parentProc : Option ProcId
  process : Option ProcId

namespace LoopState

def enters (state : LoopState) : Bool :=
  state.process ≠ state.shape.root ∧ blackOrNull state.shape state.process

def iterate (state : LoopState) : Option LoopState := do
  let parent ← state.parentProc
  if state.process = (state.shape.node parent).left then
    let (shape, parentProc, process) ← leftBody state.shape parent
    some ⟨shape, parentProc, process⟩
  else
    some state

def finish (state : LoopState) : Shape :=
  match state.process with
  | none => state.shape
  | some p => state.shape.setColor p .black

def run (fuel : Nat) (state : LoopState) : Option Shape :=
  retrievingLoop fuel state.shape state.parentProc state.process

end LoopState

/-- `n` iterations lead from one state to the other. -/
inductive Iterations (start : LoopState) : Nat → LoopState → Prop where
  | none : Iterations start 0 start
  | more {n : Nat} {state next : LoopState} (before : Iterations start n state)
      (enters : state.enters = true) (isNext : state.iterate = some next) :
      Iterations start (n + 1) next

/-- The arguments of the call of case 2 in case 1, if it is made. -/
def caseTwo (shape : Shape) (parentProc : Option ProcId) (process : ProcId) : Option LoopState :=
  if some process = shape.root then none
  else do
    let parent ← parentProc
    match (shape.node process).right with
    | some child =>
        if (shape.node process).color ≠ (shape.node child).color then none
        else if (shape.node process).color = .red then none
        else
          let shape := shape.setParent child (some parent)
          some ⟨shape.setLeft parent (some child), some parent, some child⟩
    | none =>
        if (shape.node process).color = .red then none
        else some ⟨shape.setLeft parent none, some parent, none⟩

section Runs

variable {shape : Shape} {parentProc : Option ProcId} {process : ProcId}
  {start state : LoopState} {n : Nat}

theorem retrievingLoop_succ (fuel : Nat) (state : LoopState) :
    state.run (fuel + 1) =
      if state.enters then state.iterate >>= LoopState.run fuel else some state.finish := by
  obtain ⟨shape, parentProc, process⟩ := state
  rw [LoopState.run, retrievingLoop.eq_def, LoopState.enters, LoopState.iterate]
  simp only [decide_eq_true_eq]
  split
  · cases parentProc with
    | none => rfl
    | some parent =>
        by_cases isLeft : process = (shape.node parent).left
        · simp [isLeft, leftBody, LoopState.run, Option.bind_assoc]
        · simp [isLeft, LoopState.run]
  · cases process <;> rfl

theorem Iterations.run (iterations : Iterations start n state) (fuel : Nat) :
    start.run (n + fuel) = state.run fuel := by
  induction iterations generalizing fuel with
  | none => rw [Nat.zero_add]
  | more before enters isNext ih =>
      rw [Nat.add_assoc, Nat.add_comm 1, ih, retrievingLoop_succ, if_pos enters,
        isNext]
      rfl

theorem unlinkProcess_caseTwo (called : caseTwo shape parentProc process = some start)
    (fuel : Nat) : unlinkProcess fuel shape parentProc process = start.run fuel := by
  unfold caseTwo at called
  unfold unlinkProcess
  split at called
  · cases called
  · next notRoot =>
    rw [if_neg notRoot]
    cases parentProc with
    | none => cases called
    | some parent =>
        dsimp only [Option.bind_eq_bind, Option.bind_some] at called ⊢
        cases isChild : (shape.node process).right with
        | none =>
            rw [isChild] at called
            dsimp only at called ⊢
            split at called
            · cases called
            · next isBlack =>
              cases called
              rw [if_neg isBlack]
              rfl
        | some child =>
            rw [isChild] at called
            dsimp only at called ⊢
            split at called
            · cases called
            · next sameColor =>
              split at called
              · cases called
              · next isBlack =>
                cases called
                rw [if_neg sameColor, if_neg isBlack]
                rfl

end Runs

/-! ## The bound -/

/-- The loop ends here, or at a hole with no more than `bound` ancestors. -/
def Standing (bound : Nat) (state : LoopState) : Prop :=
  state.enters = false ∨ ∃ path tree, Hole state.shape path tree ∧
    state.parentProc = Path.parent? path ∧ state.process = tree.root? ∧ path.length ≤ bound

variable {bound n : Nat} {state start : LoopState}

/-- **One iteration**: `process` is the left child, it has a sibling, and the bound goes down. -/
theorem Standing.step (standing : Standing bound state) (enters : state.enters = true) :
    (∃ parent sibling, state.parentProc = some parent ∧
      (state.shape.node parent).left = state.process ∧
      (state.shape.node parent).right = some sibling) ∧
    ∃ next bound', state.iterate = some next ∧ bound = bound' + 1 ∧ Standing bound' next := by
  obtain ⟨shape, parentProc, process⟩ := state
  rcases standing with leaves | ⟨path, tree, hole, rfl, rfl, within⟩
  · rw [enters] at leaves
    cases leaves
  dsimp only [LoopState.enters] at hole enters ⊢
  obtain ⟨notRoot, isBlack⟩ := of_decide_eq_true enters
  rw [blackOrNull_root? hole.holds] at isBlack
  cases path with
  | nil => exact absurd hole.holds.root.symm notRoot
  | cons frame rest =>
      obtain ⟨side, color, parent, sibling⟩ := frame
      have onLeft : side = .left := hole.spine _ List.mem_cons_self
      subst onLeft
      obtain ⟨present, rest', color', shape', parentProc, process, evaluated, after, up, -⟩ :=
        leftBody_ends hole isBlack
      have atParent : shape.node parent = ⟨tree.root?, sibling.root?, Path.parent? rest, color⟩ :=
        hole.holds.frame_eq
      obtain ⟨top, isTop⟩ := Option.ne_none_iff_exists'.mp present
      refine ⟨⟨parent, top, rfl, by rw [atParent], by rw [atParent, isTop]⟩,
        ⟨shape', parentProc, process⟩, bound - 1, ?_, ?_, ?_⟩
      · simp [LoopState.iterate, atParent, evaluated]
      · rw [List.length_cons] at within
        omega
      · cases after with
        | closes => exact .inl (by simp [LoopState.enters])
        | climbs hole' isColor' =>
            rcases up with rfl | rfl
            · refine .inl ?_
              have notBlack := (blackOrNull_root? hole'.holds).not.mpr (by rw [isColor']; nofun)
              simp [LoopState.enters, notBlack]
            · rw [List.length_cons] at within
              exact .inr ⟨_, _, hole', rfl, rfl, by omega⟩

/-- Every state of the loop stands within what the iterations left of the bound. -/
theorem Iterations.standing (iterations : Iterations start n state)
    (standing : Standing bound start) :
    ∃ bound', bound = n + bound' ∧ Standing bound' state := by
  induction iterations with
  | none => exact ⟨bound, (Nat.zero_add _).symm, standing⟩
  | more before enters isNext ih =>
      obtain ⟨middle, isMiddle, standing'⟩ := ih
      obtain ⟨-, next, bound', isNext', isBound, standing''⟩ := standing'.step enters
      cases isNext.symm.trans isNext'
      exact ⟨bound', by omega, standing''⟩

theorem Standing.ends (standing : Standing bound state) (before : Iterations start n state) :
    ∃ last final, last ≤ n + bound ∧ Iterations start last final ∧ final.enters = false := by
  induction bound generalizing n state with
  | zero =>
      cases enters : state.enters with
      | false => exact ⟨n, state, Nat.le_refl _, before, enters⟩
      | true =>
          obtain ⟨-, next, bound', -, isBound, -⟩ := standing.step enters
          cases isBound
  | succ bound ih =>
      cases enters : state.enters with
      | false => exact ⟨n, state, Nat.le_add_right .., before, enters⟩
      | true =>
          obtain ⟨-, next, bound', isNext, isBound, standing'⟩ := standing.step enters
          cases isBound
          obtain ⟨last, final, within, ends⟩ :=
            ih standing' (before.more enters isNext)
          exact ⟨last, final, by omega, ends⟩

/-! ## The removed process -/

section Removed

variable {shape : Shape} {tree : RedBlack.Tree ProcId} {m : ProcId} {height : Nat}

/-- Case 2 is called at a hole in the place of the removed process. -/
theorem caseTwo_standing (holds : shape.Holds tree) (balanced : tree.Balanced .black height)
    (least : tree.keys.head? = some m) :
    ∃ depth, tree.depth m = some depth ∧
      ∀ start, caseTwo shape (shape.node m).parent m = some start → Standing depth start := by
  obtain ⟨path, color, right, spine, rfl⟩ := Path.exists_onLeft_of_head? least
  have distinct := Path.nodup_keys_plug.mp holds.distinct
  have outside : m ∉ Path.keys path := fun member =>
    (List.nodup_append.mp distinct).2.2 m (by simp) m member rfl
  have isDepth : (RedBlack.Tree.node color .nil m right).depth m = some 0 := if_pos rfl
  refine ⟨_, Path.depth_plug isDepth outside, fun start called => ?_⟩
  rw [Nat.zero_add]
  have atM := holds.node_eq
  obtain ⟨nodeColor, below, nodeBalanced, pathBalanced⟩ := Path.Balanced.of_plug balanced
  cases path with
  | nil =>
      have isRoot : shape.root = some m := holds.root
      rw [caseTwo, if_pos isRoot.symm] at called
      cases called
  | cons frame rest =>
      obtain ⟨side, parentColor, parent, sibling⟩ := frame
      have onLeft : side = .left := spine _ List.mem_cons_self
      subst onLeft
      have restSpine : Path.OnLeft rest := fun other member => spine other (by simp [member])
      rw [caseTwo, atM] at called
      cases nodeBalanced with
      | red leftBalanced rightBalanced =>
          cases leftBalanced
          cases rightBalanced
          simp at called
      | black leftBalanced rightBalanced =>
          cases leftBalanced
          cases rightBalanced with
          | nil =>
              simp only [RedBlack.Tree.root?_nil] at called
              split at called
              · cases called
              · cases called
                exact .inr ⟨_, _, unlink_hole holds restSpine pathBalanced, rfl, rfl, Nat.le_refl _⟩
          | @red a b child _ aBalanced bBalanced =>
              have atChild : shape.node child = ⟨a.root?, b.root?, some m, .red⟩ := by
                have inner : shape.Holds (Path.plug (⟨.right, .black, m, .nil⟩ ::
                  ⟨.left, parentColor, parent, sibling⟩ :: rest) (.node .red a child b)) := holds
                exact inner.node_eq
              simp [atChild] at called

/-- **The repair after a removal ends.** When the least process leaves a tree and case 2 is called,
every iteration finds `process` as the left child of `parentProc`, next to a sibling that is not
null, and follows no null pointer; and the loop ends, after no more iterations than the removed
process had ancestors. -/
theorem fixup_terminates (holds : shape.Holds tree) (balanced : tree.Balanced .black height)
    (least : tree.keys.head? = some m) :
    ∃ depth, tree.depth m = some depth ∧
      ∀ start, caseTwo shape (shape.node m).parent m = some start →
        (∀ n state, Iterations start n state → n ≤ depth ∧
          (state.enters = true → ∃ parent sibling next, state.parentProc = some parent ∧
            (state.shape.node parent).left = state.process ∧
            (state.shape.node parent).right = some sibling ∧ state.iterate = some next)) ∧
        ∃ n final, n ≤ depth ∧ Iterations start n final ∧ final.enters = false ∧
          ∀ fuel, n < fuel → retrievingCases fuel shape (shape.node m).parent (some m) 1 =
            some (((final.finish.setParent m none).setLeft m none).setRight m none) := by
  obtain ⟨depth, isDepth, standing⟩ := caseTwo_standing holds balanced least
  refine ⟨depth, isDepth, fun start called => ⟨fun n state iterations => ?_, ?_⟩⟩
  · obtain ⟨bound', isBound, standing'⟩ := iterations.standing (standing start called)
    refine ⟨by omega, fun enters => ?_⟩
    obtain ⟨⟨parent, sibling, isParent, isLeft, isSibling⟩, next, -, isNext, -⟩ :=
      standing'.step enters
    exact ⟨parent, sibling, next, isParent, isLeft, isSibling, isNext⟩
  · obtain ⟨n, final, within, iterations, leaves⟩ := (standing start called).ends .none
    refine ⟨n, final, by omega, iterations, leaves, fun fuel enough => ?_⟩
    obtain ⟨more, rfl⟩ : ∃ more, fuel = n + (more + 1) := ⟨fuel - n - 1, by omega⟩
    have isRun : unlinkProcess (n + (more + 1)) shape (shape.node m).parent m =
        some final.finish := by
      rw [unlinkProcess_caseTwo called, iterations.run, retrievingLoop_succ, if_neg]
      rw [leaves]
      nofun
    rw [retrievingCases]
    simp [isRun]

end Removed

def threeNodes : Shape where
  root := some 1
  node p :=
    if p = 1 then ⟨some 0, some 2, none, .black⟩
    else ⟨none, none, some 1, .black⟩

/-- The least of three black processes is removed: one iteration. -/
theorem fixup_terminates_three :
    threeNodes.Holds (.node .black (.node .black .nil 0 .nil) 1 (.node .black .nil 2 .nil)) ∧
      ∃ start, caseTwo threeNodes (some 1) 0 = some start ∧ start.enters = true ∧
        ∃ n final, n ≤ 1 ∧ Iterations start n final ∧ final.enters = false := by
  have holds : threeNodes.Holds
      (.node .black (.node .black .nil 0 .nil) 1 (.node .black .nil 2 .nil)) := by
    exact ⟨rfl, ⟨rfl, ⟨rfl, trivial, trivial⟩, ⟨rfl, trivial, trivial⟩⟩, by decide⟩
  have least : (RedBlack.Tree.node .black (.node .black .nil 0 .nil) 1
      (.node .black .nil (2 : ProcId) .nil)).keys.head? = some 0 := rfl
  obtain ⟨depth, isDepth, ends⟩ := fixup_terminates holds
    (.black (.black .nil .nil) (.black .nil .nil)) least
  have isOne : depth = 1 := Option.some_inj.mp (isDepth.symm.trans (by decide +kernel))
  subst isOne
  refine ⟨holds, _, rfl, by decide +kernel, ?_⟩
  obtain ⟨-, n, final, within, iterations, leaves, -⟩ := ends _ rfl
  exact ⟨n, final, within, iterations, leaves⟩

end Xv6.Cfs
