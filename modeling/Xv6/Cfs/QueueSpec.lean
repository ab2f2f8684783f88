import Xv6.Cfs.RunQueue
import Xv6.Cfs.InsertFix
import Xv6.Cfs.RemoveFix
import Xv6.RedBlack.Search

/-!
Contract: one specification for each run-queue operation, in terms of the queue
that the tree holds.

Owns: `Memory.Holds`, the invariant of the run queue, and the specifications of
`rbinit`, `insertProcess` and `retrieveProcess`: they return, they keep the
invariant, they act on the queue as `enqueue` and `tail`, and they write nothing
else than what is listed.
-/

namespace Xv6.Cfs

open Xv6.Kernel
open Xv6.RedBlack

def Memory.virtualRuntime (memory : Memory) (p : ProcId) : Int :=
  (memory.proc p).virtualRuntime

/-- The run queue holds `queue`: a balanced tree with this in-order sequence,
ordered by `virtualRuntime`, counted, and with its first process cached. -/
structure Memory.Holds (memory : Memory) (queue : List ProcId) : Prop where
  tree : ∃ tree height, memory.rb.Holds tree ∧ tree.keys = queue ∧
    tree.Balanced .black height
  ordered : Queue.Ordered memory.virtualRuntime queue
  count : memory.count = queue.length
  minimum : memory.min_vRuntime = queue.head?

variable {memory : Memory} {shape : Shape} {tree left right new : RedBlack.Tree ProcId}
  {queue : List ProcId} {p x : ProcId} {color : Color} {parent : Option ProcId}
  {turn : ProcId → Bool} {height : Nat}

theorem Memory.Holds.nodup (holds : memory.Holds queue) : queue.Nodup := by
  obtain ⟨tree, _, shape, keys, _⟩ := holds.tree
  rw [← keys]
  exact shape.distinct

theorem length_le_of_nodup (distinct : queue.Nodup) :
    queue.length ≤ NPROC := by
  simpa using distinct.length_le_card

/-- A process is missing, so the queue is not full. -/
theorem length_lt_of_not_mem
    (distinct : queue.Nodup) (missing : p ∉ queue) : queue.length < NPROC := by
  have longer : (p :: queue).Nodup := List.nodup_cons.mpr ⟨missing, distinct⟩
  have bound := length_le_of_nodup longer
  rwa [List.length_cons] at bound

theorem Memory.Holds.rbinit (memory : Memory) : (rbinit memory).Holds [] where
  tree := ⟨.nil, 0, ⟨rfl, trivial, by simp⟩, rfl, .nil⟩
  ordered := List.Pairwise.nil
  count := rfl
  minimum := rfl

/-- Writes that spare the tree and, for queued processes, links and key. -/
theorem Memory.Holds.congr {memory' : Memory}
    (holds : memory.Holds queue) (root : memory'.rb.root = memory.rb.root)
    (node : ∀ q ∈ queue, memory'.rb.node q = memory.rb.node q)
    (key : ∀ q ∈ queue, memory'.virtualRuntime q = memory.virtualRuntime q)
    (count : memory'.count = memory.count)
    (minimum : memory'.min_vRuntime = memory.min_vRuntime) : memory'.Holds queue where
  tree := by
    obtain ⟨tree, height, shape, keys, balanced⟩ := holds.tree
    rw [← keys] at node
    exact ⟨tree, height, shape.congr root node, keys, balanced⟩
  ordered := holds.ordered.congr key
  count := count.trans holds.count
  minimum := minimum.trans holds.minimum

/-! ## The cached minimum -/

theorem setMinimumVRuntimeproc_eq {fuel : Nat} (rep : tree.Rep shape.node parent)
    (enough : tree.keys.length < fuel) :
    setMinimumVRuntimeproc fuel shape tree.root? = some tree.keys.head? := by
  induction tree generalizing parent fuel with
  | nil =>
      obtain ⟨fuel, rfl⟩ : ∃ less, fuel = less + 1 := ⟨fuel - 1, by omega⟩
      rfl
  | node color left x right leftRule _ =>
      obtain ⟨fuel, rfl⟩ : ∃ less, fuel = less + 1 := ⟨fuel - 1, by omega⟩
      obtain ⟨atX, leftRep, _⟩ := rep
      simp only [RedBlack.Tree.keys_node, List.length_append, List.length_cons] at enough
      cases left with
      | nil => simp [setMinimumVRuntimeproc, atX]
      | node leftColor a y b =>
          have below := leftRule leftRep (by omega : _ < fuel)
          have present : (shape.node x).left ≠ none := by simp [atX]
          simp only [RedBlack.Tree.root?_node] at below ⊢
          rw [setMinimumVRuntimeproc, if_pos present, atX, RedBlack.Tree.root?_node, below,
            RedBlack.Tree.keys_node, RedBlack.Tree.keys_node, List.head?_append]
          cases first : a.keys <;> simp [first]

theorem Shape.Holds.setMinimum (holds : shape.Holds tree) :
    setMinimumVRuntimeproc treeFuel shape shape.root = some tree.keys.head? := by
  have bound := length_le_of_nodup holds.distinct
  have enough : tree.keys.length < treeFuel := by
    unfold treeFuel NPROC at *
    omega
  rw [holds.root]
  exact setMinimumVRuntimeproc_eq holds.rep enough

/-! ## Insertion -/

/-- The turn `insertproc` takes at a process. -/
def goesRight (proc : ProcId → Proc) (p traversing : ProcId) : Bool :=
  decide ((proc traversing).virtualRuntime ≤ (proc p).virtualRuntime)

theorem setRight_rep (atX : shape.node x = ⟨left.root?, right.root?, parent, color⟩)
    (leftRep : left.Rep shape.node (some x)) (newRep : new.Rep shape.node (some x))
    (notLeft : x ∉ left.keys) (notNew : x ∉ new.keys) :
    (RedBlack.Tree.node color left x new).Rep (shape.setRight x new.root?).node parent := by
  have elsewhere : ∀ q, q ≠ x → (shape.setRight x new.root?).node q = shape.node q := by
    intro q different
    simp [different]
  refine ⟨by simp [atX], leftRep.congr fun q member => elsewhere q ?_,
    newRep.congr fun q member => elsewhere q ?_⟩
  · rintro rfl
    exact notLeft member
  · rintro rfl
    exact notNew member

theorem setLeft_rep (atX : shape.node x = ⟨left.root?, right.root?, parent, color⟩)
    (newRep : new.Rep shape.node (some x)) (rightRep : right.Rep shape.node (some x))
    (notNew : x ∉ new.keys) (notRight : x ∉ right.keys) :
    (RedBlack.Tree.node color new x right).Rep (shape.setLeft x new.root?).node parent := by
  have elsewhere : ∀ q, q ≠ x → (shape.setLeft x new.root?).node q = shape.node q := by
    intro q different
    simp [different]
  refine ⟨by simp [atX], newRep.congr fun q member => elsewhere q ?_,
    rightRep.congr fun q member => elsewhere q ?_⟩
  · rintro rfl
    exact notNew member
  · rintro rfl
    exact notRight member

/-- `insertproc` hangs `p` as a red leaf. `parentP` of `p` is right as soon as the
descent has passed one process. -/
theorem insertproc_places {proc : ProcId → Proc} {fuel : Nat}
    (rep : tree.Rep shape.node parent) (distinct : (p :: tree.keys).Nodup)
    (leaf : (shape.node p).left = none ∧ (shape.node p).right = none)
    (hung : tree = .nil → (shape.node p).parent = parent)
    (enough : tree.keys.length < fuel) :
    ∃ shape', insertproc proc fuel shape tree.root? p =
        some (shape', (tree.place (goesRight proc p) p).root?) ∧
      (tree.place (goesRight proc p) p).Rep shape'.node parent ∧
      shape'.root = shape.root ∧ Shape.SameOff (p :: tree.keys) shape shape' := by
  induction tree generalizing shape parent fuel with
  | nil =>
      obtain ⟨fuel, rfl⟩ : ∃ less, fuel = less + 1 := ⟨fuel - 1, by omega⟩
      refine ⟨shape.setColor p .red, rfl, ⟨?_, trivial, trivial⟩, rfl,
        setColor_sameOff (by simp) .red⟩
      simp [Shape.node_setColor, leaf, hung]
  | node color left x right leftRule rightRule =>
      obtain ⟨fuel, rfl⟩ : ∃ less, fuel = less + 1 := ⟨fuel - 1, by omega⟩
      obtain ⟨atX, leftRep, rightRep⟩ := rep
      have marked : ∀ q, q ≠ p →
          ((shape.setColor p .red).setParent p (some x)).node q = shape.node q := by
        intro q different
        simp [Shape.node_setColor, different]
      have hangs : ∀ subtree : RedBlack.Tree ProcId, subtree = .nil →
          (((shape.setColor p .red).setParent p (some x)).node p).parent = some x := by
        intro _ _
        simp
      have leaf' : (((shape.setColor p .red).setParent p (some x)).node p).left = none ∧
          (((shape.setColor p .red).setParent p (some x)).node p).right = none := by
        simpa using leaf
      simp only [RedBlack.Tree.keys_node, List.nodup_cons, List.nodup_append, List.mem_append,
        List.mem_cons, List.length_append, List.length_cons, not_or] at distinct enough
      obtain ⟨⟨pLeft, px, pRight⟩, leftDistinct, ⟨xRight, rightDistinct⟩, across⟩ := distinct
      have atX' := marked x (Ne.symm px)
      have xLeft : x ∉ left.keys := fun member => across x member x (.inl rfl) rfl
      have notPlaced : ∀ subtree : RedBlack.Tree ProcId, x ∉ subtree.keys →
          x ∉ (subtree.place (goesRight proc p) p).keys := by
        intro subtree missing member
        have placed := (RedBlack.Tree.keys_place_perm _ _ _).subset member
        rcases List.mem_cons.mp placed with same | inside
        · exact px same.symm
        · exact missing inside
      by_cases turn : (proc x).virtualRuntime ≤ (proc p).virtualRuntime
      · obtain ⟨shape', inserted, placed, sameRoot, off⟩ := rightRule
          (rightRep.congr fun q member => marked q (by rintro rfl; exact pRight member))
          (List.nodup_cons.mpr ⟨pRight, rightDistinct⟩) leaf' (hangs right)
          (by omega : _ < fuel)
        have kept : shape'.node x = ⟨left.root?, right.root?, parent, color⟩ := by
          rw [off x (by simp [xRight, Ne.symm px]), atX', atX]
        have leftRep' : left.Rep shape'.node (some x) := by
          refine leftRep.congr fun q member => ?_
          have different : q ≠ p := by
            rintro rfl
            exact pLeft member
          rw [off q (by grind), marked q different]
        refine ⟨shape'.setRight x (right.place (goesRight proc p) p).root?, ?_, ?_,
          sameRoot, ?_⟩
        · rw [RedBlack.Tree.root?_node, insertproc]
          simp only [turn, if_true, atX', atX, inserted]
          simp
        · simpa [RedBlack.Tree.place, goesRight, turn] using
            setRight_rep kept leftRep' placed xLeft (notPlaced right xRight)
        · intro q outside
          simp only [RedBlack.Tree.keys_node, List.mem_cons, List.mem_append, not_or] at outside
          obtain ⟨qp, _, qx, qRight⟩ := outside
          rw [Shape.node_setRight, if_neg qx, off q (by simp [qp, qRight]), marked q qp]
      · obtain ⟨shape', inserted, placed, sameRoot, off⟩ := leftRule
          (leftRep.congr fun q member => marked q (by rintro rfl; exact pLeft member))
          (List.nodup_cons.mpr ⟨pLeft, leftDistinct⟩) leaf' (hangs left)
          (by omega : _ < fuel)
        have kept : shape'.node x = ⟨left.root?, right.root?, parent, color⟩ := by
          rw [off x (by simp [xLeft, Ne.symm px]), atX', atX]
        have rightRep' : right.Rep shape'.node (some x) := by
          refine rightRep.congr fun q member => ?_
          have different : q ≠ p := by
            rintro rfl
            exact pRight member
          rw [off q (by grind), marked q different]
        refine ⟨shape'.setLeft x (left.place (goesRight proc p) p).root?, ?_, ?_,
          sameRoot, ?_⟩
        · rw [RedBlack.Tree.root?_node, insertproc]
          simp only [turn, if_false, atX', atX, inserted]
          simp
        · simpa [RedBlack.Tree.place, goesRight, turn] using
            setLeft_rep kept placed rightRep' (notPlaced left xLeft) xRight
        · intro q outside
          simp only [RedBlack.Tree.keys_node, List.mem_cons, List.mem_append, not_or] at outside
          obtain ⟨qp, qLeft, qx, _⟩ := outside
          rw [Shape.node_setLeft, if_neg qx, off q (by simp [qp, qLeft]), marked q qp]

/-- The tree between `insertproc` and the fix-up: the root is stored, and its
`parentP` is cleared when `p` is the first process. -/
theorem insertproc_attaches (holds : memory.rb.Holds tree) (count : memory.count = tree.keys.length)
    (missing : p ∉ tree.keys)
    (leaf : (memory.rb.node p).left = none ∧ (memory.rb.node p).right = none) :
    ∃ rb root hung,
      insertproc memory.proc treeFuel memory.rb memory.rb.root p = some (rb, root) ∧
      clearRootParent memory.count { rb with root := root } = some hung ∧
      hung.Holds (tree.place (goesRight memory.proc p) p) ∧
      Shape.SameOff (p :: tree.keys) memory.rb hung := by
  have distinct : (p :: tree.keys).Nodup := List.nodup_cons.mpr ⟨missing, holds.distinct⟩
  have placedDistinct : (tree.place (goesRight memory.proc p) p).keys.Nodup :=
    (RedBlack.Tree.keys_place_perm _ _ _).nodup_iff.mpr distinct
  cases tree with
  | nil =>
      have isEmpty : memory.count = 0 := by simpa using count
      refine ⟨memory.rb.setColor p .red, some p, _, ?_, by simp [clearRootParent, isEmpty]; rfl,
        ⟨rfl, ⟨?_, trivial, trivial⟩, placedDistinct⟩, ?_⟩
      · rw [holds.root]
        rfl
      · simp [Shape.node_setColor, leaf]
      · intro q outside
        have different : q ≠ p := by simpa using outside
        simp [Shape.node_setColor, different]
  | node color left x right =>
      have notEmpty : memory.count ≠ 0 := by
        rw [count, RedBlack.Tree.keys_node]
        simp
        omega
      have bound := length_le_of_nodup holds.distinct
      have enough : (RedBlack.Tree.node color left x right).keys.length < treeFuel := by
        unfold treeFuel NPROC at *
        omega
      obtain ⟨rb, inserted, placed, _, off⟩ := insertproc_places holds.rep distinct leaf
        (fun impossible => by cases impossible) enough
      rw [← holds.root] at inserted
      exact ⟨rb, _, { rb with root := _ }, inserted, if_neg notEmpty,
        ⟨rfl, placed, placedDistinct⟩, off⟩

theorem path_enough {path : Path ProcId}
    (distinct : (Path.plug path tree).keys.Nodup) : 2 * path.length + 5 ≤ treeFuel := by
  have depth := Path.length_le_keys path tree
  have bound := length_le_of_nodup distinct
  unfold treeFuel NPROC at *
  omega

theorem insertionCases_place (placed : shape.Holds (tree.place turn p))
    (balanced : tree.Balanced .black height) :
    Repairs shape (tree.place turn p) (insertionCases treeFuel shape p 1) := by
  obtain ⟨path, before, after⟩ := RedBlack.Tree.exists_place_eq_plug turn p tree
  rw [before] at balanced
  rw [after] at placed ⊢
  obtain ⟨color, _, leafBalanced, pathBalanced⟩ := Path.Balanced.of_plug balanced
  cases leafBalanced
  exact insertionCases_repairs placed .nil .nil pathBalanced
    (path_enough placed.distinct)

/-- A new first process is still the left child of the old one after the fix-up. -/
theorem insertionCases_seen {shape' : Shape} {m : ProcId} (placed : shape.Holds (tree.place turn p))
    (balanced : tree.Balanced .black height)
    (neverRight : ∀ q ∈ tree.keys, turn q = false) (first : tree.keys.head? = some m)
    (returned : insertionCases treeFuel shape p 1 = some shape') :
    (shape'.node m).left ≠ none := by
  obtain ⟨path, spine, parent, before, after⟩ := RedBlack.Tree.exists_place_onLeft neverRight
  rw [before] at balanced
  rw [after] at placed
  obtain ⟨color, _, leafBalanced, pathBalanced⟩ := Path.Balanced.of_plug balanced
  cases leafBalanced
  have kept := insertionCases_keeps_left spine placed pathBalanced
    (path_enough placed.distinct) returned m (.inr (parent.trans first))
  cases path with
  | nil =>
      rw [first] at parent
      cases parent
  | cons frame rest =>
      have onLeft : frame.side = .left := spine frame List.mem_cons_self
      have isParent : frame.key = m := by
        rw [first] at parent
        exact Option.some.inj parent
      have atM := placed.frame_eq
      rw [isParent] at atM
      simp [kept, atM, Frame.links, onLeft]

/-- The cached minimum after an insertion. When `p` is the new first process it
hangs to the left of the old one, so that the test of `min_vRuntime->left` sees
it. -/
theorem refreshMinimum_eq {rb : Shape} {key : ProcId → Int} (holds : rb.Holds tree)
    (keys : tree.keys = Queue.enqueue key p queue)
    (seen : ∀ minimum rest, queue = minimum :: rest → key p < key minimum →
      (rb.node minimum).left ≠ none) :
    refreshMinimum rb queue.head? = some (Queue.enqueue key p queue).head? := by
  have searched := holds.setMinimum
  rw [keys] at searched
  cases queue with
  | nil => exact searched
  | cons minimum rest =>
      unfold refreshMinimum
      simp only [List.head?_cons]
      by_cases found : (rb.node minimum).left ≠ none
      · rw [if_pos found, searched]
      · rw [if_neg found, Queue.head?_enqueue_cons]
        by_cases before : key minimum ≤ key p
        · rw [if_pos before]
        · exact absurd (seen minimum rest rfl (not_le.mp before)) found

/-- **Insertion.** The process goes directly after every queued process with a
`virtualRuntime` at most its own. -/
theorem insertProcess_spec (holds : memory.Holds queue) (missing : p ∉ queue)
    (leaf : (memory.rb.node p).left = none ∧ (memory.rb.node p).right = none) :
    ∃ memory', insertProcess memory p = some memory' ∧
      memory'.Holds (Queue.enqueue memory.virtualRuntime p queue) ∧
      memory'.proc = Function.update memory.proc p { memory.proc p with
        weightValue := calculateWeight (memory.proc p).niceValue } ∧
      memory'.rbTreeWeight =
        int32 (memory.rbTreeWeight + calculateWeight (memory.proc p).niceValue) ∧
      memory'.period = memory.period ∧
      ∀ q ∉ p :: queue, memory'.rb.node q = memory.rb.node q := by
  obtain ⟨tree, height, shape, rfl, balanced⟩ := holds.tree
  obtain ⟨rb, root, hung, inserted, attached, placed, off⟩ :=
    insertproc_attaches shape holds.count missing leaf
  have ordered := holds.ordered
  have placedKeys : (tree.place (goesRight memory.proc p) p).keys =
      Queue.enqueue memory.virtualRuntime p tree.keys := RedBlack.Tree.keys_place ordered
  have small := length_lt_of_not_mem shape.distinct missing
  obtain ⟨rb', tree', height', fixed, result, resultKeys, resultBalanced, fixedOff⟩ :=
    insertionCases_place placed balanced
  rw [placedKeys] at resultKeys fixedOff
  have seen : ∀ minimum rest, tree.keys = minimum :: rest →
      memory.virtualRuntime p < memory.virtualRuntime minimum →
      (rb'.node minimum).left ≠ none := by
    intro minimum rest isQueue smaller
    have first : tree.keys.head? = some minimum := by rw [isQueue]; rfl
    refine insertionCases_seen placed balanced (fun q member => ?_) first fixed
    have above : memory.virtualRuntime minimum ≤ memory.virtualRuntime q := by
      rw [isQueue] at ordered member
      exact ordered.head_le q member
    exact decide_eq_false (not_le.mpr (smaller.trans_le above))
  have refreshed := refreshMinimum_eq result resultKeys seen
  rw [← holds.minimum] at refreshed
  have notFull : fullTree memory = false := by
    simp only [fullTree, holds.count, decide_eq_false_iff_not]
    omega
  have counted : int32 (memory.count + 1) = tree.keys.length + 1 := by
    rw [holds.count]
    unfold NPROC at small
    exact int32_of_range (by omega) (by omega)
  have evaluated : insertProcess memory p = some {
      proc := Function.update memory.proc p { memory.proc p with
        weightValue := calculateWeight (memory.proc p).niceValue }
      rb := rb'
      count := int32 (memory.count + 1)
      rbTreeWeight :=
        int32 (memory.rbTreeWeight + calculateWeight (memory.proc p).niceValue)
      min_vRuntime := (Queue.enqueue memory.virtualRuntime p tree.keys).head?
      period := memory.period } := by
    simp [insertProcess, notFull, inserted, attached, fixed, refreshed]
  refine ⟨_, evaluated, ?_, rfl, rfl, rfl, ?_⟩
  · have sameKey : ∀ q, (Function.update memory.proc p { memory.proc p with
        weightValue := calculateWeight (memory.proc p).niceValue } q).virtualRuntime =
        memory.virtualRuntime q := by
      intro q
      by_cases same : q = p
      · rw [same, Function.update_self]
        rfl
      · rw [Function.update_of_ne same]
        rfl
    exact {
      tree := ⟨tree', height', result, resultKeys, resultBalanced⟩
      ordered := ordered.enqueue.congr fun q _ => sameKey q
      count := by rw [Queue.length_enqueue]; exact_mod_cast counted
      minimum := rfl }
  · intro q outside
    have notPlaced : q ∉ Queue.enqueue memory.virtualRuntime p tree.keys := by
      rw [Queue.mem_enqueue, not_or]
      simpa using outside
    exact (fixedOff q notPlaced).trans (off q outside)

/-! ## Retrieval -/

theorem retrieveProcess_empty (holds : memory.Holds []) :
    retrieveProcess memory = some (memory, none) := by
  have isEmpty : emptyTree memory = true := by simp [emptyTree, holds.count]
  simp [retrieveProcess, isEmpty]

/-- **Retrieval.** A runnable first process leaves the queue with its time slice
set and its links cleared. -/
theorem retrieveProcess_spec
    (holds : memory.Holds (p :: queue)) (runnable : (memory.proc p).state = .RUNNABLE) :
    ∃ memory', retrieveProcess memory = some (memory', some p) ∧
      memory'.Holds queue ∧
      memory'.proc = Function.update memory.proc p { memory.proc p with
        maximumExecutiontime := timeSlice (nextPeriod memory) (memory.proc p).weightValue
          memory.rbTreeWeight } ∧
      memory'.rbTreeWeight = int32 (memory.rbTreeWeight - (memory.proc p).weightValue) ∧
      memory'.period = nextPeriod memory ∧
      (∀ q ∉ p :: queue, memory'.rb.node q = memory.rb.node q) ∧
      (memory'.rb.node p).left = none ∧ (memory'.rb.node p).right = none := by
  obtain ⟨tree, height, shape, keys, balanced⟩ := holds.tree
  have first : tree.keys.head? = some p := by rw [keys]; rfl
  have bound := length_le_of_nodup shape.distinct
  have enough : tree.keys.length + 1 ≤ treeFuel := by
    unfold treeFuel NPROC at *
    omega
  obtain ⟨rb, tree', height', removed, result, resultKeys, resultBalanced, off, noLeft,
    noRight⟩ := retrievingCases_removes shape balanced first enough
  rw [keys, List.tail_cons] at resultKeys
  have searched := result.setMinimum
  rw [resultKeys] at searched
  have cached : memory.min_vRuntime = some p := holds.minimum
  have notEmpty : emptyTree memory = false := by
    simp only [emptyTree, holds.count, decide_eq_false_iff_not, List.length_cons]
    omega
  have counted : int32 (memory.count - 1) = queue.length := by
    rw [keys, List.length_cons] at bound
    unfold NPROC at bound
    rw [holds.count, List.length_cons]
    rw [int32_of_range (by omega) (by omega)]
    omega
  have evaluated : retrieveProcess memory = some ({
      proc := Function.update memory.proc p { memory.proc p with
        maximumExecutiontime := timeSlice (nextPeriod memory) (memory.proc p).weightValue
          memory.rbTreeWeight }
      rb
      count := int32 (memory.count - 1)
      rbTreeWeight := int32 (memory.rbTreeWeight - (memory.proc p).weightValue)
      min_vRuntime := queue.head?
      period := nextPeriod memory }, some p) := by
    simp [retrieveProcess, notEmpty, cached, runnable, removed, searched]
  refine ⟨_, evaluated, ?_, rfl, rfl, rfl, ?_, noLeft, noRight⟩
  · exact {
      tree := ⟨tree', height', result, resultKeys, resultBalanced⟩
      ordered := by
        refine holds.ordered.tail.congr fun q _ => ?_
        by_cases same : q = p
        · simp [Memory.virtualRuntime, same]
        · simp [Memory.virtualRuntime, same]
      count := counted
      minimum := rfl }
  · rw [keys] at off
    exact off

end Xv6.Cfs
