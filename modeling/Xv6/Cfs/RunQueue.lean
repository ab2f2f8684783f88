import Xv6.Cfs.Shape
import Xv6.Cfs.Weight
import Xv6.Kernel.Proc

/-!
Contract: the run queue `rbTree` of `kernel/proc.c` with the process table it
links, and the operations on it.

Owns: `rbinit`, `insertproc`, `insertProcess`, `retrieveProcess`,
`checkPreemption` and `chprio` as state transformers. `none` is a null
dereference or a recursion deeper than `treeFuel`.

Does not own: the rotations and fix-up cases, which act on the shape alone, and
`tree->lock`: each operation runs in one critical section.
-/

namespace Xv6.Cfs

open Xv6.Kernel
open Xv6.RedBlack

/-- The process table and `struct redblackTree rbTree`. -/
structure Memory where
  proc : ProcId → Proc
  rb : Shape
  count : Int
  rbTreeWeight : Int
  min_vRuntime : Option ProcId
  period : Int

def Memory.setProc (memory : Memory) (p : ProcId) (fields : Proc) : Memory :=
  { memory with proc := Function.update memory.proc p fields }

def latency : Int := NPROC / 2

def min_granularity : Int := 2

def rbinit (memory : Memory) : Memory :=
  { memory with
    rb := { memory.rb with root := none }
    count := 0
    rbTreeWeight := 0
    min_vRuntime := none
    period := latency }

def emptyTree (memory : Memory) : Bool := memory.count = 0

def fullTree (memory : Memory) : Bool := memory.count = NPROC

/-- Descends to the null link where `insertingProcess` belongs and returns the
subtree. The colour and the `parentP` of the inserted process are written at
every level, the child link of each level on the way back. -/
def insertproc (proc : ProcId → Proc) :
    Nat → Shape → Option ProcId → ProcId → Option (Shape × Option ProcId)
  | 0, _, _, _ => none
  | fuel + 1, shape, traversingProcess, insertingProcess =>
      let shape := shape.setColor insertingProcess .red
      match traversingProcess with
      | none => some (shape, some insertingProcess)
      | some traversing =>
          let shape := shape.setParent insertingProcess (some traversing)
          if (proc traversing).virtualRuntime ≤
              (proc insertingProcess).virtualRuntime then do
            let (shape, subtree) ←
              insertproc proc fuel shape (shape.node traversing).right insertingProcess
            return (shape.setRight traversing subtree, some traversing)
          else do
            let (shape, subtree) ←
              insertproc proc fuel shape (shape.node traversing).left insertingProcess
            return (shape.setLeft traversing subtree, some traversing)

/-- `if(tree->count == 0) tree->root->parentP = 0;` -/
def clearRootParent (count : Int) (shape : Shape) : Option Shape :=
  if count = 0 then do
    let top ← shape.root
    some (shape.setParent top none)
  else
    some shape

/-- `if(tree->min_vRuntime == 0 || tree->min_vRuntime->left != 0)` and the
assignment it guards. -/
def refreshMinimum (shape : Shape) (min_vRuntime : Option ProcId) :
    Option (Option ProcId) :=
  match min_vRuntime with
  | none => setMinimumVRuntimeproc treeFuel shape shape.root
  | some minimum =>
      if (shape.node minimum).left ≠ none then
        setMinimumVRuntimeproc treeFuel shape shape.root
      else
        some min_vRuntime

def insertProcess (memory : Memory) (p : ProcId) : Option Memory :=
  if !fullTree memory then do
    let (rb, root) ← insertproc memory.proc treeFuel memory.rb memory.rb.root p
    let rb := { rb with root := root }
    let rb ← clearRootParent memory.count rb
    let weightValue := calculateWeight (memory.proc p).niceValue
    let rbTreeWeight := int32 (memory.rbTreeWeight + weightValue)
    let rb ← insertionCases treeFuel rb p 1
    let min_vRuntime ← refreshMinimum rb memory.min_vRuntime
    return {
      proc := Function.update memory.proc p { memory.proc p with weightValue }
      rb
      count := int32 (memory.count + 1)
      rbTreeWeight
      min_vRuntime
      period := memory.period }
  else
    some memory

/-- The period a call uses: recomputed above the threshold, otherwise the one
already stored. -/
def nextPeriod (memory : Memory) : Int :=
  if memory.count > latency / min_granularity then
    int32 (memory.count * min_granularity)
  else
    memory.period

def timeSlice (period weightValue rbTreeWeight : Int) : Int :=
  divw (int32 (period * weightValue)) rbTreeWeight

theorem timeSlice_lt (period weightValue rbTreeWeight : Int) :
    timeSlice period weightValue rbTreeWeight < 2 ^ 31 := by
  unfold timeSlice divw
  split
  · decide
  · exact int32_lt _

def retrieveProcess (memory : Memory) : Option (Memory × Option ProcId) :=
  if !emptyTree memory then do
    let memory := { memory with period := nextPeriod memory }
    let foundProcess ← memory.min_vRuntime
    if (memory.proc foundProcess).state ≠ .RUNNABLE then
      return (memory, none)
    else do
      let rb ← retrievingCases treeFuel memory.rb (memory.rb.node foundProcess).parent
        memory.min_vRuntime 1
      let min_vRuntime ← setMinimumVRuntimeproc treeFuel rb rb.root
      let found := memory.proc foundProcess
      let maximumExecutiontime :=
        timeSlice memory.period found.weightValue memory.rbTreeWeight
      return ({
        proc := Function.update memory.proc foundProcess { found with maximumExecutiontime }
        rb
        count := int32 (memory.count - 1)
        rbTreeWeight := int32 (memory.rbTreeWeight - found.weightValue)
        min_vRuntime
        period := memory.period }, some foundProcess)
  else
    some (memory, none)

/-- Whether the running process gives up the CPU in favour of `min_vruntime`. -/
def checkPreemption (proc : ProcId → Proc) (current : ProcId)
    (min_vruntime : Option ProcId) : Bool :=
  let procRuntime := (proc current).currentRuntime
  if procRuntime ≥ (proc current).maximumExecutiontime ∧ procRuntime ≥ min_granularity then
    true
  else
    match min_vruntime with
    | none => false
    | some minimum =>
        if (proc minimum).state = .RUNNABLE ∧
            (proc current).virtualRuntime > (proc minimum).virtualRuntime then
          if procRuntime ≠ 0 ∧ procRuntime ≥ min_granularity then true
          else if procRuntime = 0 then true
          else false
        else
          false

/-- The slot `chprio` writes: the first one with the given pid. -/
def slotOfPid (memory : Memory) (pid : Int) : Option ProcId :=
  (List.finRange NPROC).find? fun p => (memory.proc p).pid = pid

def chprio (memory : Memory) (pid priority : Int) : Memory :=
  match slotOfPid memory pid with
  | none => memory
  | some p =>
      memory.setProc p { memory.proc p with
        niceValue := priority
        weightValue := calculateWeight priority }

end Xv6.Cfs
