import Xv6.Kernel.Param

/-!
Contract: `struct proc` of `kernel/proc.h`, without the links of the run queue.

Owns: the process states, sleep channels and the per-process fields that the
scheduler, the process-table code and the trap handler read or write.

Does not own: `left`, `right`, `parentP` and `coloring`, which belong to the run
queue's shape; the address space, the open files and the saved registers.
-/

namespace Xv6.Kernel

/-- `enum procstate`. -/
inductive ProcState where
  | UNUSED
  | USED
  | SLEEPING
  | RUNNABLE
  | RUNNING
  | ZOMBIE
deriving DecidableEq, Repr

/-- An address a process sleeps on: `wait` uses the process itself, every other
caller some kernel object. -/
inductive Chan where
  | proc (p : ProcId)
  | object (address : Nat)
deriving DecidableEq, Repr

structure Proc where
  state : ProcState
  chan : Option Chan
  killed : Bool
  xstate : Int
  pid : Int
  parent : Option ProcId
  virtualRuntime : Int
  currentRuntime : Int
  maximumExecutiontime : Int
  niceValue : Int
  weightValue : Int
deriving DecidableEq, Repr

/-- A zeroed `struct proc`, as the loader leaves the process table. -/
def Proc.zero : Proc where
  state := .UNUSED
  chan := none
  killed := false
  xstate := 0
  pid := 0
  parent := none
  virtualRuntime := 0
  currentRuntime := 0
  maximumExecutiontime := 0
  niceValue := 0
  weightValue := 0

end Xv6.Kernel
