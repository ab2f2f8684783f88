import Xv6.Cfs.RunQueue

/-!
Contract: the process code of `kernel/proc.c` and the timer traps of
`kernel/trap.c` as a machine of interleaved threads.

A thread is a process or the scheduler loop of a CPU. Its stack lists what it
still has to do, one frame for each stretch of code between two points where
other CPUs can get in between: a frame acquires at most one lock, runs to the
next lock operation and leaves the rest of the call as further frames. A lock is
held by a CPU, as in the source, so that it survives the switch from a process
to the scheduler. Each section under `tree->lock` is one frame (`insert`) or one
step of the scheduler loop.

Owns: `userinit`, `fork`, `exit`, `wait`, `sleep`, `wakeup`, `kill`, `yield`,
`sched`, `scheduler` and the part of `usertrap` and `kerneltrap` that charges and
yields; the step function and reachability.

Does not own: what else a system call does between these calls. A process may
make any of them at any time, sleep on any channel and wake any channel; an
interrupt may arrive whenever the CPU holds no lock of this model and is not in a
trap handler. A failed lock test is a step that is not enabled.
-/

namespace Xv6.Sched

open Xv6.Kernel
open Xv6.Cfs

/-- The lock a sleeper gives up: `wait_lock`, or one outside this model. -/
inductive SleepLock where
  | waitLock
  | other
deriving DecidableEq, Repr

/-- A stretch of code still to be run. -/
inductive Frame where
  | insert (p : ProcId)
  | release (p : ProcId)
  | sched
  | yield
  | sleep (chan : Option Chan) (lk : SleepLock)
  /-- The rest of `sleep` after `sched` returns. -/
  | tidyUp
  | wakeup (chan : Option Chan) (slot : Nat)
  | kill (pid : Int) (slot : Nat)
  /-- `fork` in the loop of `allocproc`. -/
  | allocproc (slot : Nat)
  /-- `fork` at `acquire(&wait_lock)`. -/
  | forkParent (np : ProcId)
  /-- `fork` at the second `acquire(&np->lock)`. -/
  | forkRunnable (np : ProcId)
  /-- `acquire(&wait_lock)` -/
  | acquireWait
  /-- The loop of `reparent`, with `wait_lock` held. -/
  | reparent (slot : Nat)
  /-- `wakeup(p->parent)` in `exit`. -/
  | wakeParent
  /-- The end of `exit`, from `acquire(&p->lock)`. -/
  | zombie (status : Int)
  /-- The loop of `wait`, with `wait_lock` held. -/
  | wait (slot : Nat) (havekids : Bool)
  /-- `usertrap` on a timer interrupt, after `devintr`. -/
  | usertrap
  /-- `kerneltrap` on a timer interrupt, after `devintr`. -/
  | kerneltrap
  /-- The return from a trap. -/
  | trapret
  /-- `scheduler` with a retrieved process, before `acquire(&p->lock)`. -/
  | run (p : ProcId)
  /-- `scheduler` after `swtch` returns. -/
  | switchedBack (p : ProcId)
  | userinit
deriving DecidableEq, Repr

abbrev Thread := ProcId ⊕ CpuId

structure Kernel where
  memory : Memory
  /-- The CPU that holds `p->lock`. -/
  lock : ProcId → Option CpuId
  /-- The CPU that holds `wait_lock`. -/
  waitLock : Option CpuId
  /-- `c->proc` -/
  current : CpuId → Option ProcId
  stack : Thread → List Frame
  initproc : Option ProcId
  nextpid : Int
  /-- User-mode timer ticks charged to a process since `allocproc`. -/
  charged : ProcId → Nat

namespace Kernel

def thread (k : Kernel) (c : CpuId) : Thread :=
  match k.current c with
  | some p => .inl p
  | none => .inr c

@[simps -fullyApplied]
def goto (k : Kernel) (t : Thread) (frames : List Frame) : Kernel :=
  { k with stack := Function.update k.stack t frames }

@[simps -fullyApplied]
def setProc (k : Kernel) (p : ProcId) (fields : Proc) : Kernel :=
  { k with memory := k.memory.setProc p fields }

@[simps -fullyApplied]
def setLock (k : Kernel) (p : ProcId) (holder : Option CpuId) : Kernel :=
  { k with lock := Function.update k.lock p holder }

@[simps -fullyApplied]
def setCurrent (k : Kernel) (c : CpuId) (p : Option ProcId) : Kernel :=
  { k with current := Function.update k.current c p }

end Kernel

/-- The three assignments `yield`, `wakeup` and `kill` make before they insert a
process. -/
def requeued (fields : Proc) : Proc :=
  { fields with
    state := .RUNNABLE
    virtualRuntime := int32 (fields.virtualRuntime + fields.currentRuntime)
    currentRuntime := 0 }

def allocated (fields : Proc) (pid : Int) : Proc :=
  { fields with
    pid
    state := .USED
    virtualRuntime := 0
    currentRuntime := 0
    maximumExecutiontime := 0
    niceValue := 0 }

def freeproc (fields : Proc) : Proc :=
  { fields with
    pid := 0
    parent := none
    chan := none
    killed := false
    xstate := 0
    state := .UNUSED }

/-- `p->left = 0; p->right = 0; p->parentP = 0;` -/
def clearLinks (memory : Memory) (p : ProcId) : Memory :=
  { memory with rb := ((memory.rb.setLeft p none).setRight p none).setParent p none }

/-- `allocproc` on a free slot: the fields, the links, and a stack that starts at
`forkret`, which releases `p->lock`. -/
def Kernel.allocate (k : Kernel) (p : ProcId) : Kernel :=
  { k with
    memory := (clearLinks k.memory p).setProc p (allocated (k.memory.proc p) k.nextpid)
    stack := Function.update k.stack (.inl p) [.release p]
    nextpid := int32 (k.nextpid + 1)
    charged := Function.update k.charged p 0 }

/-- A pointer to a process used as a sleep channel. -/
def Chan.ofProc (p : Option ProcId) : Option Chan := p.map Chan.proc

/-- `exit`, from `acquire(&wait_lock)`. -/
def exitFrames (status : Int) : List Frame :=
  [.acquireWait, .reparent 0, .wakeParent, .zombie status]

/-! ## One frame at a time

Each function gets the executing CPU `c`, its thread `t` and the frames `rest`
below the one it runs. -/

section Frames

variable (k : Kernel) (c : CpuId) (t : Thread) (rest : List Frame)

def runInsert (p : ProcId) : Option Kernel := do
  let memory ← insertProcess k.memory p
  return { k with memory }.goto t rest

def runRelease (p : ProcId) : Option Kernel :=
  if k.lock p = some c then some ((k.setLock p none).goto t rest) else none

/-- `swtch` to the scheduler together with its `c->proc = 0`. A process without
its lock, or still `RUNNING`, panics. -/
def runSched : Option Kernel := do
  let p ← k.current c
  if k.lock p = some c ∧ (k.memory.proc p).state ≠ .RUNNING then
    some ((k.goto t rest).setCurrent c none)
  else
    none

def runYield : Option Kernel := do
  let p ← k.current c
  if k.lock p = none then
    if checkPreemption k.memory.proc p k.memory.min_vRuntime then
      some (((k.setProc p (requeued (k.memory.proc p))).setLock p (some c)).goto t
        (.insert p :: .sched :: .release p :: rest))
    else
      some (k.goto t rest)
  else
    none

def releaseSleepLock (lk : SleepLock) : Option CpuId :=
  match lk with
  | .waitLock => none
  | .other => k.waitLock

/-- What `sleep` still has to do after `sched` and the release of `p->lock`:
`acquire(lk)`. -/
def reacquire (lk : SleepLock) : List Frame :=
  match lk with
  | .waitLock => [.acquireWait]
  | .other => []

def runSleep (chan : Option Chan) (lk : SleepLock) : Option Kernel := do
  let p ← k.current c
  if k.lock p = none then
    let fields := { k.memory.proc p with chan, state := .SLEEPING }
    some (({ k with waitLock := releaseSleepLock k lk }.setProc p fields |>.setLock p
      (some c)).goto t (.sched :: .tidyUp :: (reacquire lk ++ rest)))
  else
    none

def runTidyUp : Option Kernel := do
  let p ← k.current c
  if k.lock p = some c then
    some (((k.setProc p { k.memory.proc p with chan := none }).setLock p none).goto t rest)
  else
    none

def runWakeup (chan : Option Chan) (slot : Nat) : Option Kernel :=
  if inTable : slot < NPROC then
    let p : ProcId := ⟨slot, inTable⟩
    if k.current c = some p then
      some (k.goto t (.wakeup chan (slot + 1) :: rest))
    else if k.lock p = none then
      if (k.memory.proc p).state = .SLEEPING ∧ (k.memory.proc p).chan = chan then
        some (((k.setProc p (requeued (k.memory.proc p))).setLock p (some c)).goto t
          (.insert p :: .release p :: .wakeup chan (slot + 1) :: rest))
      else
        some (k.goto t (.wakeup chan (slot + 1) :: rest))
    else
      none
  else
    some (k.goto t rest)

def runKill (pid : Int) (slot : Nat) : Option Kernel :=
  if inTable : slot < NPROC then
    let p : ProcId := ⟨slot, inTable⟩
    if k.lock p = none then
      if (k.memory.proc p).pid = pid then
        let fields := { k.memory.proc p with killed := true }
        if (k.memory.proc p).state = .SLEEPING then
          some (((k.setProc p (requeued fields)).setLock p (some c)).goto t
            (.insert p :: .release p :: rest))
        else
          some ((k.setProc p fields).goto t rest)
      else
        some (k.goto t (.kill pid (slot + 1) :: rest))
    else
      none
  else
    some (k.goto t rest)

/-- One round of the loop of `allocproc`, with the rest of `fork` up to
`release(&np->lock)`. When `ok` is false an allocation fails and the slot is
freed again. -/
def runAllocproc (ok : Bool) (slot : Nat) : Option Kernel :=
  if inTable : slot < NPROC then
    let p : ProcId := ⟨slot, inTable⟩
    if k.lock p = none then
      if (k.memory.proc p).state = .UNUSED then
        if ok then
          some ((k.allocate p).goto t (.forkParent p :: .forkRunnable p :: rest))
        else
          let k := k.allocate p
          some (((k.setProc p (freeproc (k.memory.proc p))).goto (.inl p) []).goto t rest)
      else
        some (k.goto t (.allocproc (slot + 1) :: rest))
    else
      none
  else
    some (k.goto t rest)

def runForkParent (np : ProcId) : Option Kernel :=
  if k.waitLock = none then
    some ((k.setProc np { k.memory.proc np with parent := k.current c }).goto t rest)
  else
    none

def runForkRunnable (np : ProcId) : Option Kernel :=
  if k.lock np = none then
    some ((k.setProc np { k.memory.proc np with state := .RUNNABLE }).goto t
      (.insert np :: rest))
  else
    none

def runAcquireWait : Option Kernel :=
  if k.waitLock = none then some ({ k with waitLock := some c }.goto t rest) else none

def runReparent (slot : Nat) : Option Kernel := do
  let p ← k.current c
  if inTable : slot < NPROC then
    let pp : ProcId := ⟨slot, inTable⟩
    if (k.memory.proc pp).parent = some p then
      some ((k.setProc pp { k.memory.proc pp with parent := k.initproc }).goto t
        (.wakeup (Chan.ofProc k.initproc) 0 :: .reparent (slot + 1) :: rest))
    else
      some (k.goto t (.reparent (slot + 1) :: rest))
  else
    some (k.goto t rest)

def runWakeParent : Option Kernel := do
  let p ← k.current c
  return k.goto t (.wakeup (Chan.ofProc (k.memory.proc p).parent) 0 :: rest)

/-- Nothing runs after the `sched` of `exit`. -/
def runZombie (status : Int) : Option Kernel := do
  let p ← k.current c
  if k.lock p = none then
    let fields := { k.memory.proc p with xstate := status, state := .ZOMBIE }
    some ((({ k with waitLock := none }.setProc p fields).setLock p (some c)).goto t [.sched])
  else
    none

/-- One round of the loop of `wait`. When `ok` is false `copyout` fails. -/
def runWait (ok : Bool) (slot : Nat) (havekids : Bool) : Option Kernel := do
  let p ← k.current c
  if inTable : slot < NPROC then
    let pp : ProcId := ⟨slot, inTable⟩
    if (k.memory.proc pp).parent = some p then
      if k.lock pp = none then
        if (k.memory.proc pp).state = .ZOMBIE then
          if ok then
            some (({ k with waitLock := none }.setProc pp
              (freeproc (k.memory.proc pp))).goto t rest)
          else
            some ({ k with waitLock := none }.goto t rest)
        else
          some (k.goto t (.wait (slot + 1) true :: rest))
      else
        none
    else
      some (k.goto t (.wait (slot + 1) havekids :: rest))
  else if k.lock p = none then
    if ¬ havekids ∨ (k.memory.proc p).killed then
      some ({ k with waitLock := none }.goto t rest)
    else
      some (k.goto t (.sleep (some (.proc p)) .waitLock :: .wait 0 false :: rest))
  else
    none

/-- `if(killed(p)) exit(-1);`, then the charge and `yield()`. -/
def runUsertrap : Option Kernel := do
  let p ← k.current c
  if k.lock p = none then
    if (k.memory.proc p).killed then
      if k.initproc = some p then none else some (k.goto t (exitFrames (-1) ++ rest))
    else
      let fields := k.memory.proc p
      some ({ k with charged := Function.update k.charged p (k.charged p + 1) }.setProc p
        { fields with currentRuntime := int32 (fields.currentRuntime + 1) } |>.goto t
        (.yield :: .trapret :: rest))
  else
    none

def runKerneltrap : Option Kernel :=
  match k.current c with
  | none => some (k.goto t (.trapret :: rest))
  | some p =>
      if (k.memory.proc p).state = .RUNNING then
        some (k.goto t (.yield :: .trapret :: rest))
      else
        some (k.goto t (.trapret :: rest))

/-- `scheduler` from `acquire(&p->lock)` to `swtch`. -/
def runRetrieved (p : ProcId) : Option Kernel :=
  if k.lock p = none then
    if (k.memory.proc p).state = .RUNNABLE then
      some ((((k.setProc p { k.memory.proc p with state := .RUNNING }).setLock p
        (some c)).goto t (.switchedBack p :: rest)).setCurrent c (some p))
    else
      some ((k.setLock p (some c)).goto t (.switchedBack p :: rest))
  else
    none

/-- `userinit`: the first free slot is the first process. -/
def runUserinit : Option Kernel := do
  let p ← (List.finRange NPROC).find? fun p => (k.memory.proc p).state = .UNUSED
  if k.lock p = none then
    let k := k.allocate p
    some (({ k with initproc := some p }.setProc p
      { k.memory.proc p with state := .RUNNABLE } |>.setLock p (some c)).goto t
      (.insert p :: .release p :: rest))
  else
    none

end Frames

/-- Runs `frame`, the top frame of thread `t`. `ok` says whether allocations and
copies to user memory succeed. -/
def execute (k : Kernel) (c : CpuId) (t : Thread) (ok : Bool) (frame : Frame)
    (rest : List Frame) : Option Kernel :=
  match frame with
  | .insert p => runInsert k t rest p
  | .release p => runRelease k c t rest p
  | .sched => runSched k c t rest
  | .yield => runYield k c t rest
  | .sleep chan lk => runSleep k c t rest chan lk
  | .tidyUp => runTidyUp k c t rest
  | .wakeup chan slot => runWakeup k c t rest chan slot
  | .kill pid slot => runKill k c t rest pid slot
  | .allocproc slot => runAllocproc k t rest ok slot
  | .forkParent np => runForkParent k c t rest np
  | .forkRunnable np => runForkRunnable k t rest np
  | .acquireWait => runAcquireWait k c t rest
  | .reparent slot => runReparent k c t rest slot
  | .wakeParent => runWakeParent k c t rest
  | .zombie status => runZombie k c t status
  | .wait slot havekids => runWait k c t rest ok slot havekids
  | .usertrap => runUsertrap k c t rest
  | .kerneltrap => runKerneltrap k c t rest
  | .trapret => some (k.goto t rest)
  | .run p => runRetrieved k c t rest p
  | .switchedBack p => runRelease k c t rest p
  | .userinit => runUserinit k c t rest

/-- One round of the loop of `scheduler` up to the return of `retrieveProcess`. -/
def schedule (k : Kernel) (c : CpuId) : Option Kernel := do
  let (memory, found) ← retrieveProcess k.memory
  match found with
  | none => return { k with memory }
  | some p => return { k with memory }.goto (.inr c) [.run p]

/-! ## Steps and reachable states -/

/-- The address of `ticks`, on which `sys_sleep` sleeps. -/
def ticksChan : Option Chan := some (.object 0)

/-- `clockintr` runs on CPU 0 only. -/
def clockintr (c : CpuId) : List Frame :=
  if c.val = 0 then [.wakeup ticksChan 0] else []

/-- What a process does next when no call of this model is in progress. -/
inductive Request where
  | fork
  | exit (status : Int)
  | wait
  | kill (pid : Int)
  | sleep (chan : Chan)
  | wakeup (chan : Chan)
  /-- A timer interrupt in user mode. -/
  | timer
  /-- Another interrupt in user mode. -/
  | device (chan : Chan)
deriving DecidableEq, Repr

/-- The frames of a request. `exit` of the first process panics. -/
def Request.frames (k : Kernel) (c : CpuId) (p : ProcId) : Request → Option (List Frame)
  | fork => some [.allocproc 0]
  | exit status => if k.initproc = some p then none else some (exitFrames status)
  | wait => some [.acquireWait, .wait 0 false]
  | kill pid => some [.kill pid 0]
  | sleep chan => some [.sleep (some chan) .other]
  | wakeup chan => some [.wakeup (some chan) 0]
  | timer => some (clockintr c ++ [.usertrap])
  | device chan => some [.wakeup (some chan) 0, .trapret]

inductive Interrupt where
  | timer
  | device (chan : Chan)
deriving DecidableEq, Repr

def Interrupt.frames (c : CpuId) : Interrupt → List Frame
  | timer => clockintr c ++ [.kerneltrap]
  | device chan => [.wakeup (some chan) 0, .trapret]

def Frame.inTrap : Frame → Bool
  | .usertrap => true
  | .kerneltrap => true
  | .trapret => true
  | _ => false

/-- Holding a lock and handling a trap both keep interrupts off. -/
def Kernel.Interruptible (k : Kernel) (c : CpuId) : Prop :=
  (∀ p, k.lock p ≠ some c) ∧ k.waitLock ≠ some c ∧
    ∀ frame ∈ k.stack (k.thread c), frame.inTrap = false

instance (k : Kernel) (c : CpuId) : Decidable (k.Interruptible c) :=
  inferInstanceAs (Decidable (_ ∧ _))

inductive Choice where
  /-- Run the top frame, or one round of the scheduler loop. -/
  | resume (ok : Bool)
  | request (request : Request)
  | interrupt (interrupt : Interrupt)
deriving DecidableEq, Repr

def step (k : Kernel) (c : CpuId) : Choice → Option Kernel
  | .resume ok =>
      match k.stack (k.thread c) with
      | frame :: rest => execute k c (k.thread c) ok frame rest
      | [] =>
          match k.current c with
          | none => schedule k c
          | some _ => none
  | .request request =>
      match k.current c, k.stack (k.thread c) with
      | some p, [] => (request.frames k c p).map (k.goto (.inl p))
      | _, _ => none
  | .interrupt interrupt =>
      if k.Interruptible c then
        some (k.goto (k.thread c) (interrupt.frames c ++ k.stack (k.thread c)))
      else
        none

/-- The process table and the run queue as `procinit` leaves them. -/
def bootMemory : Memory :=
  rbinit {
    proc := fun _ => Proc.zero
    rb := { root := none, node := fun _ => ⟨none, none, none, .red⟩ }
    count := 0
    rbTreeWeight := 0
    min_vRuntime := none
    period := 0 }

/-- Every CPU is in its scheduler loop; CPU 0 has `userinit` to run first. -/
def boot : Kernel where
  memory := bootMemory
  lock := fun _ => none
  waitLock := none
  current := fun _ => none
  stack := fun t => if t = .inr ⟨0, zero_lt_NCPU⟩ then [.userinit] else []
  initproc := none
  nextpid := 1
  charged := fun _ => 0

inductive Reachable : Kernel → Prop where
  | boot : Reachable boot
  | step {k k' : Kernel} {c : CpuId} {choice : Choice} (reachable : Reachable k)
      (stepped : step k c choice = some k') : Reachable k'

end Xv6.Sched
