import Xv6.Kernel.Proc
import Xv6.Runs.Reachable

/-!
Contract: `fork`, `exit`, `wait` and `kill` of `kernel/proc.c` by interleaved processes.

A step is one section under a `p->lock`, or one stretch of code under `wait_lock` between two
such sections. `p->lock` is held across steps where the source holds it across a switch: from
`SLEEPING`, `RUNNABLE` or `ZOMBIE` to the scheduler's `release`, and from the scheduler's
`acquire` to the end of `sleep`, `yield` or `forkret`. The process table has `n` slots.

Owns: `allocproc`, `freeproc`, `fork`, `reparent`, `exit`, `wait`, `sleep`, `wakeup`, `kill`,
`killed`, `yield`, and what `scheduler` does to a process; the step function. A history of forks,
exits, reapings and returned values, which no code reads.

Does not own: the run queue: any `RUNNABLE` process may be picked. User memory: a step says
whether `kalloc` or `copyout` fails. The open files and the current directory.
-/

namespace Xv6.Family

open Xv6.Kernel
open Function

/-- What a process sleeps on: `wait` uses the process itself. -/
inductive Channel (n : Nat) where
  | proc (p : Fin n)
  | other (address : Nat)
deriving DecidableEq, Repr

/-- The fields of `struct proc` that these functions read or write. -/
structure Proc (n : Nat) where
  state : ProcState
  chan : Option (Channel n)
  killed : Bool
  xstate : Int
  pid : Int
  parent : Option (Fin n)
deriving DecidableEq, Repr

/-- Where `wakeup` returns to. -/
inductive After where
  | user
  | reparent (status : Int) (slot : Nat)
  | zombie (status : Int)
deriving DecidableEq, Repr

/-- The next section of a process. -/
inductive Point (n : Nat) where
  /-- Outside the functions of this model. -/
  | user
  /-- The loop of `allocproc`, in `fork`. -/
  | allocproc (slot : Nat)
  /-- `acquire(&wait_lock); np->parent = p; release(&wait_lock);` -/
  | forkParent (np : Fin n)
  /-- `acquire(&np->lock); np->state = RUNNABLE; release(&np->lock);` -/
  | forkRunnable (np : Fin n)
  /-- `acquire(&wait_lock)` in `exit` -/
  | exit (status : Int)
  /-- The loop of `reparent`, with `wait_lock` held. -/
  | reparent (status : Int) (slot : Nat)
  /-- `wakeup(p->parent)`, with `wait_lock` held. -/
  | wakeParent (status : Int)
  /-- The loop of `wakeup`. -/
  | wakeup (chan : Option (Channel n)) (slot : Nat) (after : After)
  /-- The end of `exit`, from `acquire(&p->lock)`, with `wait_lock` held. -/
  | zombie (status : Int)
  /-- Nothing runs after the `sched` of `exit`. -/
  | dead
  /-- `acquire(&wait_lock)` in `wait`, at its start or at the end of `sleep`. -/
  | wait (addr : Nat)
  /-- The loop of `wait`, with `wait_lock` held. -/
  | scan (addr : Nat) (slot : Nat) (havekids : Bool)
  /-- `sleep(p, &wait_lock)`, with `wait_lock` held. -/
  | sleep (addr : Nat)
  /-- `release(&wait_lock)` and the return from `wait`. -/
  | waitDone (value : Int)
  /-- In `sleep`, after `sched`; with an address if `wait` has called it. -/
  | slept (addr : Option Nat)
  /-- The loop of `kill`. -/
  | kill (pid : Int) (slot : Nat)
deriving DecidableEq, Repr

/-- Where a process is on its way to and from the scheduler. -/
inductive Phase where
  | running
  /-- From the change of `p->state` to the scheduler's `release(&p->lock)`. -/
  | switching
  /-- Not on a CPU. -/
  | ready
  /-- From the scheduler's `acquire(&p->lock)` to the release by the process. -/
  | resumed
deriving DecidableEq, Repr

structure Thread (n : Nat) where
  phase : Phase
  point : Point n
deriving DecidableEq, Repr

/-- A process in the history: its number in the order of creation, and that of its forker. -/
structure Birth where
  serial : Nat
  forker : Option Nat
deriving DecidableEq, Repr

/-- What the history records, of processes by their numbers. -/
inductive Event where
  | forked (parent child : Nat) (pid : Int)
  | exited (process : Nat) (status : Int)
  /-- A `wait` at `addr` frees a zombie, with what it has stored there and keeps in `pid`. -/
  | reaped (child parent : Nat) (pid : Int) (addr : Nat) (stored : Option Int)
  /-- `wait` returns. -/
  | returned (process : Nat) (value : Int)
deriving DecidableEq, Repr

structure State (n : Nat) where
  proc : Fin n → Proc n
  thread : Fin n → Thread n
  waitLock : Option (Fin n)
  initproc : Fin n
  nextpid : Int
  /-- The history, with the newest event first. -/
  log : List Event
  /-- The process in a slot. -/
  birth : Fin n → Option Birth
  births : Nat

/-- What a process does next where it has a choice. -/
inductive Request where
  | proceed
  /-- `kalloc` or `copyout` fails. -/
  | fail
  | fork
  | exit (status : Int)
  | wait (addr : Nat)
  | kill (pid : Int)
  | sleep (address : Nat)
  | wakeup (address : Nat)
  /-- A timer interrupt, while the process holds no lock. -/
  | yield
deriving DecidableEq, Repr

/-- The effect of a step on shared memory. -/
inductive Instr (n : Nat) where
  | skip
  | acquireWait
  /-- `allocproc`, with the rest of `fork` up to `release(&np->lock)`. -/
  | allocproc (np : Fin n)
  /-- The same, when an allocation fails and the slot is freed again. -/
  | allocprocFails (np : Fin n)
  | setParent (np : Fin n)
  | setInitproc (pp : Fin n)
  | setRunnable (np : Fin n)
  | wakeup (q : Fin n)
  | kill (q : Fin n)
  | sleep (chan : Channel n)
  /-- `p->chan = 0` -/
  | tidyUp
  | yield
  /-- `p->state = RUNNING` in `scheduler` -/
  | run
  | zombie (status : Int)
  /-- `copyout` and `freeproc` in `wait`. -/
  | reap (pp : Fin n) (addr : Nat)
  | returned (value : Int)
deriving DecidableEq, Repr

variable {n : Nat}

def allocated (fields : Proc n) (pid : Int) : Proc n := { fields with pid, state := .USED }

def freeproc (fields : Proc n) : Proc n :=
  { fields with
    pid := 0
    parent := none
    chan := none
    killed := false
    xstate := 0
    state := .UNUSED }

def killProc (fields : Proc n) : Proc n :=
  { fields with
    killed := true
    state := if fields.state = .SLEEPING then .RUNNABLE else fields.state }

def After.point : After → Point n
  | .user => .user
  | .reparent status slot => .reparent status slot
  | .zombie status => .zombie status

/-- `p->lock` is held across steps. -/
def State.Locked (s : State n) (p : Fin n) : Prop :=
  (s.thread p).phase = .switching ∨ (s.thread p).phase = .resumed

instance (s : State n) (p : Fin n) : Decidable (s.Locked p) := inferInstanceAs (Decidable (_ ∨ _))

/-- The next section of a running process, and where it goes. -/
def pointStep (s : State n) (p : Fin n) (request : Request) :
    Point n → Option (Instr n × Thread n)
  | .user =>
      match request with
      | .fork => some (.skip, ⟨.running, .allocproc 0⟩)
      -- `panic("init exiting")`
      | .exit status => if s.initproc = p then none else some (.skip, ⟨.running, .exit status⟩)
      | .wait addr => some (.skip, ⟨.running, .wait addr⟩)
      | .kill pid => some (.skip, ⟨.running, .kill pid 0⟩)
      | .sleep address => some (.sleep (.other address), ⟨.switching, .slept none⟩)
      | .wakeup address => some (.skip, ⟨.running, .wakeup (some (.other address)) 0 .user⟩)
      | _ => none
  | .allocproc slot =>
      if inTable : slot < n then
        let np : Fin n := ⟨slot, inTable⟩
        if s.Locked np then none
        else if (s.proc np).state = .UNUSED then
          if request = .fail then some (.allocprocFails np, ⟨.running, .user⟩)
          else some (.allocproc np, ⟨.running, .forkParent np⟩)
        else some (.skip, ⟨.running, .allocproc (slot + 1)⟩)
      else some (.skip, ⟨.running, .user⟩)
  | .forkParent np =>
      if s.waitLock = none then some (.setParent np, ⟨.running, .forkRunnable np⟩) else none
  | .forkRunnable np =>
      if s.Locked np then none else some (.setRunnable np, ⟨.running, .user⟩)
  | .exit status =>
      if s.waitLock = none then some (.acquireWait, ⟨.running, .reparent status 0⟩) else none
  | .reparent status slot =>
      if inTable : slot < n then
        let pp : Fin n := ⟨slot, inTable⟩
        if (s.proc pp).parent = some p then
          some (.setInitproc pp, ⟨.running,
            .wakeup (some (.proc s.initproc)) 0 (.reparent status (slot + 1))⟩)
        else some (.skip, ⟨.running, .reparent status (slot + 1)⟩)
      else some (.skip, ⟨.running, .wakeParent status⟩)
  | .wakeParent status =>
      some (.skip, ⟨.running, .wakeup ((s.proc p).parent.map .proc) 0 (.zombie status)⟩)
  | .wakeup chan slot after =>
      if inTable : slot < n then
        let q : Fin n := ⟨slot, inTable⟩
        if q = p then some (.skip, ⟨.running, .wakeup chan (slot + 1) after⟩)
        else if s.Locked q then none
        else if (s.proc q).state = .SLEEPING ∧ (s.proc q).chan = chan then
          some (.wakeup q, ⟨.running, .wakeup chan (slot + 1) after⟩)
        else some (.skip, ⟨.running, .wakeup chan (slot + 1) after⟩)
      else some (.skip, ⟨.running, after.point⟩)
  | .zombie status => some (.zombie status, ⟨.switching, .dead⟩)
  | .dead => none
  | .wait addr =>
      if s.waitLock = none then some (.acquireWait, ⟨.running, .scan addr 0 false⟩) else none
  | .scan addr slot havekids =>
      if inTable : slot < n then
        let pp : Fin n := ⟨slot, inTable⟩
        if (s.proc pp).parent = some p then
          if s.Locked pp then none
          else if (s.proc pp).state = .ZOMBIE then
            if addr ≠ 0 ∧ request = .fail then some (.skip, ⟨.running, .waitDone (-1)⟩)
            else some (.reap pp addr, ⟨.running, .waitDone (s.proc pp).pid⟩)
          else some (.skip, ⟨.running, .scan addr (slot + 1) true⟩)
        else some (.skip, ⟨.running, .scan addr (slot + 1) havekids⟩)
      else if havekids = false ∨ (s.proc p).killed = true then
        some (.skip, ⟨.running, .waitDone (-1)⟩)
      else some (.skip, ⟨.running, .sleep addr⟩)
  | .sleep addr => some (.sleep (.proc p), ⟨.switching, .slept (some addr)⟩)
  | .waitDone value => some (.returned value, ⟨.running, .user⟩)
  -- A process has left this point when it runs again.
  | .slept _ => none
  | .kill pid slot =>
      if inTable : slot < n then
        let q : Fin n := ⟨slot, inTable⟩
        if s.Locked q then none
        else if (s.proc q).pid = pid then some (.kill q, ⟨.running, .user⟩)
        else some (.skip, ⟨.running, .kill pid (slot + 1)⟩)
      else some (.skip, ⟨.running, .user⟩)

/-- What a process, or the scheduler on its behalf, does next. -/
def threadStep (s : State n) (p : Fin n) (request : Request) : Option (Instr n × Thread n) :=
  let point := (s.thread p).point
  match (s.thread p).phase with
  | .switching => some (.skip, ⟨.ready, point⟩)
  | .ready => if (s.proc p).state = .RUNNABLE then some (.run, ⟨.resumed, point⟩) else none
  | .resumed =>
      match point with
      | .slept none => some (.tidyUp, ⟨.running, .user⟩)
      | .slept (some addr) => some (.tidyUp, ⟨.running, .wait addr⟩)
      | _ => some (.skip, ⟨.running, point⟩)
  | .running =>
      if request = .yield then
        if s.waitLock = some p then none else some (.yield, ⟨.switching, point⟩)
      else pointStep s p request point

namespace State

def setProc (s : State n) (q : Fin n) (fields : Proc n) : State n :=
  { s with proc := update s.proc q fields }

def record (s : State n) (event : Event) : State n := { s with log := event :: s.log }

def goto (s : State n) (p : Fin n) (next : Thread n) : State n :=
  { s with thread := update s.thread p next }

def serial (s : State n) (p : Fin n) : Nat := ((s.birth p).map Birth.serial).getD 0

end State

def releaseLock (s : State n) (chan : Channel n) : Option (Fin n) :=
  match chan with
  | .proc _ => none
  | .other _ => s.waitLock

def execute (s : State n) (p : Fin n) : Instr n → State n
  | .skip => s
  | .acquireWait => { s with waitLock := some p }
  | .allocproc np =>
      { s.setProc np (allocated (s.proc np) s.nextpid) with
        thread := update s.thread np ⟨.ready, .user⟩
        nextpid := int32 (s.nextpid + 1)
        birth := update s.birth np (some ⟨s.births, some (s.serial p)⟩)
        births := s.births + 1 }.record (.forked (s.serial p) s.births s.nextpid)
  | .allocprocFails np =>
      { s.setProc np (freeproc (allocated (s.proc np) s.nextpid)) with
        nextpid := int32 (s.nextpid + 1) }
  | .setParent np => s.setProc np { s.proc np with parent := some p }
  | .setInitproc pp => s.setProc pp { s.proc pp with parent := some s.initproc }
  | .setRunnable np => s.setProc np { s.proc np with state := .RUNNABLE }
  | .wakeup q => s.setProc q { s.proc q with state := .RUNNABLE }
  | .kill q => s.setProc q (killProc (s.proc q))
  | .sleep chan =>
      { s.setProc p { s.proc p with chan := some chan, state := .SLEEPING } with
        waitLock := releaseLock s chan }
  | .tidyUp => s.setProc p { s.proc p with chan := none }
  | .yield => s.setProc p { s.proc p with state := .RUNNABLE }
  | .run => s.setProc p { s.proc p with state := .RUNNING }
  | .zombie status =>
      { s.setProc p { s.proc p with xstate := status, state := .ZOMBIE } with
        waitLock := none }.record (.exited (s.serial p) status)
  | .reap pp addr =>
      let stored := if addr = 0 then none else some (s.proc pp).xstate
      { s.setProc pp (freeproc (s.proc pp)) with
        birth := update s.birth pp none }.record
          (.reaped (s.serial pp) (s.serial p) (s.proc pp).pid addr stored)
  | .returned value =>
      { s with waitLock := none }.record (.returned (s.serial p) value)

structure Action (n : Nat) where
  slot : Fin n
  request : Request
deriving DecidableEq, Repr

def step (s : State n) (action : Action n) : Option (State n) :=
  (threadStep s action.slot action.request).map fun (instr, next) =>
    (execute s action.slot instr).goto action.slot next

def Proc.zero : Proc n := ⟨.UNUSED, none, false, 0, 0, none⟩

def userinit (initproc : Fin n) : State n where
  proc :=
    update (fun _ => Proc.zero) initproc { Proc.zero with state := .RUNNABLE, pid := 1 }
  thread _ := ⟨.ready, .user⟩
  waitLock := none
  initproc
  nextpid := 2
  log := []
  birth := update (fun _ => none) initproc (some ⟨0, none⟩)
  births := 1

/-- `kill` by itself: the loop over the table, and the value it returns. -/
def killFrom (table : Fin n → Proc n) (pid : Int) : List (Fin n) → Int × (Fin n → Proc n)
  | [] => (-1, table)
  | q :: slots =>
      if (table q).pid = pid then (0, update table q (killProc (table q)))
      else killFrom table pid slots

def kill (table : Fin n → Proc n) (pid : Int) : Int × (Fin n → Proc n) :=
  killFrom table pid (List.finRange n)

end Xv6.Family
