import Xv6.Kernel.Copy
import Xv6.Ring.Buffer
import Xv6.Runs.Reachable

/-!
Contract: one pipe of `kernel/pipe.c` and the processes that use it.

A step is one round of a loop of `pipewrite` or `piperead`, so that a process can be
killed between any two rounds. Who sleeps on `&pi->nread` or `&pi->nwrite` changes
only under `pi->lock`, apart from `kill`; a call of `wakeup` is one step, and so is
the end of `sleep`, where `p->lock` is held until the process sleeps.

Owns: `pipewrite`, `piperead`, `pipeclose` on one pipe, `kill` and the killed flag,
the steps, and the runs from `pipealloc` on.

Does not own: file descriptors. An end is closed once; after both are closed the page
of the pipe is given back and the machine stops.
-/

namespace Xv6.Pipes

open Xv6.Kernel
open Xv6.Format
open Xv6.Ring

/-- `struct pipe` without its lock. -/
structure Pipe extends Buffer Byte 32 PIPESIZE where
  readopen : Bool
  writeopen : Bool

/-- The end that a descriptor with this `writable` is for. -/
def Pipe.isOpen (pipe : Pipe) (writable : Bool) : Bool :=
  if writable then pipe.writeopen else pipe.readopen

/-- The arguments of a call: a buffer in the memory of the process. -/
structure Request where
  space : Space
  addr : Nat
  n : Int

structure Writing extends Request where
  /-- The number of this call; no code reads it. -/
  call : Nat
  i : Nat

structure Reading extends Request where
  i : Nat

/-- What processes sleep on: `&pi->nread` or `&pi->nwrite`. -/
inductive Channel where
  | nread
  | nwrite
deriving DecidableEq

inductive WritePoint where
  /-- Waits for `pi->lock`, at the start or after `sleep`. -/
  | acquire
  /-- At the head of the loop. -/
  | loop
  /-- The reader is there and the process was not killed. -/
  | body
  /-- Sleeps on `&pi->nwrite`. -/
  | asleep
deriving DecidableEq

inductive ReadPoint where
  | acquire
  /-- At the head of the first loop. -/
  | loop
  /-- About to sleep. -/
  | drowsy
  /-- At the head of the second loop. -/
  | copy
  /-- Sleeps on `&pi->nread`. -/
  | asleep
deriving DecidableEq

inductive Thread where
  /-- Outside these calls, the last of which returned `result`. -/
  | idle (result : Int)
  | writer (w : Writing) (point : WritePoint)
  | reader (r : Reading) (point : ReadPoint)

namespace Thread

def holds : Thread → Bool
  | .writer _ .loop | .writer _ .body => true
  | .reader _ .loop | .reader _ .drowsy | .reader _ .copy => true
  | _ => false

/-- `p->chan` of a process that sleeps. -/
def chan? : Thread → Option Channel
  | .reader _ .asleep => some .nread
  | .writer _ .asleep => some .nwrite
  | _ => none

/-- Made runnable; the next thing is to take `pi->lock` again. -/
def wake : Thread → Thread
  | .writer w .asleep => .writer w .acquire
  | .reader r .asleep => .reader r .acquire
  | thread => thread

end Thread

structure State where
  pipe : Pipe
  /-- Who holds `pi->lock`. -/
  lock : Option ProcId
  /-- The page of the pipe was given back. -/
  freed : Bool
  killed : ProcId → Bool
  thread : ProcId → Thread
  /-- The calls of `pipewrite` so far; no code reads this or what follows. -/
  writes : List Request
  /-- The bytes that were put into the pipe, with the call they are from. -/
  accepted : List (Nat × Byte)
  delivered : List Byte

namespace State

def setThread (s : State) (p : ProcId) (thread : Thread) : State :=
  { s with thread := Function.update s.thread p thread }

@[simp] theorem thread_setThread_self (s : State) (p : ProcId) (thread : Thread) :
    (s.setThread p thread).thread p = thread :=
  Function.update_self ..

variable {s : State} {p q : ProcId} {thread : Thread}

theorem thread_setThread_of_ne (different : q ≠ p) : (s.setThread p thread).thread q = s.thread q :=
  Function.update_of_ne different ..

theorem setThread_cases {found : Thread} (isThread : (s.setThread p thread).thread q = found) :
    q = p ∧ found = thread ∨ q ≠ p ∧ s.thread q = found := by
  by_cases isSet : q = p
  · subst isSet
    rw [thread_setThread_self] at isThread
    exact .inl ⟨rfl, isThread.symm⟩
  · rw [thread_setThread_of_ne isSet] at isThread
    exact .inr ⟨isSet, isThread⟩

def wakeup (s : State) (p : ProcId) (chan : Channel) : State :=
  { s with thread := fun q =>
      if q ≠ p ∧ (s.thread q).chan? = some chan then (s.thread q).wake else s.thread q }

@[simp] theorem thread_wakeup_self (s : State) (p : ProcId) (chan : Channel) :
    (s.wakeup p chan).thread p = s.thread p :=
  if_neg fun caller => caller.1 rfl

def enter (s : State) (p : ProcId) (thread : Thread) : State :=
  { s with lock := some p }.setThread p thread

def leave (s : State) (p : ProcId) (thread : Thread) : State :=
  { s with lock := none }.setThread p thread

def put (s : State) (p : ProcId) (w : Writing) (ch : Byte) : State :=
  { s with
    pipe := { s.pipe with toBuffer := s.pipe.toBuffer.put ch }
    accepted := s.accepted ++ [(w.call, ch)] }.setThread p
      (.writer { w with i := w.i + 1 } .loop)

def drop (s : State) : State :=
  { s with pipe := { s.pipe with toBuffer := s.pipe.toBuffer.drop } }

def deliver (s : State) (p : ProcId) (r : Reading) (space : Space) (ch : Byte) : State :=
  { s with delivered := s.delivered ++ [ch] }.setThread p
    (.reader { r with space, i := r.i + 1 } .copy)

end State

def runWriter (s : State) (p : ProcId) (w : Writing) : WritePoint → Option State
  | .acquire => if s.lock = none then some (s.enter p (.writer w .loop)) else none
  | .loop =>
      if w.i < w.n then
        if s.pipe.readopen = false ∨ s.killed p = true then
          some (s.leave p (.idle (-1)))
        else
          some (s.setThread p (.writer w .body))
      else
        some ((s.wakeup p .nread).leave p (.idle w.i))
  | .body =>
      if s.pipe.nwrite = s.pipe.nread + BitVec.ofNat 32 PIPESIZE then
        some ((s.wakeup p .nread).leave p (.writer w .asleep))
      else
        match copyin w.space (fun _ => 0) 0 (w.addr + w.i) 1 with
        | (ch, true) => some (s.put p w (ch 0))
        | (_, false) => some ((s.wakeup p .nread).leave p (.idle w.i))
  | .asleep => none

def runReader (s : State) (p : ProcId) (r : Reading) : ReadPoint → Option State
  | .acquire => if s.lock = none then some (s.enter p (.reader r .loop)) else none
  | .loop =>
      if s.pipe.nread = s.pipe.nwrite ∧ s.pipe.writeopen = true then
        if s.killed p = true then
          some (s.leave p (.idle (-1)))
        else
          some (s.setThread p (.reader r .drowsy))
      else
        some (s.setThread p (.reader { r with i := 0 } .copy))
  | .drowsy => some (s.leave p (.reader r .asleep))
  | .copy =>
      if r.i < r.n ∧ s.pipe.nread ≠ s.pipe.nwrite then
        let ch := s.pipe.front
        match copyout r.space (r.addr + r.i) (fun _ => ch) 1 with
        | (space, true) => some (s.drop.deliver p r space ch)
        | (_, false) => some ((s.drop.wakeup p .nwrite).leave p (.idle r.i))
      else
        some ((s.wakeup p .nwrite).leave p (.idle r.i))
  | .asleep => none

def pipeclose (s : State) (p : ProcId) (writable : Bool) : State :=
  let s :=
    if writable then
      { s with pipe := { s.pipe with writeopen := false } }.wakeup p .nread
    else
      { s with pipe := { s.pipe with readopen := false } }.wakeup p .nwrite
  { s with freed := !s.pipe.readopen && !s.pipe.writeopen }

def kill (s : State) (p : ProcId) : State :=
  { s with killed := Function.update s.killed p true }.setThread p (s.thread p).wake

inductive Action where
  | write (p : ProcId) (request : Request)
  | read (p : ProcId) (request : Request)
  | close (p : ProcId) (writable : Bool)
  | kill (p : ProcId)
  /-- A process that exited is freed; its entry can be used again. -/
  | freeproc (p : ProcId)
  | run (p : ProcId)

/-- One step; `none` if it is not enabled. -/
def step (s : State) (action : Action) : Option State :=
  if s.freed then
    none
  else
    match action with
    | .write p request =>
        match s.thread p with
        | .idle _ =>
            some ({ s with writes := s.writes ++ [request] }.setThread p
              (.writer { request with call := s.writes.length, i := 0 } .acquire))
        | _ => none
    | .read p request =>
        match s.thread p with
        | .idle _ => some (s.setThread p (.reader { request with i := 0 } .acquire))
        | _ => none
    | .close p writable =>
        match s.thread p with
        | .idle _ =>
            if s.lock = none ∧ s.pipe.isOpen writable = true then
              some (pipeclose s p writable)
            else
              none
        | _ => none
    | .kill p => some (kill s p)
    | .freeproc p =>
        match s.thread p with
        | .idle _ => some { s with killed := Function.update s.killed p false }
        | _ => none
    | .run p =>
        match s.thread p with
        | .idle _ => none
        | .writer w point => runWriter s p w point
        | .reader r point => runReader s p r point

/-- The steps, one case for each thing a process can do. -/
inductive Stepped (s : State) : Action → State → Prop where
  | write {p : ProcId} {request : Request} {result : Int} (isIdle : s.thread p = .idle result) :
      Stepped s (.write p request) ({ s with writes := s.writes ++ [request] }.setThread p
        (.writer { request with call := s.writes.length, i := 0 } .acquire))
  | read {p : ProcId} {request : Request} {result : Int} (isIdle : s.thread p = .idle result) :
      Stepped s (.read p request) (s.setThread p (.reader { request with i := 0 } .acquire))
  | close {p : ProcId} {writable : Bool} {result : Int} (isIdle : s.thread p = .idle result)
      (unlocked : s.lock = none) : Stepped s (.close p writable) (pipeclose s p writable)
  | kill {p : ProcId} : Stepped s (.kill p) (kill s p)
  | freeproc {p : ProcId} {result : Int} (isIdle : s.thread p = .idle result) :
      Stepped s (.freeproc p) { s with killed := Function.update s.killed p false }
  | writerEnter {p : ProcId} {w : Writing} (isWriter : s.thread p = .writer w .acquire)
      (unlocked : s.lock = none) : Stepped s (.run p) (s.enter p (.writer w .loop))
  /-- The other end is closed or the process was killed. -/
  | writerQuit {p : ProcId} {w : Writing} (isWriter : s.thread p = .writer w .loop)
      (cause : s.pipe.readopen = false ∨ s.killed p = true) :
      Stepped s (.run p) (s.leave p (.idle (-1)))
  | writerBody {p : ProcId} {w : Writing} (isWriter : s.thread p = .writer w .loop)
      (more : w.i < w.n) (open' : s.pipe.readopen = true) (alive : s.killed p = false) :
      Stepped s (.run p) (s.setThread p (.writer w .body))
  | writerPut {p : ProcId} {w : Writing} (isWriter : s.thread p = .writer w .body)
      (room : s.pipe.nwrite ≠ s.pipe.nread + BitVec.ofNat 32 PIPESIZE) :
      Stepped s (.run p) (s.put p w (w.space.bytes (w.addr + w.i)))
  | writerSleep {p : ProcId} {w : Writing} (isWriter : s.thread p = .writer w .body)
      (full : s.pipe.nwrite = s.pipe.nread + BitVec.ofNat 32 PIPESIZE) :
      Stepped s (.run p) ((s.wakeup p .nread).leave p (.writer w .asleep))
  /-- All is written, or the buffer ends. -/
  | writerDone {p : ProcId} {w : Writing} {point : WritePoint}
      (isWriter : s.thread p = .writer w point) (holds : (s.thread p).holds = true) :
      Stepped s (.run p) ((s.wakeup p .nread).leave p (.idle w.i))
  | readerEnter {p : ProcId} {r : Reading} (isReader : s.thread p = .reader r .acquire)
      (unlocked : s.lock = none) : Stepped s (.run p) (s.enter p (.reader r .loop))
  | readerQuit {p : ProcId} {r : Reading} (isReader : s.thread p = .reader r .loop) :
      Stepped s (.run p) (s.leave p (.idle (-1)))
  | readerDrowsy {p : ProcId} {r : Reading} (isReader : s.thread p = .reader r .loop)
      (isEmpty : s.pipe.nread = s.pipe.nwrite) (open' : s.pipe.writeopen = true) :
      Stepped s (.run p) (s.setThread p (.reader r .drowsy))
  | readerSleep {p : ProcId} {r : Reading} (isReader : s.thread p = .reader r .drowsy) :
      Stepped s (.run p) (s.leave p (.reader r .asleep))
  | readerCopy {p : ProcId} {r : Reading} (isReader : s.thread p = .reader r .loop) :
      Stepped s (.run p) (s.setThread p (.reader { r with i := 0 } .copy))
  | readerTake {p : ProcId} {r : Reading} {space : Space}
      (isReader : s.thread p = .reader r .copy) (nonempty : s.pipe.nread ≠ s.pipe.nwrite)
      (sameMap : space.mapped = r.space.mapped) :
      Stepped s (.run p) (s.drop.deliver p r space s.pipe.front)
  /-- The buffer is not mapped; the byte is gone. -/
  | readerLose {p : ProcId} {r : Reading} (isReader : s.thread p = .reader r .copy)
      (more : r.i < r.n) (nonempty : s.pipe.nread ≠ s.pipe.nwrite)
      (unmapped : r.space.mapped (PGROUNDDOWN (r.addr + r.i)) = false) :
      Stepped s (.run p) ((s.drop.wakeup p .nwrite).leave p (.idle r.i))
  | readerDone {p : ProcId} {r : Reading} (isReader : s.thread p = .reader r .copy) :
      Stepped s (.run p) ((s.wakeup p .nwrite).leave p (.idle r.i))

variable {s s' : State} {p : ProcId}

theorem Stepped.of_runWriter {w : Writing} {point : WritePoint}
    (isWriter : s.thread p = .writer w point) (stepped : runWriter s p w point = some s') :
    Stepped s (.run p) s' := by
  cases point with
  | acquire =>
      dsimp only [runWriter] at stepped
      split at stepped
      · rename_i unlocked
        cases stepped
        exact .writerEnter isWriter unlocked
      · cases stepped
  | loop =>
      dsimp only [runWriter] at stepped
      split at stepped
      · rename_i more
        split at stepped
        · rename_i cause
          cases stepped
          exact .writerQuit isWriter cause
        · rename_i goesOn
          cases stepped
          rw [not_or, Bool.not_eq_false, Bool.not_eq_true] at goesOn
          exact .writerBody isWriter more goesOn.1 goesOn.2
      · cases stepped
        exact .writerDone isWriter (by rw [isWriter]; rfl)
  | body =>
      dsimp only [runWriter] at stepped
      rw [copyin_one] at stepped
      by_cases full : s.pipe.nwrite = s.pipe.nread + BitVec.ofNat 32 PIPESIZE
      · rw [if_pos full] at stepped
        cases stepped
        exact .writerSleep isWriter full
      · rw [if_neg full] at stepped
        by_cases mapped : w.space.mapped (PGROUNDDOWN (w.addr + w.i)) = true
        · rw [if_pos mapped] at stepped
          cases stepped
          exact .writerPut isWriter full
        · rw [if_neg mapped] at stepped
          cases stepped
          exact .writerDone isWriter (by rw [isWriter]; rfl)
  | asleep => cases stepped

theorem Stepped.of_runReader {r : Reading} {point : ReadPoint}
    (isReader : s.thread p = .reader r point) (stepped : runReader s p r point = some s') :
    Stepped s (.run p) s' := by
  cases point with
  | acquire =>
      dsimp only [runReader] at stepped
      split at stepped
      · rename_i unlocked
        cases stepped
        exact .readerEnter isReader unlocked
      · cases stepped
  | loop =>
      dsimp only [runReader] at stepped
      split at stepped
      · rename_i waits
        split at stepped
        · cases stepped
          exact .readerQuit isReader
        · cases stepped
          exact .readerDrowsy isReader waits.1 waits.2
      · cases stepped
        exact .readerCopy isReader
  | drowsy =>
      cases stepped
      exact .readerSleep isReader
  | copy =>
      dsimp only [runReader] at stepped
      rw [copyout_one] at stepped
      by_cases more : (r.i : Int) < r.n ∧ s.pipe.nread ≠ s.pipe.nwrite
      · rw [if_pos more] at stepped
        by_cases mapped : r.space.mapped (PGROUNDDOWN (r.addr + r.i)) = true
        · rw [if_pos mapped] at stepped
          cases stepped
          exact .readerTake isReader more.2 rfl
        · rw [if_neg mapped] at stepped
          cases stepped
          exact .readerLose isReader more.1 more.2 (Bool.not_eq_true _ ▸ mapped)
      · rw [if_neg more] at stepped
        cases stepped
        exact .readerDone isReader
  | asleep => cases stepped

theorem Stepped.of_step {action : Action} (stepped : step s action = some s') :
    Stepped s action s' := by
  unfold step at stepped
  split at stepped
  · cases stepped
  · cases action with
    | write p request =>
        dsimp only at stepped
        split at stepped
        · rename_i result isIdle
          cases stepped
          exact .write isIdle
        · cases stepped
    | read p request =>
        dsimp only at stepped
        split at stepped
        · rename_i result isIdle
          cases stepped
          exact .read isIdle
        · cases stepped
    | close p writable =>
        dsimp only at stepped
        split at stepped
        · rename_i result isIdle
          split at stepped
          · rename_i enabled
            cases stepped
            exact .close isIdle enabled.1
          · cases stepped
        · cases stepped
    | kill p =>
        cases stepped
        exact .kill
    | freeproc p =>
        dsimp only at stepped
        split at stepped
        · rename_i result isIdle
          cases stepped
          exact .freeproc isIdle
        · cases stepped
    | run p =>
        dsimp only at stepped
        split at stepped
        · cases stepped
        · rename_i w point isWriter
          exact .of_runWriter isWriter stepped
        · rename_i r point isReader
          exact .of_runReader isReader stepped

/-- `pipealloc` on a page with these bytes. -/
def pipealloc (data : Fin PIPESIZE → Byte) : State where
  pipe := ⟨⟨data, 0, 0⟩, true, true⟩
  lock := none
  freed := false
  killed _ := false
  thread _ := .idle 0
  writes := []
  accepted := []
  delivered := []

abbrev Reachable (allowed : State → Action → Prop) (data : Fin PIPESIZE → Byte) : State → Prop :=
  Runs.Reachable step allowed (pipealloc data)

end Xv6.Pipes
