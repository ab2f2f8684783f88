import Xv6.Kernel.Param
import Xv6.Journal.Redo

/-!
Contract: `kernel/log.c` as a machine of interleaved processes over a disk that
can lose its memory between any two block writes.

A step is one critical section under `log.lock`, one round of a loop of
`write_log` or `install_trans` (one disk write each), one header write, a crash,
or one such piece of `recover_from_log`. `bread` returns the cached contents of a
block; buffers of blocks outside the log header may be recycled at any time.

Owns: the log header in memory and on disk, `begin_op`, `log_write`, `end_op`,
`commit`, `recover_from_log`, the step function, and a record of all updates that
no code reads: which operation made them and with which commit they became
durable.

Does not own: the buffers' locks. An operation changes a buffer and passes it to
`log_write` while it holds the buffer, so both are one step here.
-/

namespace Xv6.Logging

open Xv6.Kernel
open Function

def WORDS : Nat := BSIZE / 4

abbrev Block := Fin WORDS → Nat

def Block.word (block : Block) (index : Nat) : Nat :=
  if inBlock : index < WORDS then block ⟨index, inBlock⟩ else 0

/-- `struct logheader` in a block: `n`, then `block[0]`, `block[1]`, .... -/
def readHead (hb : Block) : List Nat :=
  (List.range (Block.word hb 0)).map fun i => Block.word hb (i + 1)

/-- The header block with `n` and `block[0 .. n)` overwritten. -/
def writeHead (hb : Block) (lh : List Nat) : Block :=
  fun index => if index.val = 0 then lh.length else (lh[index.val - 1]?).getD (hb index)

/-- `struct log`; `lh` is `lh.block[0 .. lh.n)`. -/
structure Log where
  start : Nat
  size : Nat
  outstanding : Int
  committing : Bool
  lh : List Nat
deriving DecidableEq, Repr

inductive Panic where
  /-- "too big a transaction" -/
  | tooBig
  /-- "log_write outside of trans" -/
  | outsideOfTrans
  /-- "log.committing" -/
  | committing
deriving DecidableEq, Repr

/-- One round of the loop of `begin_op`; `none` when it sleeps. -/
def beginOp (log : Log) : Option Log :=
  if log.committing then
    none
  else if (log.lh.length : Int) + (log.outstanding + 1) * MAXOPBLOCKS > LOGSIZE then
    none
  else
    some { log with outstanding := log.outstanding + 1 }

/-- The loop of `log_write`: up to the block or to the end, where it is added. -/
def absorb (blockno : Nat) : List Nat → List Nat
  | [] => [blockno]
  | logged :: rest => if logged = blockno then blockno :: rest else logged :: absorb blockno rest

def logWrite (log : Log) (blockno : Nat) : Except Panic Log :=
  if log.lh.length ≥ LOGSIZE ∨ (log.lh.length : Int) ≥ (log.size : Int) - 1 then
    .error .tooBig
  else if log.outstanding < 1 then
    .error .outsideOfTrans
  else
    .ok { log with lh := absorb blockno log.lh }

/-- `end_op` up to the release of `log.lock`, with `do_commit`. -/
def endOp (log : Log) : Except Panic (Log × Bool) :=
  let log := { log with outstanding := log.outstanding - 1 }
  if log.committing then
    .error .committing
  else if log.outstanding = 0 then
    .ok ({ log with committing := true }, true)
  else
    .ok (log, false)

/-- The disk and what `bread` returns. -/
structure Store where
  disk : Nat → Block
  cache : Nat → Block

def Store.bwrite (store : Store) (blockno : Nat) (data : Block) : Store where
  disk := update store.disk blockno data
  cache := update store.cache blockno data

namespace Store

variable (store : Store) {blockno other : Nat} (data : Block)

@[simp] theorem disk_bwrite_self : (store.bwrite blockno data).disk blockno = data :=
  update_self ..

@[simp] theorem cache_bwrite_self : (store.bwrite blockno data).cache blockno = data :=
  update_self ..

theorem disk_bwrite_of_ne (different : other ≠ blockno) :
    (store.bwrite blockno data).disk other = store.disk other :=
  update_of_ne different ..

theorem cache_bwrite_of_ne (different : other ≠ blockno) :
    (store.bwrite blockno data).cache other = store.cache other :=
  update_of_ne different ..

end Store

/-- The block of the log that holds entry `tail`. -/
def Log.slot (log : Log) (tail : Nat) : Nat := log.start + tail + 1

def Log.Outside (log : Log) (blockno : Nat) : Prop :=
  ¬ (log.start ≤ blockno ∧ blockno < log.start + log.size)

instance (log : Log) (blockno : Nat) : Decidable (log.Outside blockno) :=
  inferInstanceAs (Decidable (¬ _))

def writeLogRound (log : Log) (store : Store) (tail blockno : Nat) : Store :=
  store.bwrite (log.slot tail) (store.cache blockno)

def installRound (log : Log) (store : Store) (tail blockno : Nat) : Store :=
  store.bwrite blockno (store.cache (log.slot tail))

def headRound (log : Log) (store : Store) : Store :=
  store.bwrite log.start (writeHead (store.cache log.start) log.lh)

/-! ## Processes -/

/-- The next thing `commit` or the end of `end_op` does. -/
inductive Point where
  | start
  | writeLog (tail : Nat)
  | writeHead
  | install (tail : Nat)
  | erase
  | finish
deriving DecidableEq, Repr

/-- The next thing `recover_from_log` does. -/
inductive Recovery where
  | readHead
  | install (tail : Nat)
  | erase
deriving DecidableEq, Repr

/-- What a process is doing with the log. -/
inductive Work where
  /-- Between `begin_op` and `end_op`. `op` numbers the operation; `logged` are
  the different blocks it has logged. -/
  | op (op : Nat) (logged : List Nat)
  | commit (point : Point)
deriving DecidableEq, Repr

/-- A call of `log_write`: by which operation, for which block, with which
contents. -/
structure Update where
  op : Nat
  blockno : Nat
  data : Block

structure State (P : Type) where
  store : Store
  log : Log
  work : P → Option Work
  recovery : Option Recovery
  nextOp : Nat
  /-- The updates since the last header write of a commit. -/
  pending : List Update
  /-- The updates of each commit whose header is on disk. -/
  commits : List (List Update)

namespace State

variable {P : Type} [DecidableEq P]

def setWork (s : State P) (p : P) (work : Option Work) : State P :=
  { s with work := update s.work p work }

theorem setWork_others {p : P} (s : State P) (work : Option Work) (q : P)
    (different : q ≠ p) :
    (s.setWork p work).work q = s.work q :=
  update_of_ne different ..

theorem setWork_own {p : P} (s : State P) (work : Option Work) : (s.setWork p work).work p = work :=
  update_self ..

def commitStep (s : State P) (p : P) : Point → State P
  | .start =>
      s.setWork p (some (.commit (if 0 < s.log.lh.length then .writeLog 0 else .finish)))
  | .writeLog tail =>
      match s.log.lh[tail]? with
      | some blockno =>
          { s with store := writeLogRound s.log s.store tail blockno }.setWork p
            (some (.commit (.writeLog (tail + 1))))
      | none => s.setWork p (some (.commit .writeHead))
  | .writeHead =>
      { s with
        store := headRound s.log s.store
        commits := s.commits ++ [s.pending]
        pending := [] }.setWork p (some (.commit (.install 0)))
  | .install tail =>
      match s.log.lh[tail]? with
      | some blockno =>
          { s with store := installRound s.log s.store tail blockno }.setWork p
            (some (.commit (.install (tail + 1))))
      | none => { s with log := { s.log with lh := [] } }.setWork p (some (.commit .erase))
  | .erase =>
      { s with store := headRound s.log s.store }.setWork p (some (.commit .finish))
  | .finish => { s with log := { s.log with committing := false } }.setWork p none

omit [DecidableEq P] in
def recoverStep (s : State P) : Recovery → State P
  | .readHead =>
      { s with
        log := { s.log with lh := readHead (s.store.cache s.log.start) }
        recovery := some (.install 0) }
  | .install tail =>
      match s.log.lh[tail]? with
      | some blockno =>
          { s with
            store := installRound s.log s.store tail blockno
            recovery := some (.install (tail + 1)) }
      | none => { s with log := { s.log with lh := [] }, recovery := some .erase }
  | .erase => { s with store := headRound s.log s.store, recovery := none }

omit [DecidableEq P] in
/-- Memory is lost; `initlog` starts over with the disk. -/
def crash (s : State P) : State P :=
  { s with
    store := ⟨s.store.disk, s.store.disk⟩
    log := ⟨s.log.start, s.log.size, 0, false, []⟩
    work := fun _ => none
    recovery := some .readHead
    pending := [] }

end State

inductive Action (P : Type) where
  | beginOp (p : P)
  | logWrite (p : P) (blockno : Nat) (data : Block)
  | endOp (p : P)
  | commit (p : P)
  | recycle (blockno : Nat)
  | crash
  | recover

section Steps

variable {P : Type} [DecidableEq P]

/-- One step. A panic or a sleeping process is a step that is not enabled. -/
def step (s : State P) : Action P → Option (State P)
  | .beginOp p =>
      if s.recovery = none ∧ s.work p = none then
        (beginOp s.log).map fun log =>
          { s with log, nextOp := s.nextOp + 1 }.setWork p (some (.op s.nextOp []))
      else
        none
  | .logWrite p blockno data =>
      match s.work p with
      | some (.op op logged) =>
          match logWrite s.log blockno with
          | .ok log =>
              some ({ s with
                log
                store := { s.store with cache := update s.store.cache blockno data }
                pending := s.pending ++ [Update.mk op blockno data] }.setWork p
                (some (.op op (absorb blockno logged))))
          | .error _ => none
      | _ => none
  | .endOp p =>
      match s.work p with
      | some (.op _ _) =>
          match endOp s.log with
          | .ok (log, doCommit) =>
              some ({ s with log }.setWork p (if doCommit then some (.commit .start) else none))
          | .error _ => none
      | _ => none
  | .commit p =>
      match s.work p with
      | some (.commit point) => some (s.commitStep p point)
      | _ => none
  | .recycle blockno =>
      if blockno ∈ s.log.lh then
        none
      else
        some { s with store := { s.store with
          cache := update s.store.cache blockno (s.store.disk blockno) } }
  | .crash => some s.crash
  | .recover => s.recovery.map s.recoverStep

/-- The steps, one case for each action. -/
inductive Stepped (s : State P) : Action P → State P → Prop where
  | beginOp {p : P} {log : Log} (running : s.recovery = none) (free : s.work p = none)
      (began : beginOp s.log = some log) :
      Stepped s (.beginOp p)
        ({ s with log, nextOp := s.nextOp + 1 }.setWork p (some (.op s.nextOp [])))
  | logWrite {p : P} {op : Nat} {logged : List Nat} {blockno : Nat} {data : Block} {log : Log}
      (isOp : s.work p = some (.op op logged)) (wrote : logWrite s.log blockno = .ok log) :
      Stepped s (.logWrite p blockno data) ({ s with
        log
        store := { s.store with cache := update s.store.cache blockno data }
        pending := s.pending ++ [Update.mk op blockno data] }.setWork p
        (some (.op op (absorb blockno logged))))
  | endOp {p : P} {op : Nat} {logged : List Nat} {log : Log} {doCommit : Bool}
      (isOp : s.work p = some (.op op logged)) (ended : endOp s.log = .ok (log, doCommit)) :
      Stepped s (.endOp p)
        ({ s with log }.setWork p (if doCommit then some (.commit .start) else none))
  | commit {p : P} {point : Point} (isCommit : s.work p = some (.commit point)) :
      Stepped s (.commit p) (s.commitStep p point)
  | recycle {blockno : Nat} (unlogged : blockno ∉ s.log.lh) :
      Stepped s (.recycle blockno) { s with store := { s.store with
        cache := update s.store.cache blockno (s.store.disk blockno) } }
  | crash : Stepped s .crash s.crash
  | recover {recovery : Recovery} (isRecovery : s.recovery = some recovery) :
      Stepped s .recover (s.recoverStep recovery)

theorem Stepped.of_step {s s' : State P} {action : Action P}
    (stepped : step s action = some s') : Stepped s action s' := by
  cases action with
  | beginOp p =>
      dsimp only [step] at stepped
      split at stepped
      · rename_i idle
        obtain ⟨log, began, isNext⟩ := Option.map_eq_some_iff.mp stepped
        cases isNext
        exact .beginOp idle.1 idle.2 began
      · cases stepped
  | logWrite p blockno data =>
      dsimp only [step] at stepped
      split at stepped
      · rename_i op logged isOp
        split at stepped
        · rename_i log wrote
          cases stepped
          exact .logWrite isOp wrote
        · cases stepped
      · cases stepped
  | endOp p =>
      dsimp only [step] at stepped
      split at stepped
      · rename_i op logged isOp
        split at stepped
        · rename_i log doCommit ended
          cases stepped
          exact .endOp isOp ended
        · cases stepped
      · cases stepped
  | commit p =>
      dsimp only [step] at stepped
      split at stepped
      · rename_i point isCommit
        cases stepped
        exact .commit isCommit
      · cases stepped
  | recycle blockno =>
      dsimp only [step] at stepped
      split at stepped
      · cases stepped
      · rename_i unlogged
        cases stepped
        exact .recycle unlogged
  | crash =>
      cases stepped
      exact .crash
  | recover =>
      obtain ⟨recovery, isRecovery, isNext⟩ := Option.map_eq_some_iff.mp stepped
      cases isNext
      exact .recover isRecovery

/-- The machine before `initlog` on this disk. -/
def boot (P : Type) (disk : Nat → Block) (start size : Nat) : State P where
  store := ⟨disk, disk⟩
  log := ⟨start, size, 0, false, []⟩
  work := fun _ => none
  recovery := some .readHead
  nextOp := 0
  pending := []
  commits := []

/-- The states of the runs from `start` all of whose steps are allowed. -/
inductive Reachable (allowed : State P → Action P → Prop) (start : State P) :
    State P → Prop where
  | start : Reachable allowed start start
  | step {s s' : State P} {action : Action P} (reachable : Reachable allowed start s)
      (isAllowed : allowed s action) (stepped : step s action = some s') :
      Reachable allowed start s'

/-- The steps of a list of actions, in order, as far as they are allowed. -/
def State.follow (allowed : State P → Action P → Prop)
    [∀ s action, Decidable (allowed s action)] (s : State P) :
    List (Action P) → Option (State P)
  | [] => some s
  | action :: actions =>
      if allowed s action then (step s action).bind fun next => next.follow allowed actions
      else none

variable {allowed : State P → Action P → Prop} [∀ s action, Decidable (allowed s action)]

theorem Reachable.follow {start s s' : State P} {actions : List (Action P)}
    (reachable : Reachable allowed start s) (followed : s.follow allowed actions = some s') :
    Reachable allowed start s' := by
  induction actions generalizing s with
  | nil =>
      cases followed
      exact reachable
  | cons action actions ih =>
      unfold State.follow at followed
      split at followed
      · rename_i isAllowed
        obtain ⟨next, stepped, followed⟩ := Option.bind_eq_some_iff.mp followed
        exact ih (reachable.step isAllowed stepped) followed
      · cases followed

/-- A state with a decidable property, found by following a schedule. -/
theorem Reachable.exists_of_follow (allowed : State P → Action P → Prop)
    [∀ s action, Decidable (allowed s action)] (start : State P) (actions : List (Action P))
    (test : State P → Prop) [DecidablePred test]
    (checked : (start.follow allowed actions).any (fun s => test s) = true) :
    ∃ s, Reachable allowed start s ∧ test s := by
  cases followed : start.follow allowed actions with
  | none =>
      rw [followed] at checked
      cases checked
  | some s =>
      rw [followed] at checked
      exact ⟨s, Reachable.start.follow followed, by simpa using checked⟩

end Steps

end Xv6.Logging
