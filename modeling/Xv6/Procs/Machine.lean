import Xv6.Kernel.Proc
import Xv6.Runs.Reachable
import Xv6.Vm.Exec

/-!
Contract: the processes, open files and pipes of the kernel with the pages they use.

Owns: `filealloc`, `filedup`, `fileclose` of `kernel/file.c`, `pipealloc` and `pipeclose`
of `kernel/pipe.c`, `allocproc`, `freeproc`, `userinit`, `fork`, `exit` and `wait` of
`kernel/proc.c`, and the system calls that take or give back pages. A system call is one
step.

Does not own: inodes and current directories, locks, the run queue; the bytes in a pipe
and its lock, of which only the page and the two flags are here. `exec` gets what it
reads from the file and from user memory as inputs (`Vm.Exec`); `wait` is told whether
another process has killed the caller.
-/

namespace Xv6.Procs

open Xv6.Format
open Xv6.Kernel
open Xv6.Vm
open Function

abbrev FileId := Fin NFILE

abbrev Fd := Fin NOFILE

inductive FileType where
  | FD_NONE
  | FD_PIPE
  | FD_INODE
  | FD_DEVICE
deriving DecidableEq, Repr

/-- `struct file` without what inode files use. -/
structure File where
  ref : Nat
  type : FileType
  readable : Bool
  writable : Bool
  pipe : Addr
deriving DecidableEq

abbrev FileTable := FileId → File

/-- The fields of `struct proc` that these functions use. -/
structure Process where
  state : ProcState
  pid : Int
  parent : Option ProcId
  xstate : Int
  trapframe : Option Addr
  pagetable : Option Addr
  sz : Nat
  ofile : Fd → Option FileId

structure State where
  mem : Memory
  file : FileTable
  proc : ProcId → Process
  nextpid : Int

def initproc : ProcId := 0

def Process.user (p : Process) : Except Panic UserMemory :=
  match p.trapframe, p.pagetable with
  | some trapframe, some pagetable => .ok { trapframe, pagetable, sz := p.sz }
  | _, _ => .error .fault

def State.setProc (s : State) (p : ProcId) (process : Process) : State :=
  { s with proc := update s.proc p process }

/-! ## Pipes -/

/-- The word of `struct pipe` with `readopen` and `writeopen`. -/
def endsWord : Fin 512 := 68

/-- `pi->writeopen` or `pi->readopen` -/
def isOpen (pi : Page) (writable : Bool) : BitVec 32 :=
  if writable then (pi endsWord).extractLsb' 32 32 else (pi endsWord).extractLsb' 0 32

def setEnds (m : Memory) (pi : Addr) (readopen writeopen : BitVec 32) : Memory :=
  setPte m pi endsWord (writeopen ++ readopen)

def pipeclose (layout : Layout) (m : Memory) (pi : Addr) (writable : Bool) : Except Panic Memory :=
  let m :=
    if writable then setEnds m pi (isOpen (m.store pi) false) 0
    else setEnds m pi 0 (isOpen (m.store pi) true)
  if isOpen (m.store pi) false = 0 ∧ isOpen (m.store pi) true = 0 then kfree layout m pi
  else .ok m

/-! ## Files -/

def filealloc (file : FileTable) : Option (FileId × FileTable) :=
  ((List.finRange NFILE).find? fun f => (file f).ref = 0).map fun f =>
    (f, update file f { file f with ref := 1 })

def filedup (file : FileTable) (f : FileId) : Except Panic FileTable :=
  if (file f).ref < 1 then .error .filedup
  else .ok (update file f { file f with ref := (file f).ref + 1 })

def fileclose (layout : Layout) (m : Memory) (file : FileTable) (f : FileId) :
    Except Panic (Memory × FileTable) :=
  if (file f).ref < 1 then
    .error .fileclose
  else if (file f).ref - 1 > 0 then
    .ok (m, update file f { file f with ref := (file f).ref - 1 })
  else
    let ff := file f
    let file := update file f { ff with ref := 0, type := .FD_NONE }
    if ff.type = .FD_PIPE then (pipeclose layout m ff.pipe ff.writable).map fun m => (m, file)
    else .ok (m, file)

/-- `pipealloc`: the files for reading and writing, or `none` for -1. -/
def pipealloc (layout : Layout) (m : Memory) (file : FileTable) :
    Except Panic (Option (FileId × FileId) × Memory × FileTable) :=
  match filealloc file with
  | none => .ok (none, m, file)
  | some (f0, file) =>
      match filealloc file with
      | none => (fileclose layout m file f0).map fun closed => (none, closed)
      | some (f1, file) =>
          match kalloc m with
          | none =>
              (fileclose layout m file f0).bind fun (m, file) =>
                (fileclose layout m file f1).map fun closed => (none, closed)
          | some (pi, m) =>
              let m := setPte (setEnds m pi 1 1) pi 67 0
              let file := update file f0
                { file f0 with type := .FD_PIPE, readable := true, writable := false, pipe := pi }
              let file := update file f1
                { file f1 with type := .FD_PIPE, readable := false, writable := true, pipe := pi }
              .ok (some (f0, f1), m, file)

/-! ## Descriptors -/

def argfd (p : Process) (fd : Int) : Option (Fd × FileId) :=
  if inRange : 0 ≤ fd ∧ fd < NOFILE then
    let fd : Fd := ⟨fd.toNat, by omega⟩
    (p.ofile fd).map fun f => (fd, f)
  else
    none

def fdalloc (p : Process) (f : FileId) : Option (Fd × Process) :=
  ((List.finRange NOFILE).find? fun fd => p.ofile fd = none).map fun fd =>
    (fd, { p with ofile := update p.ofile fd (some f) })

def sysDup (s : State) (p : ProcId) (fd : Int) : Except Panic (Int × State) :=
  match argfd (s.proc p) fd with
  | none => .ok (-1, s)
  | some (_, f) =>
      match fdalloc (s.proc p) f with
      | none => .ok (-1, s)
      | some (fd, process) =>
          (filedup s.file f).map fun file => (fd.val, { s.setProc p process with file })

def sysClose (layout : Layout) (s : State) (p : ProcId) (fd : Int) : Except Panic (Int × State) :=
  match argfd (s.proc p) fd with
  | none => .ok (-1, s)
  | some (fd, f) =>
      let s := s.setProc p { s.proc p with ofile := update (s.proc p).ofile fd none }
      (fileclose layout s.mem s.file f).map fun (mem, file) => (0, { s with mem, file })

/-- `fileclose(rf); fileclose(wf); return -1;` -/
def closeBoth (layout : Layout) (s : State) (rf wf : FileId) : Except Panic (Int × State) :=
  (fileclose layout s.mem s.file rf).bind fun (mem, file) =>
    (fileclose layout mem file wf).map fun (mem, file) => (-1, { s with mem, file })

def intBytes (value : Int) : Bytes := fun i => (BitVec.ofInt 32 value).extractLsb' (8 * i) 8

/-- The two calls of `copyout` in `sys_pipe`; `false` if one fails. -/
def copyFds (m : Memory) (pagetable : Addr) (fdarray : Nat) (fd0 fd1 : Fd) :
    Except Panic (Bool × Memory) :=
  match copyout m pagetable fdarray (intBytes fd0.val) 4 with
  | .error panic => .error panic
  | .ok (false, m) => .ok (false, m)
  | .ok (true, m) => copyout m pagetable ((fdarray + 4) % 2 ^ 64) (intBytes fd1.val) 4

def sysPipe (layout : Layout) (s : State) (p : ProcId) (fdarray : Nat) :
    Except Panic (Int × State) :=
  match pipealloc layout s.mem s.file with
  | .error panic => .error panic
  | .ok (none, mem, file) => .ok (-1, { s with mem, file })
  | .ok (some (rf, wf), mem, file) =>
      let s := { s with mem, file }
      match fdalloc (s.proc p) rf with
      | none => closeBoth layout s rf wf
      | some (fd0, process) =>
          match fdalloc process wf with
          | none => closeBoth layout s rf wf
          | some (fd1, process) =>
              (process.user).bind fun user =>
                match copyFds s.mem user.pagetable fdarray fd0 fd1 with
                | .error panic => .error panic
                | .ok (true, mem) => .ok (0, { s.setProc p process with mem })
                | .ok (false, mem) =>
                    -- Both descriptors are cleared again, so that `p->ofile` is as before.
                    closeBoth layout { s with mem } rf wf

/-- `sys_open` of a path that was found: the part that concerns the file table. -/
def sysOpen (layout : Layout) (s : State) (p : ProcId) (device readable writable : Bool) :
    Except Panic (Int × State) :=
  match filealloc s.file with
  | none => .ok (-1, s)
  | some (f, file) =>
      match fdalloc (s.proc p) f with
      | none =>
          (fileclose layout s.mem file f).map fun (mem, file) => (-1, { s with mem, file })
      | some (fd, process) =>
          let type := if device then FileType.FD_DEVICE else .FD_INODE
          .ok (fd.val, { s.setProc p process with
            file := update file f { file f with type, readable, writable } })

/-! ## Processes -/

/-- The pages that `freeproc` gives back: `if(p->trapframe) kfree(p->trapframe);` and
`if(p->pagetable) proc_freepagetable(p->pagetable, p->sz);` -/
def freePages (layout : Layout) (m : Memory) (p : Process) : Except Panic Memory :=
  let freeTable (m : Memory) : Except Panic Memory :=
    match p.pagetable with
    | none => .ok m
    | some pagetable => procFreepagetable layout m pagetable p.sz
  match p.trapframe with
  | none => freeTable m
  | some trapframe => (kfree layout m trapframe).bind freeTable

def freeproc (layout : Layout) (s : State) (p : ProcId) : Except Panic State :=
  (freePages layout s.mem (s.proc p)).map fun mem =>
    { s.setProc p { s.proc p with
        trapframe := none, pagetable := none, sz := 0, pid := 0, parent := none, xstate := 0,
        state := .UNUSED } with mem }

/-- `allocproc`; `none` if there is no free process or no memory. -/
def allocproc (layout : Layout) (s : State) : Except Panic (Option ProcId × State) :=
  match (List.finRange NPROC).find? fun p => (s.proc p).state = .UNUSED with
  | none => .ok (none, s)
  | some p =>
      let process := { s.proc p with pid := s.nextpid, state := .USED }
      let s := { s.setProc p process with nextpid := int32 (s.nextpid + 1) }
      match kalloc s.mem with
      | none => (freeproc layout s p).map fun s => (none, s)
      | some (trapframe, mem) =>
          let process := { process with trapframe := some trapframe }
          match procPagetable layout mem trapframe with
          | .error panic => .error panic
          | .ok (pagetable, mem) =>
              let s := { s.setProc p { process with pagetable } with mem }
              match pagetable with
              | none => (freeproc layout s p).map fun s => (none, s)
              | some _ => .ok (some p, s)

/-- `*(np->trapframe) = *(p->trapframe); np->trapframe->a0 = 0;` -/
def copyTrapframe (m : Memory) (source target : Addr) : Memory :=
  let copied : Page := fun i => if i.val < 36 then m.store source i else m.store target i
  setPte { m with store := update m.store target copied } target a0Word 0

/-- The loop of `fork` over the open files. -/
def dupFiles (p np : ProcId) : List Fd → State → Except Panic State
  | [], s => .ok s
  | fd :: rest, s =>
      match (s.proc p).ofile fd with
      | none => dupFiles p np rest s
      | some f =>
          (filedup s.file f).bind fun file =>
            let process := s.proc np
            dupFiles p np rest { s.setProc np
              { process with ofile := update process.ofile fd (some f) } with file }

def fork (layout : Layout) (s : State) (p : ProcId) : Except Panic (Int × State) :=
  match allocproc layout s with
  | .error panic => .error panic
  | .ok (none, s) => .ok (-1, s)
  | .ok (some np, s) =>
      (s.proc p).user.bind fun parent =>
      (s.proc np).user.bind fun child =>
      match uvmcopy layout s.mem parent.pagetable child.pagetable parent.sz with
      | .error panic => .error panic
      | .ok (false, mem) => (freeproc layout { s with mem } np).map fun s => (-1, s)
      | .ok (true, mem) =>
          let mem := copyTrapframe mem parent.trapframe child.trapframe
          let s := { s.setProc np { s.proc np with sz := parent.sz } with mem }
          (dupFiles p np (List.finRange NOFILE) s).map fun s =>
            let process := s.proc np
            (process.pid, s.setProc np { process with parent := some p, state := .RUNNABLE })

/-- The loop of `exit` over the open files. -/
def closeFiles (layout : Layout) (p : ProcId) : List Fd → State → Except Panic State
  | [], s => .ok s
  | fd :: rest, s =>
      match (s.proc p).ofile fd with
      | none => closeFiles layout p rest s
      | some f =>
          (fileclose layout s.mem s.file f).bind fun (mem, file) =>
            let process := s.proc p
            closeFiles layout p rest { s.setProc p
              { process with ofile := update process.ofile fd none } with mem, file }

def reparent (s : State) (p : ProcId) : State :=
  { s with
    proc := fun pp =>
      if (s.proc pp).parent = some p then { s.proc pp with parent := some initproc }
      else s.proc pp }

def exit (layout : Layout) (s : State) (p : ProcId) (status : Int) : Except Panic State :=
  if p = initproc then
    .error .initExiting
  else
    (closeFiles layout p (List.finRange NOFILE) s).map fun s =>
      let s := reparent s p
      s.setProc p { s.proc p with xstate := status, state := .ZOMBIE }

/-- `wait`; `none` while the caller sleeps. -/
def wait (layout : Layout) (s : State) (p : ProcId) (addr : Nat) (killed : Bool) :
    Except Panic (Option (Int × State)) :=
  match (List.finRange NPROC).find? fun pp =>
      (s.proc pp).parent = some p ∧ (s.proc pp).state = .ZOMBIE with
  | some pp =>
      let pid := (s.proc pp).pid
      if addr ≠ 0 then
        (s.proc p).user.bind fun user =>
          match copyout s.mem user.pagetable addr (intBytes (s.proc pp).xstate) 4 with
          | .error panic => .error panic
          | .ok (false, mem) => .ok (some (-1, { s with mem }))
          | .ok (true, mem) => (freeproc layout { s with mem } pp).map fun s => some (pid, s)
      else
        (freeproc layout s pp).map fun s => some (pid, s)
  | none =>
      let havekids := (List.finRange NPROC).any fun pp => (s.proc pp).parent = some p
      if !havekids || killed then .ok (some (-1, s)) else .ok none

def sysSbrk (layout : Layout) (s : State) (p : ProcId) (n : Int) : Except Panic (Int × State) :=
  (s.proc p).user.bind fun user =>
    (growproc layout s.mem user.pagetable user.sz n).map fun (result, mem) =>
      match result with
      | none => (-1, { s with mem })
      | some sz => (user.sz, { s.setProc p { s.proc p with sz } with mem })

def callExec (layout : Layout) (s : State) (p : ProcId) (file : Option Reader)
    (fetch : Nat → Fetched) : Except Panic (Int × State) :=
  (s.proc p).user.bind fun user =>
    (sysExec layout s.mem user file fetch).map fun (ret, user, mem) =>
      (ret, { s.setProc p
        { s.proc p with pagetable := some user.pagetable, sz := user.sz } with mem })

/-! ## Runs -/

inductive Call where
  | fork
  | exec (file : Option Reader) (fetch : Nat → Fetched)
  | exit (status : Int)
  | wait (addr : Nat) (killed : Bool)
  | sbrk (n : Int)
  | pipe (fdarray : Nat)
  | dup (fd : Int)
  | close (fd : Int)
  | openFile (device readable writable : Bool)

/-- A system call; `none` while the caller sleeps in `wait`. -/
def call (layout : Layout) (s : State) (p : ProcId) : Call → Except Panic (Option (Int × State))
  | .fork => (fork layout s p).map some
  | .exec file fetch => (callExec layout s p file fetch).map some
  | .exit status => (exit layout s p status).map fun s => some (0, s)
  | .wait addr killed => wait layout s p addr killed
  | .sbrk n => (sysSbrk layout s p n).map some
  | .pipe fdarray => (sysPipe layout s p fdarray).map some
  | .dup fd => (sysDup s p fd).map some
  | .close fd => (sysClose layout s p fd).map some
  | .openFile device readable writable => (sysOpen layout s p device readable writable).map some

def step (layout : Layout) (s : State) (action : ProcId × Call) : Option State :=
  match call layout s action.1 action.2 with
  | .ok (some (_, s')) => some s'
  | _ => none

/-- A process that may call: it exists, and the first one does not exit. -/
def MayCall (s : State) (action : ProcId × Call) : Prop :=
  (s.proc action.1).state ∉ [.UNUSED, .USED, .ZOMBIE] ∧
    ∀ status, action.2 = .exit status → action.1 ≠ initproc

def Call.isExit : Call → Bool
  | .exit _ => true
  | _ => false

theorem mayCall_iff (s : State) (action : ProcId × Call) :
    MayCall s action ↔ (s.proc action.1).state ∉ [.UNUSED, .USED, .ZOMBIE] ∧
      (action.2.isExit = true → action.1 ≠ initproc) := by
  obtain ⟨p, c⟩ := action
  cases c <;> simp [MayCall, Call.isExit]

instance mayCallDecidable (s : State) (action : ProcId × Call) : Decidable (MayCall s action) :=
  decidable_of_iff _ (mayCall_iff s action).symm

def emptyProcess : Process where
  state := .UNUSED
  pid := 0
  parent := none
  xstate := 0
  trapframe := none
  pagetable := none
  sz := 0
  ofile := fun _ => none

def emptyFile : File where
  ref := 0
  type := .FD_NONE
  readable := false
  writable := false
  pipe := 0

def unstarted (mem : Memory) : State where
  mem
  file := fun _ => emptyFile
  proc := fun _ => emptyProcess
  nextpid := 1

/-- `userinit` with the code of the first process. -/
def userinit (layout : Layout) (mem : Memory) (code : Page) : Except Panic State :=
  match allocproc layout (unstarted mem) with
  | .error panic => .error panic
  | .ok (none, _) => .error .fault
  | .ok (some p, s) =>
      (s.proc p).user.bind fun user =>
        match uvmfirst s.mem user.pagetable code with
        | none => .error .fault
        | some (.error panic) => .error panic
        | some (.ok mem) =>
            let mem := setPte (setPte mem user.trapframe epcWord 0) user.trapframe spWord
              (BitVec.ofNat 64 PGSIZE)
            .ok { s.setProc p { s.proc p with sz := PGSIZE, state := .RUNNABLE } with mem }

end Xv6.Procs
