import Xv6.Procs.Pages

/-!
Contract: the system calls on memory and descriptors complete and keep the invariant of
the kernel.

Owns: the invariant between system calls (pages, references to files, what processes in
each state have), and for `sbrk`, `exec`, `dup`, `close`, `open` and `pipe` that they
complete, keep the invariant and neither lose nor invent a page.

Does not own: the calls that make and free processes (`Lifecycle`).
-/

namespace Xv6.Procs

open Xv6.Kernel
open Xv6.Pools
open Xv6.Refs
open Xv6.Vm
open Function

variable {layout : Layout} {m m' : Memory} {s s' : State} {p : ProcId} {file file' : FileTable}
  {f : FileId} {fd : Fd} {extra : Multiset FileId} {process : Process}

/-! ## References to files -/

def slots (proc : ProcId → Process) (slot : ProcId × Fd) : Option FileId :=
  (proc slot.1).ofile slot.2

/-- The references to a file are the descriptors, and those in `extra`, which a call has
not stored yet. -/
def Counted (file : FileTable) (proc : ProcId → Process) (extra : Multiset FileId) : Prop :=
  ∀ f, (file f).ref = count (slots proc) f + extra.count f

theorem slots_update (proc : ProcId → Process) (p : ProcId) (process : Process) (fd : Fd)
    (value : Option FileId) (written : process.ofile = update (proc p).ofile fd value) :
    slots (update proc p process) = update (slots proc) (p, fd) value := by
  funext ⟨q, fd'⟩
  by_cases isProc : q = p
  · subst isProc
    by_cases isFd : fd' = fd
    · subst isFd
      simp [slots, written]
    · rw [update_of_ne (by simpa using isFd)]
      simp [slots, written, isFd]
  · rw [update_of_ne (by simp [isProc])]
    simp [slots, isProc]

theorem slots_congr {proc proc' : ProcId → Process} (same : ∀ q, (proc' q).ofile = (proc q).ofile) :
    slots proc' = slots proc := by
  funext ⟨q, fd⟩
  rw [slots, slots, same]

namespace Counted

variable {proc : ProcId → Process} {process : Process}

theorem congr {proc' : ProcId → Process} (counted : Counted file proc extra)
    (same : ∀ q, (proc' q).ofile = (proc q).ofile) : Counted file proc' extra := by
  intro f
  rw [slots_congr same]
  exact counted f

/-- A new reference is stored. -/
theorem store (counted : Counted file proc (f ::ₘ extra)) (isFree : (proc p).ofile fd = none)
    (written : process.ofile = update (proc p).ofile fd (some f)) :
    Counted file (update proc p process) extra := by
  intro g
  have changed := count_update (slots proc) (p, fd) (some f) g
  have before := counted g
  rw [show slots proc (p, fd) = none from isFree] at changed
  rw [Multiset.count_cons] at before
  rw [slots_update proc p process fd (some f) written]
  simp only [one, Option.some.injEq, reduceCtorEq, if_false] at changed
  by_cases same : g = f
  · subst same
    simp only [if_true] at before changed
    omega
  · rw [if_neg same] at before
    rw [if_neg (Ne.symm same)] at changed
    omega

/-- A reference is taken out of its descriptor. -/
theorem clear (counted : Counted file proc extra) (isRef : (proc p).ofile fd = some f)
    (written : process.ofile = update (proc p).ofile fd none) :
    Counted file (update proc p process) (f ::ₘ extra) := by
  intro g
  have changed := count_update (slots proc) (p, fd) none g
  have before := counted g
  rw [show slots proc (p, fd) = some f from isRef] at changed
  rw [Multiset.count_cons, slots_update proc p process fd none written]
  simp only [one, Option.some.injEq, reduceCtorEq, if_false] at changed
  by_cases same : g = f
  · subst same
    simp only [if_true] at changed ⊢
    omega
  · rw [if_neg same]
    rw [if_neg (Ne.symm same)] at changed
    omega

theorem pos (counted : Counted file proc extra) (isRef : (proc p).ofile fd = some f) :
    0 < (file f).ref := by
  have isCounted : 0 < count (slots proc) f :=
    count_pos (show slots proc (p, fd) = some f from isRef)
  have total := counted f
  omega

/-- One file gets `change` more references. -/
theorem write (counted : Counted file proc extra) {refs : FileId → Nat}
    (isRefs : ∀ g, (file' g).ref = refs g) {extra' : Multiset FileId}
    (changed : ∀ g, refs g + extra.count g = (file g).ref + extra'.count g) :
    Counted file' proc extra' := by
  intro g
  have before := counted g
  have after := changed g
  rw [isRefs]
  omega

/-- `filedup` -/
theorem add (counted : Counted file proc extra)
    (isRefs : ∀ g, (file' g).ref =
      update (fun f => (file f).ref) f ((file f).ref + 1) g) :
    Counted file' proc (f ::ₘ extra) := by
  refine counted.write isRefs fun g => ?_
  rw [Multiset.count_cons, update_apply]
  by_cases same : g = f
  · subst same
    simp only [if_true]
    omega
  · simp only [if_neg same]
    omega

/-- `filealloc` -/
theorem alloc (counted : Counted file proc extra) (isFree : (file f).ref = 0)
    (isRefs : ∀ g, (file' g).ref = update (fun f => (file f).ref) f 1 g) :
    Counted file' proc (f ::ₘ extra) :=
  counted.add fun g => by
    rw [isFree]
    exact isRefs g

/-- `fileclose` -/
theorem drop (counted : Counted file proc (f ::ₘ extra))
    (isRefs : ∀ g, (file' g).ref =
      update (fun f => (file f).ref) f ((file f).ref - 1) g) :
    Counted file' proc extra := by
  have positive : 0 < (file f).ref := by
    rw [counted f, Multiset.count_cons_self]
    omega
  refine counted.write isRefs fun g => ?_
  rw [Multiset.count_cons, update_apply]
  by_cases same : g = f
  · subst same
    simp only [if_true]
    omega
  · simp only [if_neg same]
    omega

end Counted

/-! ## The invariant -/

/-- What a process in each state has. -/
structure Tidy (process : Process) : Prop where
  unused : process.state = .UNUSED →
    process.trapframe = none ∧ process.pagetable = none ∧ process.sz = 0
  closed : process.state = .UNUSED ∨ process.state = .ZOMBIE → ∀ fd, process.ofile fd = none
  present : process.state ≠ .UNUSED → ∃ user, process.user = .ok user

structure Invariant (layout : Layout) (extra : Multiset FileId) (s : State) : Prop where
  pages : Pages layout s
  counted : Counted s.file s.proc extra
  tidy : ∀ p, Tidy (s.proc p)

/-- A step keeps the invariant and neither loses nor invents a page. -/
structure Next (layout : Layout) (extra : Multiset FileId) (s s' : State) : Prop where
  invariant : Invariant layout extra s'
  conserved : allPages s' = allPages s

def Completes (layout : Layout) (s : State) (result : Except Panic (Int × State)) : Prop :=
  ∃ ret s', result = .ok (ret, s') ∧ Next layout 0 s s'

theorem Invariant.next (invariant : Invariant layout extra s) : Next layout extra s s :=
  ⟨invariant, rfl⟩

theorem Next.trans {extra' : Multiset FileId} {s'' : State} (first : Next layout extra' s s')
    (second : Next layout extra s' s'') : Next layout extra s s'' :=
  ⟨second.invariant, second.conserved.trans first.conserved⟩

theorem Next.completes {ret : Int} {result : Except Panic (Int × State)} (next : Next layout 0 s s')
    (ran : result = .ok (ret, s')) : Completes layout s result := ⟨ret, s', ran, next⟩

/-- The invariant, while one process is being made or freed. -/
structure AllBut (layout : Layout) (extra : Multiset FileId) (p : ProcId) (s : State) : Prop where
  pages : Pages layout s
  counted : Counted s.file s.proc extra
  others : ∀ q, q ≠ p → Tidy (s.proc q)

theorem Invariant.allBut (invariant : Invariant layout extra s) (p : ProcId) :
    AllBut layout extra p s :=
  ⟨invariant.pages, invariant.counted, fun q _ => invariant.tidy q⟩

section OneProcess

variable (allBut : AllBut layout extra p s) (process : Process)
  (moved : Transfer s.mem m' (procPages s.mem (s.proc p)) (procPages m' process))
  (image : HasImage layout m' process) (sameFiles : process.ofile = (s.proc p).ofile)
  (nextpid : Int)

include allBut moved image sameFiles

/-- The process and its pages change. -/
theorem AllBut.set : AllBut layout extra p { s.setProc p process with mem := m', nextpid } ∧
    allPages { s.setProc p process with mem := m', nextpid } = allPages s := by
  have kept : Kept layout s { s.setProc p process with mem := m' } :=
    allBut.pages.setProc moved image
  have isProc : ∀ q, update s.proc p process q = if q = p then process else s.proc q :=
    fun q => update_apply ..
  refine ⟨⟨⟨kept.pages.owned, kept.pages.images, kept.pages.pipes⟩,
    allBut.counted.congr fun q => ?_, fun q different => ?_⟩, kept.conserved⟩
  · change (update s.proc p process q).ofile = _
    rw [isProc]
    split
    · rename_i isSelf
      rw [isSelf, sameFiles]
    · rfl
  · change Tidy (update s.proc p process q)
    rw [isProc, if_neg different]
    exact allBut.others q different

theorem AllBut.next (tidy : Tidy process) :
    Next layout extra s { s.setProc p process with mem := m', nextpid } := by
  obtain ⟨after, conserved⟩ := allBut.set process moved image sameFiles nextpid
  refine ⟨⟨after.pages, after.counted, fun q => ?_⟩, conserved⟩
  by_cases isSelf : q = p
  · change Tidy (update s.proc p process q)
    rwa [isSelf, update_self]
  · exact after.others q isSelf

end OneProcess

/-! ## sbrk and exec -/

theorem user_eq {user : UserMemory} (isUser : process.user = .ok user) :
    process.trapframe = some user.trapframe ∧ process.pagetable = some user.pagetable ∧
      process.sz = user.sz := by
  unfold Process.user at isUser
  split at isUser
  · rename_i isTrapframe isTable
    cases isUser
    exact ⟨isTrapframe, isTable, rfl⟩
  · cases isUser

theorem user_of_fields {user : UserMemory} (isTrapframe : process.trapframe = some user.trapframe)
    (isTable : process.pagetable = some user.pagetable) (isSize : process.sz = user.sz) :
    process.user = .ok user := by
  rw [Process.user, isTrapframe, isTable, isSize]

theorem HasImage.of_user {user : UserMemory} (isUser : process.user = .ok user)
    (space : HasSpace layout m user) : HasImage layout m process := by
  obtain ⟨isTrapframe, isTable, isSize⟩ := user_eq isUser
  intro pagetable isSome
  rw [isTable] at isSome
  cases isSome
  exact ⟨user.trapframe, isTrapframe, isSize ▸ space⟩

theorem Pages.user (pages : Pages layout s) {user : UserMemory}
    (isUser : (s.proc p).user = .ok user) :
    HasSpace layout s.mem user ∧ Owned layout s.mem (userPages s.mem user) := by
  obtain ⟨isTrapframe, isTable, isSize⟩ := user_eq isUser
  obtain ⟨trapframe, isSome, space⟩ := pages.images p user.pagetable isTable
  rw [isTrapframe] at isSome
  cases isSome
  rw [isSize] at space
  refine ⟨space, ?_⟩
  rw [← procPages_user isUser]
  exact (pages.ownedBy p).mono (Multiset.le_add_right ..)

theorem Pages.users (pages : Pages layout s) {q : ProcId} (different : p ≠ q)
    {user other : UserMemory} (isUser : (s.proc p).user = .ok user)
    (isOther : (s.proc q).user = .ok other) :
    Owned layout s.mem (userPages s.mem other + userPages s.mem user) := by
  rw [← procPages_user isUser, ← procPages_user isOther]
  exact (pages.ownedBy q).mono (by gcongr; exact procPages_le different)

theorem setProc_self (s : State) (p : ProcId) : s.setProc p (s.proc p) = s := by
  rw [State.setProc, update_eq_self]

theorem Invariant.setUser (invariant : Invariant layout extra s) {user user' : UserMemory}
    (isUser : (s.proc p).user = .ok user) (process : Process) (isUser' : process.user = .ok user')
    (sameState : process.state = (s.proc p).state) (sameFiles : process.ofile = (s.proc p).ofile)
    (moved : Transfer s.mem m' (userPages s.mem user) (userPages m' user'))
    (space : HasSpace layout m' user') :
    Next layout extra s { s.setProc p process with mem := m' } := by
  refine (invariant.allBut p).next process (by rwa [procPages_user isUser, procPages_user isUser'])
    (.of_user isUser' space) sameFiles s.nextpid
    ⟨fun isUnused => ?_, fun isClosed => ?_, fun _ => ⟨user', isUser'⟩⟩
  · rw [sameState] at isUnused
    have absent := ((invariant.tidy p).unused isUnused).1
    rw [(user_eq isUser).1] at absent
    cases absent
  · rw [sameState] at isClosed
    rw [sameFiles]
    exact (invariant.tidy p).closed isClosed

theorem sysSbrk_completes (invariant : Invariant layout 0 s) (isHere : (s.proc p).state ≠ .UNUSED)
    (n : Int) : Completes layout s (sysSbrk layout s p n) := by
  obtain ⟨user, isUser⟩ := (invariant.tidy p).present isHere
  obtain ⟨isTrapframe, isTable, isSize⟩ := user_eq isUser
  obtain ⟨space, owned⟩ := invariant.pages.user isUser
  obtain ⟨result, mem, ran, reshaped, -⟩ :=
    growproc_spec space (owned.mono (Multiset.le_add_left ..)) n
  have moved : Transfer s.mem mem (userPages s.mem user)
      (userPages mem { user with sz := result.getD user.sz }) :=
    reshaped.transfer.widen (add_comm ..) (add_comm ..)
  simp only [Completes, sysSbrk, isUser, Except.bind, ran, Except.map]
  cases result with
  | none =>
      have next := invariant.setUser isUser _ isUser rfl rfl moved reshaped.space
      rw [setProc_self] at next
      exact ⟨-1, _, rfl, next⟩
  | some sz =>
      have isUser' : ({ s.proc p with sz } : Process).user = .ok { user with sz } :=
        user_of_fields isTrapframe isTable rfl
      exact ⟨user.sz, _, rfl, invariant.setUser isUser _ isUser' rfl rfl moved reshaped.space⟩

theorem callExec_completes (invariant : Invariant layout 0 s) (isHere : (s.proc p).state ≠ .UNUSED)
    (file : Option Reader) (fetch : Nat → Fetched) :
    Completes layout s (callExec layout s p file fetch) := by
  obtain ⟨user, isUser⟩ := (invariant.tidy p).present isHere
  obtain ⟨isTrapframe, isTable, isSize⟩ := user_eq isUser
  obtain ⟨space, owned⟩ := invariant.pages.user isUser
  obtain ⟨ret, user', mem, ran, execed⟩ := sysExec_spec space owned file fetch
  simp only [Completes, callExec, isUser, Except.bind, ran, Except.map]
  have isUser' : ({ s.proc p with pagetable := some user'.pagetable, sz := user'.sz } :
      Process).user = .ok user' :=
    user_of_fields (by rw [execed.sameTrapframe]; exact isTrapframe) rfl rfl
  exact ⟨ret, _, rfl,
    invariant.setUser isUser _ isUser' rfl rfl execed.transfer execed.space⟩

/-! ## Descriptors -/

theorem argfd_eq_some {n : Int} (found : argfd process n = some (fd, f)) :
    process.ofile fd = some f := by
  unfold argfd at found
  split at found
  · obtain ⟨f', isRef, isPair⟩ := Option.map_eq_some_iff.mp found
    cases isPair
    exact isRef
  · cases found

theorem fdalloc_eq_some {process' : Process} (found : fdalloc process f = some (fd, process')) :
    process.ofile fd = none ∧
      process' = { process with ofile := update process.ofile fd (some f) } := by
  obtain ⟨fd', isFound, isPair⟩ := Option.map_eq_some_iff.mp found
  cases isPair
  exact ⟨by simpa using List.find?_some isFound, rfl⟩

namespace Invariant

variable {extra' : Multiset FileId}

theorem setFiles {refs : FileId → Nat} (invariant : Invariant layout extra s)
    (filed : Filed s.mem m' s.file file' refs) (counted : Counted file' s.proc extra') :
    Next layout extra' s { s with mem := m', file := file' } := by
  have kept := invariant.pages.setFiles filed.transfer filed.pipes
  exact ⟨⟨kept.pages, counted, invariant.tidy⟩, kept.conserved⟩

theorem ownedPipes (invariant : Invariant layout extra s) :
    Owned layout s.mem (pipePages s.file) :=
  invariant.pages.owned.mono (Multiset.le_add_left ..)

theorem close (invariant : Invariant layout (f ::ₘ extra) s) :
    ∃ mem file, fileclose layout s.mem s.file f = .ok (mem, file) ∧
      Next layout extra s { s with mem, file } := by
  have positive : 0 < (s.file f).ref := by
    rw [invariant.counted f, Multiset.count_cons_self]
    omega
  obtain ⟨mem, file, ran, filed⟩ :=
    fileclose_spec invariant.pages.pipes invariant.ownedPipes positive
  exact ⟨mem, file, ran, invariant.setFiles filed (invariant.counted.drop filed.ref)⟩

/-- A descriptor of a process that is neither free nor a zombie changes. -/
theorem setOfile (invariant : Invariant layout extra s)
    (isOpen : (s.proc p).state ≠ .UNUSED ∧ (s.proc p).state ≠ .ZOMBIE) {ofile : Fd → Option FileId}
    (counted : Counted s.file (update s.proc p { s.proc p with ofile }) extra') :
    Next layout extra' s (s.setProc p { s.proc p with ofile }) := by
  have isProc : ∀ q, (update s.proc p { s.proc p with ofile } q) =
      if q = p then { s.proc p with ofile } else s.proc q := fun q => update_apply ..
  have kept : Kept layout s (s.setProc p { s.proc p with ofile }) := by
    refine invariant.pages.setFields (fun q => ?_) s.nextpid
    rw [isProc]
    split
    · rename_i same
      subst same
      exact ⟨rfl, rfl, rfl⟩
    · exact ⟨rfl, rfl, rfl⟩
  refine ⟨⟨kept.pages, counted, fun q => ?_⟩, kept.conserved⟩
  change Tidy (update s.proc p { s.proc p with ofile } q)
  rw [isProc]
  split
  · exact ⟨fun isUnused => absurd isUnused isOpen.1,
      fun isClosed => (isClosed.elim isOpen.1 isOpen.2).elim,
      fun isHere => (invariant.tidy p).present isHere⟩
  · exact invariant.tidy q

theorem fdalloc (invariant : Invariant layout (f ::ₘ extra) s)
    (isOpen : (s.proc p).state ≠ .UNUSED ∧ (s.proc p).state ≠ .ZOMBIE)
    (found : fdalloc (s.proc p) f = some (fd, process)) :
    Next layout extra s (s.setProc p process) := by
  obtain ⟨isFree, rfl⟩ := fdalloc_eq_some found
  exact invariant.setOfile isOpen (invariant.counted.store isFree rfl)

/-- A descriptor is closed. `exit` clears it after `fileclose` and `close` before it; the order
does not matter. -/
theorem closeFd (invariant : Invariant layout extra s)
    (isOpen : (s.proc p).state ≠ .UNUSED ∧ (s.proc p).state ≠ .ZOMBIE)
    (isRef : (s.proc p).ofile fd = some f) :
    ∃ mem file, fileclose layout s.mem s.file f = .ok (mem, file) ∧
      Next layout extra s { s.setProc p { s.proc p with
        ofile := update (s.proc p).ofile fd none } with mem, file } := by
  have first : Next layout (f ::ₘ extra) s (s.setProc p { s.proc p with
      ofile := update (s.proc p).ofile fd none }) :=
    invariant.setOfile isOpen (invariant.counted.clear isRef rfl)
  obtain ⟨mem, file, ran, second⟩ := first.invariant.close
  exact ⟨mem, file, ran, first.trans second⟩

end Invariant

section Descriptors

variable (invariant : Invariant layout 0 s)
  (isOpen : (s.proc p).state ≠ .UNUSED ∧ (s.proc p).state ≠ .ZOMBIE)

include invariant isOpen

theorem sysDup_completes (n : Int) : Completes layout s (sysDup s p n) := by
  unfold sysDup
  cases found : argfd (s.proc p) n with
  | none => exact invariant.next.completes rfl
  | some descriptor =>
      obtain ⟨fd, f⟩ := descriptor
      dsimp only
      have isRef := argfd_eq_some found
      cases allocated : fdalloc (s.proc p) f with
      | none => exact invariant.next.completes rfl
      | some descriptor =>
          obtain ⟨fd', process⟩ := descriptor
          -- The descriptor is written before `filedup`; the order does not matter.
          obtain ⟨file, ran, filed⟩ :=
            filedup_spec invariant.pages.pipes (invariant.counted.pos isRef)
          have first := invariant.setFiles filed (invariant.counted.add filed.ref)
          have second := first.invariant.fdalloc isOpen allocated
          simp only [ran]
          exact (first.trans second).completes rfl

theorem sysClose_completes (n : Int) : Completes layout s (sysClose layout s p n) := by
  unfold sysClose
  cases found : argfd (s.proc p) n with
  | none => exact invariant.next.completes rfl
  | some descriptor =>
      obtain ⟨fd, f⟩ := descriptor
      obtain ⟨mem, file, ran, next⟩ := invariant.closeFd isOpen (argfd_eq_some found)
      exact next.completes (congrArg (Except.map _) ran)

omit invariant isOpen in
theorem closeBoth_completes {rf wf : FileId} (next : Next layout (rf ::ₘ wf ::ₘ 0) s s') :
    Completes layout s (closeBoth layout s' rf wf) := by
  obtain ⟨mem, file, ran, first⟩ := next.invariant.close
  obtain ⟨mem', file', ran', second⟩ := first.invariant.close
  unfold closeBoth
  simp only [ran, Except.bind]
  dsimp only at ran'
  simp only [ran']
  exact ((next.trans first).trans second).completes rfl

theorem sysOpen_completes (device readable writable : Bool) :
    Completes layout s (sysOpen layout s p device readable writable) := by
  unfold sysOpen
  cases allocated : filealloc s.file with
  | none => exact invariant.next.completes rfl
  | some allocation =>
      obtain ⟨f, file⟩ := allocation
      dsimp only
      obtain ⟨isFree, isFile, filed⟩ := filealloc_spec invariant.pages.pipes allocated
      have first := invariant.setFiles filed (invariant.counted.alloc isFree filed.ref)
      cases found : fdalloc (s.proc p) f with
      | none =>
          obtain ⟨mem, file', ran, second⟩ := first.invariant.close
          exact (first.trans second).completes (congrArg (Except.map _) ran)
      | some descriptor =>
          obtain ⟨fd, process⟩ := descriptor
          have second := first.invariant.fdalloc isOpen found
          -- The type is set; it is not that of a pipe.
          generalize isType : (if device then FileType.FD_DEVICE else .FD_INODE) = type
          have notPipe : type ≠ .FD_PIPE := by
            rw [← isType]
            cases device <;> decide
          have isRef : (file f).ref = 1 := by rw [filed.ref, update_self]
          have wasNoPipe : (file f).pipeEnd = none := by
            refine pipeEnd_of_type ?_
            rw [isFile, update_self]
            show (s.file f).type ≠ .FD_PIPE
            rw [invariant.pages.pipes.unused f isFree]
            decide
          have typed : Filed s.mem s.mem file
              (update file f { file f with type, readable, writable })
              (update (fun f => (file f).ref) f (file f).ref) :=
            filed.pipes.write _ (by rw [wasNoPipe]; exact pipeEnd_of_type notPipe)
              fun isZero => by rw [isRef] at isZero; cases isZero
          have sameCount : Counted (update file f { file f with type, readable, writable })
              (s.setProc p process).proc 0 :=
            second.invariant.counted.write typed.ref fun g => by
              rw [update_eq_self f (fun f => (file f).ref)]
              rfl
          have third := second.invariant.setFiles typed sameCount
          exact ((first.trans second).trans third).completes rfl

omit invariant isOpen in
theorem copyFds_spec {user : UserMemory} (space : HasSpace layout m user)
    (owned : Owned layout m (userPages m user)) (fdarray : Nat) (fd0 fd1 : Fd) :
    ∃ ok m', copyFds m user.pagetable fdarray fd0 fd1 = .ok (ok, m') ∧
      Transfer m m' (userPages m user) (userPages m' user) ∧ HasSpace layout m' user := by
  have ownedSpace := owned.mono (Multiset.le_add_left ..)
  have notForUser := supervisor_notForUser layout user.trapframe
  obtain ⟨ok, m₁, ran, first⟩ :=
    copyout_spec space ownedSpace notForUser fdarray (intBytes fd0.val) 4
  unfold copyFds
  simp only [ran]
  cases ok with
  | false =>
      exact ⟨false, m₁, rfl, first.transfer.widen (add_comm ..) (add_comm ..), first.space⟩
  | true =>
      obtain ⟨ok, m', ran', second⟩ := copyout_spec first.space
        (ownedSpace.moved first.transfer) notForUser ((fdarray + 4) % 2 ^ 64) (intBytes fd1.val) 4
      have both := first.trans second
      exact ⟨ok, m', ran', both.transfer.widen (add_comm ..) (add_comm ..), both.space⟩

theorem sysPipe_completes (fdarray : Nat) : Completes layout s (sysPipe layout s p fdarray) := by
  unfold sysPipe
  obtain ⟨result, mem, file, ran, outcome⟩ :=
    pipealloc_spec invariant.pages.pipes invariant.ownedPipes
  rcases outcome with ⟨rfl, filed⟩ | ⟨rf, wf, rfl, different, isFree0, isFree1, filed⟩
  · simp only [ran]
    have counted : Counted file s.proc 0 := invariant.counted.write filed.ref fun g => rfl
    exact (invariant.setFiles filed counted).completes rfl
  · simp only [ran]
    have counted : Counted file s.proc (rf ::ₘ wf ::ₘ 0) := by
      refine invariant.counted.write filed.ref fun g => ?_
      rw [Multiset.count_cons, Multiset.count_cons, update_apply, update_apply]
      by_cases isWrite : g = wf
      · rw [if_pos isWrite, if_pos isWrite, if_neg (isWrite.trans_ne different), isWrite, isFree1]
        omega
      · rw [if_neg isWrite, if_neg isWrite]
        by_cases isRead : g = rf
        · rw [if_pos isRead, if_pos isRead, isRead, isFree0]
          omega
        · rw [if_neg isRead, if_neg isRead]
          omega
    have first := invariant.setFiles filed counted
    cases found0 : fdalloc (s.proc p) rf with
    | none => exact closeBoth_completes first
    | some descriptor0 =>
        obtain ⟨fd0, process0⟩ := descriptor0
        dsimp only
        cases found1 : fdalloc process0 wf with
        | none => exact closeBoth_completes first
        | some descriptor1 =>
            obtain ⟨fd1, process1⟩ := descriptor1
            obtain ⟨user, isUser⟩ := (invariant.tidy p).present isOpen.1
            obtain ⟨isTrapframe, isTable, isSize⟩ := user_eq isUser
            have isProcess0 := (fdalloc_eq_some found0).2
            have isUser1 : process1.user = .ok user := by
              rw [(fdalloc_eq_some found1).2, isProcess0]
              exact user_of_fields isTrapframe isTable isSize
            obtain ⟨space, owned⟩ := first.invariant.pages.user isUser
            obtain ⟨ok, mem', copied, moved, space'⟩ := copyFds_spec space owned fdarray fd0 fd1
            have second := first.invariant.setUser isUser _ isUser rfl rfl moved space'
            rw [setProc_self] at second
            simp only [isUser1, Except.bind]
            dsimp only at copied
            simp only [copied]
            cases ok with
            | false => exact closeBoth_completes (first.trans second)
            | true =>
                have third := second.invariant.fdalloc isOpen found0
                have isHere : (({ s with mem := mem', file } : State).setProc p process0).proc p =
                    process0 := update_self ..
                have fourth := third.invariant.fdalloc (p := p)
                  (by rw [isHere, isProcess0]; exact isOpen) (isHere ▸ found1)
                have all := ((first.trans second).trans third).trans fourth
                have isFinal : (({ s with mem := mem', file } : State).setProc p process0).setProc p
                    process1 = ({ s with mem := mem', file } : State).setProc p process1 := by
                  simp [State.setProc]
                rw [isFinal] at all
                exact all.completes rfl

end Descriptors

end Xv6.Procs
