import Xv6.Procs.Calls

/-!
Contract: processes come and go with all their pages.

Owns: for `fork`, `exit` and `wait`, with `allocproc` and `freeproc`, that they complete,
keep the invariant of the kernel and neither lose nor invent a page.
-/

namespace Xv6.Procs

open Xv6.Kernel
open Xv6.Pools
open Xv6.Refs
open Xv6.Vm
open Function

variable {layout : Layout} {m m' : Memory} {s s' : State} {p np : ProcId} {fd : Fd}
  {extra : Multiset FileId}

/-! ## freeproc -/

theorem freePages_spec {process : Process} (image : HasImage layout m process)
    (owned : Owned layout m (procPages m process)) :
    ∃ m', freePages layout m process = .ok m' ∧ Transfer m m' (procPages m process) 0 := by
  cases isTable : process.pagetable with
  | none =>
      cases isTrapframe : process.trapframe with
      | none =>
          refine ⟨m, by simp only [freePages, isTable, isTrapframe], ?_⟩
          rw [procPages_none isTrapframe isTable]
          exact .refl _ _
      | some trapframe =>
          rw [procPages_trapframe isTrapframe isTable] at owned ⊢
          obtain ⟨m', freed, released⟩ := kfree_spec (m := m) (owned.pages trapframe (by simp))
          refine ⟨m', ?_, released⟩
          simp only [freePages, isTable, isTrapframe, freed, Except.bind]
  | some pagetable =>
      obtain ⟨trapframe, isTrapframe, space⟩ := image pagetable isTable
      have isUser : process.user = .ok { trapframe, pagetable, sz := process.sz } :=
        user_of_fields isTrapframe isTable rfl
      rw [procPages_user isUser] at owned ⊢
      obtain ⟨m₁, freed, released⟩ := kfree_spec (m := m) (owned.pages trapframe (by simp))
      obtain ⟨space₁, samePages, -⟩ := space.frame owned released
      have moved : Transfer m m₁ (userPages m { trapframe, pagetable, sz := process.sz })
          (spacePages m₁ pagetable (npages process.sz)) := by
        rw [samePages]
        exact (released.add _).congr rfl (zero_add _).symm
      obtain ⟨m', ran, rest⟩ := procFreepagetable_spec space₁ (owned.moved moved)
      refine ⟨m', ?_, moved.trans rest⟩
      simp only [freePages, isTable, isTrapframe, freed, Except.bind, ran]

/-- **`freeproc`** of a process without descriptors gives all its pages back. -/
theorem freeproc_next (allBut : AllBut layout extra p s)
    (closed : ∀ fd, (s.proc p).ofile fd = none) :
    ∃ s', freeproc layout s p = .ok s' ∧ Next layout extra s s' := by
  obtain ⟨mem, ran, released⟩ := freePages_spec (allBut.pages.images p)
    ((allBut.pages.ownedBy p).mono (Multiset.le_add_right ..))
  refine ⟨_, by rw [freeproc, ran]; rfl, ?_⟩
  refine allBut.next { s.proc p with
    trapframe := none, pagetable := none, sz := 0, pid := 0, parent := none, xstate := 0,
    state := .UNUSED } ?_ nofun rfl s.nextpid ⟨fun _ => ⟨rfl, rfl, rfl⟩, fun _ => closed, ?_⟩
  · have noPages : procPages mem { s.proc p with
        trapframe := none, pagetable := none, sz := 0, pid := 0, parent := none, xstate := 0,
        state := .UNUSED } = 0 := procPages_none rfl rfl
    rwa [noPages]
  · exact fun isHere => absurd rfl isHere

/-! ## wait -/

/-- What `wait` and the other calls that may sleep do. -/
def CompletesOrSleeps (layout : Layout) (s : State) (result : Except Panic (Option (Int × State))) :
    Prop :=
  result = .ok none ∨ ∃ ret s', result = .ok (some (ret, s')) ∧ Next layout 0 s s'

theorem wait_completes (invariant : Invariant layout 0 s) (isHere : (s.proc p).state ≠ .UNUSED)
    (addr : Nat) (killed : Bool) :
    CompletesOrSleeps layout s (wait layout s p addr killed) := by
  unfold wait
  split
  · rename_i pp found
    have isZombie : (s.proc pp).state = .ZOMBIE := by
      have both := List.find?_some found
      simp only [decide_eq_true_eq] at both
      exact both.2
    have reap : ∀ s₁ : State, Next layout 0 s s₁ → s₁.proc = s.proc →
        ∃ s', freeproc layout s₁ pp = .ok s' ∧ Next layout 0 s s' := by
      intro s₁ next sameProc
      obtain ⟨s', ran, freed⟩ := freeproc_next (next.invariant.allBut pp)
        ((next.invariant.tidy pp).closed (.inr (by rw [sameProc]; exact isZombie)))
      exact ⟨s', ran, next.trans freed⟩
    dsimp only
    split
    · obtain ⟨user, isUser⟩ := (invariant.tidy p).present isHere
      obtain ⟨space, owned⟩ := invariant.pages.user isUser
      obtain ⟨ok, mem, copied, reshaped⟩ := copyout_spec space
        (owned.mono (Multiset.le_add_left ..)) (supervisor_notForUser layout user.trapframe) addr
        (intBytes (s.proc pp).xstate) 4
      have next := invariant.setUser isUser _ isUser rfl rfl
        (reshaped.transfer.widen (add_comm ..) (add_comm ..)) reshaped.space
      rw [setProc_self] at next
      simp only [isUser, Except.bind, copied]
      cases ok with
      | false => exact .inr ⟨-1, _, rfl, next⟩
      | true =>
          obtain ⟨s', ran, freed⟩ := reap _ next rfl
          simp only [ran]
          exact .inr ⟨_, s', rfl, freed⟩
    · obtain ⟨s', ran, freed⟩ := reap s invariant.next rfl
      simp only [ran]
      exact .inr ⟨_, s', rfl, freed⟩
  · dsimp only
    split
    · exact .inr ⟨-1, s, rfl, invariant.next⟩
    · exact .inl rfl

/-! ## exit -/

/-- Fields that say nothing about pages and files change. -/
theorem Invariant.setFields (invariant : Invariant layout extra s) {proc' : ProcId → Process}
    (same : ∀ q, (proc' q).trapframe = (s.proc q).trapframe ∧
      (proc' q).pagetable = (s.proc q).pagetable ∧ (proc' q).sz = (s.proc q).sz)
    (sameFiles : ∀ q, (proc' q).ofile = (s.proc q).ofile) (tidy : ∀ q, Tidy (proc' q))
    (nextpid : Int) : Next layout extra s { s with proc := proc', nextpid } := by
  have kept := invariant.pages.setFields same nextpid
  exact ⟨⟨kept.pages, invariant.counted.congr sameFiles, tidy⟩, kept.conserved⟩

theorem Invariant.setState (invariant : Invariant layout extra s) {process : Process}
    (isHere : (s.proc p).state ≠ .UNUSED) (stillHere : process.state ≠ .UNUSED)
    (same : process.trapframe = (s.proc p).trapframe ∧
      process.pagetable = (s.proc p).pagetable ∧ process.sz = (s.proc p).sz)
    (sameFiles : process.ofile = (s.proc p).ofile)
    (closed : process.state = .ZOMBIE → ∀ fd, (s.proc p).ofile fd = none) :
    Next layout extra s (s.setProc p process) := by
  obtain ⟨sameTrapframe, sameTable, sameSize⟩ := same
  refine (invariant.allBut p).next process ?_ (fun pagetable isTable => ?_) sameFiles s.nextpid
    ⟨fun isUnused => absurd isUnused stillHere, fun isClosed fd => ?_, fun _ => ?_⟩
  · rw [procPages_congr _ sameTrapframe sameTable sameSize]
    exact .refl _ _
  · rw [sameTrapframe, sameSize]
    exact invariant.pages.images p pagetable (sameTable ▸ isTable)
  · rw [sameFiles]
    exact closed (isClosed.resolve_left stillHere) fd
  · obtain ⟨user, isUser⟩ := (invariant.tidy p).present isHere
    obtain ⟨isTrapframe, isTable, isSize⟩ := user_eq isUser
    exact ⟨user, user_of_fields (sameTrapframe.trans isTrapframe) (sameTable.trans isTable)
      (sameSize.trans isSize)⟩

theorem closeFiles_spec (fds : List Fd) (invariant : Invariant layout 0 s)
    (isOpen : (s.proc p).state ≠ .UNUSED ∧ (s.proc p).state ≠ .ZOMBIE) :
    ∃ s', closeFiles layout p fds s = .ok s' ∧ Next layout 0 s s' ∧
      (s'.proc p).state = (s.proc p).state ∧
      ∀ fd, fd ∈ fds ∨ (s.proc p).ofile fd = none → (s'.proc p).ofile fd = none := by
  induction fds generalizing s with
  | nil =>
      refine ⟨s, rfl, invariant.next, rfl, fun fd isClosed => ?_⟩
      exact isClosed.resolve_left List.not_mem_nil
  | cons fd fds ih =>
      unfold closeFiles
      cases isRef : (s.proc p).ofile fd with
      | none =>
          obtain ⟨s', ran, next, sameState, closed⟩ := ih invariant isOpen
          refine ⟨s', ran, next, sameState, fun fd' isClosed => closed fd' ?_⟩
          rcases isClosed with member | isNone
          · rcases List.mem_cons.mp member with isHead | isTail
            · exact .inr (isHead ▸ isRef)
            · exact .inl isTail
          · exact .inr isNone
      | some f =>
          obtain ⟨mem, file, ran, first⟩ := invariant.closeFd isOpen isRef
          have isSelf : (({ s.setProc p { s.proc p with
              ofile := update (s.proc p).ofile fd none } with mem, file } : State).proc p) =
              { s.proc p with ofile := update (s.proc p).ofile fd none } :=
            update_self ..
          obtain ⟨s', ran', rest, sameState, closed⟩ := ih first.invariant
            (by rw [isSelf]; exact isOpen)
          rw [isSelf] at sameState closed
          refine ⟨s', ?_, first.trans rest, sameState, fun fd' isClosed => closed fd' ?_⟩
          · simp only [ran, Except.bind]
            exact ran'
          · by_cases isHead : fd' = fd
            · exact .inr (by rw [isHead]; exact update_self ..)
            · rcases isClosed with member | isNone
              · exact .inl ((List.mem_cons.mp member).resolve_left isHead)
              · exact .inr ((update_of_ne isHead ..).trans isNone)

theorem exit_completes (invariant : Invariant layout 0 s)
    (isOpen : (s.proc p).state ≠ .UNUSED ∧ (s.proc p).state ≠ .ZOMBIE) (notInit : p ≠ initproc)
    (status : Int) : ∃ s', exit layout s p status = .ok s' ∧ Next layout 0 s s' := by
  obtain ⟨s₁, ran, next, sameState, closed⟩ :=
    closeFiles_spec (List.finRange NOFILE) invariant isOpen
  have allClosed : ∀ fd, (s₁.proc p).ofile fd = none := fun fd =>
    closed fd (.inl (List.mem_finRange fd))
  rw [exit, if_neg notInit, ran]
  refine ⟨_, rfl, next.trans ?_⟩
  have isProc : ∀ q, (reparent s₁ p).proc q =
      if (s₁.proc q).parent = some p then { s₁.proc q with parent := some initproc }
      else s₁.proc q := fun _ => rfl
  have reparented : Next layout 0 s₁ (reparent s₁ p) := by
    refine next.invariant.setFields (fun q => ?_) (fun q => ?_) (fun q => ?_) s₁.nextpid
    · change ((reparent s₁ p).proc q).trapframe = _ ∧ ((reparent s₁ p).proc q).pagetable = _ ∧
        ((reparent s₁ p).proc q).sz = _
      rw [isProc]
      split <;> exact ⟨rfl, rfl, rfl⟩
    · change ((reparent s₁ p).proc q).ofile = _
      rw [isProc]
      split <;> rfl
    · change Tidy ((reparent s₁ p).proc q)
      rw [isProc]
      have tidy := next.invariant.tidy q
      split
      · exact ⟨tidy.unused, tidy.closed, tidy.present⟩
      · exact tidy
  have sameHere : ((reparent s₁ p).proc p).state = (s₁.proc p).state ∧
      ((reparent s₁ p).proc p).ofile = (s₁.proc p).ofile := by
    rw [isProc]
    split <;> exact ⟨rfl, rfl⟩
  refine reparented.trans (reparented.invariant.setState ?_ nofun ⟨rfl, rfl, rfl⟩ rfl
    fun _ fd => ?_)
  · rw [sameHere.1, sameState]
    exact isOpen.1
  · rw [sameHere.2]
    exact allClosed fd

/-! ## allocproc -/

/-- What `allocproc` leaves: a process of its own with an empty address space. -/
structure Allocated (s s' : State) (np : ProcId) : Prop where
  wasUnused : (s.proc np).state = .UNUSED
  isUsed : (s'.proc np).state = .USED
  closed : ∀ fd, (s'.proc np).ofile fd = none
  others : ∀ q, q ≠ np → s'.proc q = s.proc q
  empty : ∃ user, (s'.proc np).user = .ok user ∧ user.sz = 0

theorem allocproc_spec (invariant : Invariant layout extra s) :
    ∃ result s', allocproc layout s = .ok (result, s') ∧ Next layout extra s s' ∧
      ∀ np, result = some np → Allocated s s' np := by
  unfold allocproc
  cases found : (List.finRange NPROC).find? fun p => (s.proc p).state = .UNUSED with
  | none => exact ⟨none, s, rfl, invariant.next, (by simp)⟩
  | some p =>
      have isUnused : (s.proc p).state = .UNUSED := by simpa using List.find?_some found
      obtain ⟨noTrapframe, noTable, isEmpty⟩ := (invariant.tidy p).unused isUnused
      have closed := (invariant.tidy p).closed (.inl isUnused)
      have noPages : procPages s.mem (s.proc p) = 0 := procPages_none noTrapframe noTable
      have owned : Owned layout s.mem 0 := invariant.pages.owned.mono (Multiset.zero_le _)
      have failed : ∀ (process : Process) (s₁ : State), s₁.proc = update s.proc p process →
          process.ofile = (s.proc p).ofile → AllBut layout extra p s₁ → allPages s₁ = allPages s →
          ∃ result s', (freeproc layout s₁ p).map (fun s => ((none : Option ProcId), s)) =
              .ok (result, s') ∧ Next layout extra s s' ∧
            ∀ np, result = some np → Allocated s s' np := by
        intro process s₁ isProc sameFiles allBut conserved
        obtain ⟨s', ran, freed⟩ := freeproc_next allBut fun fd => by
          rw [isProc, update_self, sameFiles, closed]
        exact ⟨none, s', by rw [ran]; rfl, ⟨freed.invariant,
          freed.conserved.trans conserved⟩, (by simp)⟩
      dsimp only [State.setProc]
      cases allocated : kalloc s.mem with
      | none =>
          have noPages' : procPages s.mem { s.proc p with pid := s.nextpid, state := .USED } = 0 :=
            procPages_none noTrapframe noTable
          have moved : Transfer s.mem s.mem 0 0 := .refl _ _
          obtain ⟨allBut, conserved⟩ := (invariant.allBut p).set
            { s.proc p with pid := s.nextpid, state := .USED } (by rwa [noPages, noPages'])
            (fun pagetable isTable => by rw [noTable] at isTable; cases isTable) rfl
            (int32 (s.nextpid + 1))
          exact failed _ _ rfl rfl allBut conserved
      | some allocation =>
          obtain ⟨trapframe, mem⟩ := allocation
          obtain ⟨taken, -⟩ := kalloc_eq_some allocated
          have ownedNothing : Owned layout mem 0 := (owned.moved taken).mono (Multiset.zero_le _)
          obtain ⟨result, mem', ran, outcome⟩ := procPagetable_spec ownedNothing trapframe
          simp only [ran, update_idem]
          rcases outcome with ⟨rfl, moved⟩ | ⟨pagetable, rfl, moved, space⟩
          · have onlyTrapframe : procPages mem' { s.proc p with
                pid := s.nextpid, state := .USED, trapframe := some trapframe,
                pagetable := none } = {trapframe} := procPages_trapframe rfl rfl
            have both : Transfer s.mem mem' 0 {trapframe} :=
              taken.trans (moved.widen (zero_add _).symm (zero_add _).symm)
            obtain ⟨allBut, conserved⟩ := (invariant.allBut p).set
              { s.proc p with
                pid := s.nextpid, state := .USED, trapframe := some trapframe, pagetable := none }
              (by rwa [noPages, onlyTrapframe]) (by simp [HasImage]) rfl (int32 (s.nextpid + 1))
            exact failed _ _ rfl rfl allBut conserved
          · have isUser : ({ s.proc p with
                pid := s.nextpid, state := .USED, trapframe := some trapframe,
                pagetable := some pagetable } : Process).user =
                .ok { trapframe, pagetable, sz := 0 } := user_of_fields rfl rfl isEmpty
            have both : Transfer s.mem mem' 0 (userPages mem' { trapframe, pagetable, sz := 0 }) :=
              taken.trans (moved.widen (zero_add _).symm (by rw [userPages, add_comm, npages_zero]))
            have image : HasSpace layout mem' { trapframe, pagetable, sz := 0 } := by
              rwa [HasSpace, npages_zero]
            refine ⟨some p, _, rfl, (invariant.allBut p).next _
              (by rwa [noPages, procPages_user isUser]) (.of_user isUser image) rfl
              (int32 (s.nextpid + 1))
              ⟨(by simp), fun isClosed => ?_, fun _ => ⟨_, isUser⟩⟩, ?_⟩
            · rcases isClosed with isClosed | isClosed <;> cases isClosed
            · intro np isSome
              cases isSome
              refine ⟨isUnused, ?_, ?_, ?_, ?_⟩
              · dsimp only
                rw [update_self]
              · intro fd
                dsimp only
                rw [update_self, closed]
              · exact fun q different => update_of_ne different ..
              · dsimp only
                rw [update_self]
                exact ⟨_, isUser, rfl⟩

/-! ## fork -/

theorem copyTrapframe_transfer (m : Memory) (source target : Addr) :
    Transfer m (copyTrapframe m source target) {target} {target} :=
  (Transfer.write m (Multiset.mem_singleton_self target) _).trans (setPte_transfer _ _ _ _)

/-- A process whose trapframe is written is the same otherwise. -/
theorem writeTrapframe_spec {user : UserMemory} (space : HasSpace layout m user)
    (owned : Owned layout m (userPages m user))
    (written : Transfer m m' {user.trapframe} {user.trapframe}) :
    Transfer m m' (userPages m user) (userPages m' user) ∧ HasSpace layout m' user := by
  obtain ⟨space', samePages, -⟩ := space.frame owned written
  refine ⟨?_, space'⟩
  rw [userPages, userPages, samePages]
  exact written.add _

/-- The memory of the parent is copied into the empty child, or the child stays empty. -/
theorem copyMemory_spec {parent child : UserMemory} (parentSpace : HasSpace layout m parent)
    (childSpace : HasSpace layout m child) (isEmpty : child.sz = 0)
    (owned : Owned layout m (userPages m child + userPages m parent)) :
    ∃ ok m' sz, uvmcopy layout m parent.pagetable child.pagetable parent.sz = .ok (ok, m') ∧
      (sz = if ok then parent.sz else child.sz) ∧
      Transfer m m' (userPages m child) (userPages m' { child with sz }) ∧
      HasSpace layout m' { child with sz } := by
  have noPages : npages child.sz = 0 := by rw [isEmpty, npages_zero]
  rw [HasSpace, noPages] at childSpace
  have part : spacePages m child.pagetable 0 + spacePages m parent.pagetable (npages parent.sz) ≤
      userPages m child + userPages m parent := by
    rw [userPages_eq m child noPages, userPages_eq m parent rfl]
    exact add_le_add (Multiset.le_add_right ..) (Multiset.le_add_right ..)
  obtain ⟨ok, m', ran, resized⟩ := uvmcopy_spec parentSpace childSpace (owned.mono part)
    (supervisor_clear layout child.trapframe)
  have isSize : npages (if ok then parent.sz else child.sz) =
      if ok then npages parent.sz else 0 := by
    rw [apply_ite npages, noPages]
  refine ⟨ok, m', _, ran, rfl, ?_, ?_⟩
  · exact resized.transfer.widen (userPages_eq m child noPages) (userPages_eq m' _ isSize)
  · rw [HasSpace, isSize]
    exact resized.space

theorem Invariant.dup {f : FileId} (invariant : Invariant layout extra s)
    (isRef : (s.proc p).ofile fd = some f) (isFree : (s.proc np).ofile fd = none)
    (isOpen : (s.proc np).state ≠ .UNUSED ∧ (s.proc np).state ≠ .ZOMBIE) :
    ∃ file, filedup s.file f = .ok file ∧
      Next layout extra s { s.setProc np { s.proc np with
        ofile := update (s.proc np).ofile fd (some f) } with file } := by
  obtain ⟨file, ran, filed⟩ := filedup_spec invariant.pages.pipes (invariant.counted.pos isRef)
  have first := invariant.setFiles filed (invariant.counted.add filed.ref)
  have second := first.invariant.setOfile isOpen (first.invariant.counted.store isFree rfl)
  exact ⟨file, ran, first.trans second⟩

theorem dupFiles_spec (fds : List Fd) (once : fds.Nodup)
    (invariant : Invariant layout extra s)
    (isOpen : (s.proc np).state ≠ .UNUSED ∧ (s.proc np).state ≠ .ZOMBIE)
    (isFree : ∀ fd ∈ fds, (s.proc np).ofile fd = none) :
    ∃ s', dupFiles p np fds s = .ok s' ∧ Next layout extra s s' ∧
      (s'.proc np).state = (s.proc np).state := by
  induction fds generalizing s with
  | nil => exact ⟨s, rfl, invariant.next, rfl⟩
  | cons fd fds ih =>
      obtain ⟨notAgain, onceRest⟩ := List.nodup_cons.mp once
      have restFree : ∀ fd' ∈ fds, (s.proc np).ofile fd' = none := fun fd' member =>
        isFree fd' (List.mem_cons_of_mem _ member)
      unfold dupFiles
      cases isRef : (s.proc p).ofile fd with
      | none => exact ih onceRest invariant isOpen restFree
      | some f =>
          obtain ⟨file, ran, first⟩ := invariant.dup isRef (isFree fd List.mem_cons_self) isOpen
          have isSelf : ({ s.setProc np { s.proc np with
              ofile := update (s.proc np).ofile fd (some f) } with file } : State).proc np =
              { s.proc np with ofile := update (s.proc np).ofile fd (some f) } :=
            update_self ..
          obtain ⟨s', ran', rest, sameState⟩ := ih onceRest first.invariant
            (by rw [isSelf]; exact isOpen)
            (by
              intro fd' member
              rw [isSelf]
              have notHead : fd' ≠ fd := fun isHead => notAgain (isHead ▸ member)
              exact (update_of_ne notHead ..).trans (restFree fd' member))
          rw [isSelf] at sameState
          refine ⟨s', ?_, first.trans rest, sameState⟩
          simp only [ran, Except.bind]
          exact ran'

theorem fork_completes (invariant : Invariant layout 0 s) (isHere : (s.proc p).state ≠ .UNUSED) :
    Completes layout s (fork layout s p) := by
  obtain ⟨result, s₁, allocated, next₁, outcome⟩ := allocproc_spec invariant
  unfold fork
  rw [allocated]
  cases result with
  | none => exact next₁.completes rfl
  | some np =>
      obtain ⟨wasUnused, isUsed, closed, others, child, isChild, isEmpty⟩ := outcome np rfl
      have different : p ≠ np := fun isSame => isHere (isSame ▸ wasUnused)
      have isHere₁ : (s₁.proc p).state ≠ .UNUSED := by rwa [others p different]
      obtain ⟨parent, isParent⟩ := (next₁.invariant.tidy p).present isHere₁
      obtain ⟨parentSpace, -⟩ := next₁.invariant.pages.user isParent
      obtain ⟨childSpace, childOwned⟩ := next₁.invariant.pages.user isChild
      have owned := next₁.invariant.pages.users different isParent isChild
      obtain ⟨ok, mem, sz, copied, isSize, moved, space⟩ :=
        copyMemory_spec parentSpace childSpace isEmpty owned
      obtain ⟨isTrapframe, isTable, -⟩ := user_eq isChild
      simp only [isParent, isChild, Except.bind, copied]
      cases ok with
      | false =>
          cases isSize
          have next : Next layout 0 s₁ { s₁ with mem } := by
            have next := next₁.invariant.setUser isChild (s₁.proc np) isChild rfl rfl moved space
            rwa [setProc_self] at next
          obtain ⟨s', ran, freed⟩ := freeproc_next (next.invariant.allBut np) closed
          exact ((next₁.trans next).trans freed).completes (congrArg (Except.map _) ran)
      | true =>
          cases isSize
          obtain ⟨written, space'⟩ := writeTrapframe_spec space (childOwned.moved moved)
            (copyTrapframe_transfer mem parent.trapframe child.trapframe)
          have isChild' : ({ s₁.proc np with sz := parent.sz } : Process).user =
              .ok { child with sz := parent.sz } := user_of_fields isTrapframe isTable rfl
          have next : Next layout 0 s₁ { s₁.setProc np { s₁.proc np with sz := parent.sz } with
              mem := copyTrapframe mem parent.trapframe child.trapframe } :=
            next₁.invariant.setUser isChild _ isChild' rfl rfl (moved.trans written) space'
          have isSelf : ({ s₁.setProc np { s₁.proc np with sz := parent.sz } with
              mem := copyTrapframe mem parent.trapframe child.trapframe } : State).proc np =
              { s₁.proc np with sz := parent.sz } := update_self ..
          obtain ⟨s', ran, duplicated, sameState⟩ := dupFiles_spec (p := p) (List.finRange NOFILE)
            (List.nodup_finRange NOFILE) next.invariant
            (by rw [isSelf]; exact ⟨by rw [isUsed]; nofun, by rw [isUsed]; nofun⟩)
            (by rw [isSelf]; exact fun fd _ => closed fd)
          rw [isSelf] at sameState
          have stillUsed : (s'.proc np).state = .USED := sameState.trans isUsed
          have finished : Next layout 0 s' (s'.setProc np { s'.proc np with
              parent := some p, state := .RUNNABLE }) :=
            duplicated.invariant.setState (by rw [stillUsed]; nofun) nofun ⟨rfl, rfl, rfl⟩ rfl nofun
          exact (((next₁.trans next).trans duplicated).trans finished).completes
            (congrArg (Except.map _) ran)

end Xv6.Procs
