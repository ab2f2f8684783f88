import Xv6.Family.Machine
import Xv6.Procs.Machine
import Xv6.Programs.Fallible
import Xv6.Sched.Machine

/-!
Contract: the three models of `fork`, `exit` and `wait` agree on the process table.

`Sched` adds the run queue to the sections that this machine interleaves. `Procs` makes each call
one step and adds memory and open files; a call does to the process table what its sections do
here.

Owns: when two process tables agree, and that the three calls keep it.
-/

namespace Xv6.Family

open Xv6.Kernel
open Xv6.Programs
open Xv6.Procs (Process)
open Function

/-- What all three models have of a process. -/
structure Kin where
  state : ProcState
  pid : Int
  parent : Option ProcId
  xstate : Int

structure SameKin (fields : Proc NPROC) (kin : Kin) : Prop where
  state : fields.state = kin.state
  pid : fields.pid = kin.pid
  parent : fields.parent = kin.parent
  xstate : fields.xstate = kin.xstate

/-- The process table of another model, of which `kin` is what is compared, agrees with `f`. -/
structure Agrees {P : Type} (kin : P → Kin) (proc : ProcId → P) (initproc : Option ProcId)
    (nextpid : Int) (f : State NPROC) : Prop where
  proc : ∀ q, SameKin (f.proc q) (kin (proc q))
  initproc : initproc = some f.initproc
  nextpid : f.nextpid = nextpid

variable {f f' : State NPROC} {p np q : ProcId} {fields : Proc NPROC}

theorem Agrees.set {P : Type} {kin : P → Kin} {proc proc' : ProcId → P} {process : P}
    {init : Option ProcId} {pid pid' : Int} (agrees : Agrees kin proc init pid f)
    (isProc : proc' = update proc q process) (isProc' : f'.proc = update f.proc q fields)
    (same : SameKin fields (kin process)) (isInit : f'.initproc = f.initproc)
    (isNext : f'.nextpid = pid') : Agrees kin proc' init pid' f' where
  proc r := by
    rw [isProc, isProc', update_apply, update_apply]
    split
    · exact same
    · exact agrees.proc r
  initproc := by rw [isInit, agrees.initproc]
  nextpid := isNext

/-! ## Whole calls -/

def processKin (process : Process) : Kin :=
  ⟨process.state, process.pid, process.parent, process.xstate⟩

abbrev Shows (s : Procs.State) (f : State NPROC) : Prop :=
  Agrees processKin s.proc (some Procs.initproc) s.nextpid f

variable {layout : Vm.Layout} {s s' : Procs.State} {process : Process} {ret : Int}
  {fds : List Procs.Fd}

/-- A step on files or memory. -/
theorem Agrees.keep (agrees : Shows s f) (proc : s'.proc = update s.proc q process)
    (same : SameKin (f.proc q) (processKin process)) (nextpid : s'.nextpid = s.nextpid) :
    Shows s' f :=
  agrees.set proc (update_eq_self q f.proc).symm same rfl (agrees.nextpid.trans nextpid.symm)

theorem dupFiles_shows (ran : Procs.dupFiles p np fds s = .ok s') (agrees : Shows s f) :
    Shows s' f := by
  induction fds generalizing s with
  | nil =>
      cases ran
      exact agrees
  | cons fd rest ih =>
      rw [Procs.dupFiles] at ran
      split at ran
      · exact ih ran agrees
      · obtain ⟨file, -, ran⟩ := exists_of_bind ran
        exact ih ran (agrees.keep rfl (agrees.proc np) rfl)

theorem closeFiles_shows (ran : Procs.closeFiles layout p fds s = .ok s')
    (agrees : Shows s f) : Shows s' f := by
  induction fds generalizing s with
  | nil =>
      cases ran
      exact agrees
  | cons fd rest ih =>
      rw [Procs.closeFiles] at ran
      split at ran
      · exact ih ran agrees
      · obtain ⟨closed, -, ran⟩ := exists_of_bind ran
        exact ih ran (agrees.keep rfl (agrees.proc p) rfl)

theorem freeproc_shows {α : Type} {a : α} {result : Procs.State → α} (f' : State NPROC)
    (ran : (Procs.freeproc layout s q).map result = .ok a) (agrees : Shows s f)
    (proc : f'.proc = update f.proc q (freeproc fields)) (initproc : f'.initproc = f.initproc)
    (nextpid : f'.nextpid = s.nextpid) : ∃ s', a = result s' ∧ Shows s' f' := by
  obtain ⟨s', freed, rfl⟩ := exists_of_map ran
  obtain ⟨mem, -, rfl⟩ := exists_of_map freed
  exact ⟨_, rfl, agrees.set rfl proc ⟨rfl, rfl, rfl, rfl⟩ initproc nextpid⟩

/-- A new process is given up again. -/
theorem abandon_shows {α : Type} {a result : α}
    (ran : (Procs.freeproc layout s np).map (fun s => (a, s)) = .ok (result, s'))
    (agrees : Shows s (execute f p (.allocproc np))) :
    result = a ∧ Shows s' (execute f p (.allocprocFails np)) := by
  obtain ⟨s₁, isNext, freed⟩ := freeproc_shows (execute f p (.allocprocFails np)) ran agrees
    (update_idem ..).symm rfl agrees.nextpid
  cases isNext
  exact ⟨rfl, freed⟩

theorem allocproc_shows {result : Option ProcId} (agrees : Shows s f) (p : ProcId)
    (ran : Procs.allocproc layout s = .ok (result, s')) :
    result = none ∧ Shows s' f ∨ ∃ np, (f.proc np).state = .UNUSED ∧
      (result = none ∧ Shows s' (execute f p (.allocprocFails np)) ∨
        result = some np ∧ Shows s' (execute f p (.allocproc np))) := by
  unfold Procs.allocproc at ran
  split at ran
  · cases ran
    exact .inl ⟨rfl, agrees⟩
  · rename_i np found
    have wasFree : (s.proc np).state = .UNUSED := by simpa using List.find?_some found
    refine .inr ⟨np, (agrees.proc np).state.trans wasFree, ?_⟩
    -- The slot is marked before anything is allocated.
    have marked : ∀ {process : Process} {s₁ : Procs.State},
        s₁.proc = update s.proc np process → s₁.nextpid = int32 (s.nextpid + 1) →
        processKin process = ⟨.USED, s.nextpid, (s.proc np).parent, (s.proc np).xstate⟩ →
        Shows s₁ (execute f p (.allocproc np)) := by
      intro process s₁ proc nextpid kin
      refine agrees.set proc rfl ?_ rfl ?_
      · rw [kin]
        exact ⟨rfl, agrees.nextpid, (agrees.proc np).parent, (agrees.proc np).xstate⟩
      · rw [nextpid, ← agrees.nextpid]
        rfl
    dsimp only at ran
    split at ran
    · exact .inl (abandon_shows ran (marked rfl rfl rfl))
    · split at ran
      · cases ran
      · split at ran
        · exact .inl (abandon_shows ran (marked (update_idem ..) rfl rfl))
        · cases ran
          exact .inr ⟨rfl, marked (update_idem ..) rfl rfl⟩

/-- The sections of a `fork` that succeeds. -/
def forked (f : State NPROC) (p np : ProcId) : State NPROC :=
  execute (execute (execute f p (.allocproc np)) p (.setParent np)) p (.setRunnable np)

/-- **`fork`** finds no slot, gives one up again, or makes a process. -/
theorem fork_shows (agrees : Shows s f) (ran : Procs.fork layout s p = .ok (ret, s')) :
    ret = -1 ∧ Shows s' f ∨ ∃ np, (f.proc np).state = .UNUSED ∧
      (ret = -1 ∧ Shows s' (execute f p (.allocprocFails np)) ∨
        ret = f.nextpid ∧ Shows s' (forked f p np)) := by
  unfold Procs.fork at ran
  split at ran
  · cases ran
  · rename_i failed
    cases ran
    rcases allocproc_shows agrees p failed with ⟨-, same⟩ | ⟨np, isFree, ⟨-, given⟩ | ⟨isNew, -⟩⟩
    · exact .inl ⟨rfl, same⟩
    · exact .inr ⟨np, isFree, .inl ⟨rfl, given⟩⟩
    · cases isNew
  · rename_i np s₁ found
    rcases allocproc_shows agrees p found with
      ⟨isNew, -⟩ | ⟨np', isFree, ⟨isNew, -⟩ | ⟨isNew, agrees₁⟩⟩ <;> cases isNew
    refine .inr ⟨np, isFree, ?_⟩
    obtain ⟨parent, -, ran⟩ := exists_of_bind ran
    obtain ⟨child, -, ran⟩ := exists_of_bind ran
    split at ran
    · cases ran
    · exact .inl (abandon_shows ran agrees₁)
    · obtain ⟨s₂, dup, isNext⟩ := exists_of_map ran
      cases isNext
      have agrees₂ := dupFiles_shows dup (agrees₁.keep rfl (agrees₁.proc np) rfl)
      obtain ⟨-, pid, -, xstate⟩ := agrees₂.proc np
      have proc : (forked f p np).proc = update (execute f p (.allocproc np)).proc np
          { (execute f p (.allocproc np)).proc np with parent := some p, state := .RUNNABLE } := by
        simp [forked, execute, State.setProc, State.record]
      refine .inr ⟨pid.symm.trans ?_, agrees₂.set rfl proc ⟨rfl, pid, rfl, xstate⟩ rfl
        agrees₂.nextpid⟩
      simp [execute, State.setProc, State.record, allocated]

/-- The loop of `reparent` without the wakeups. -/
def reparent (f : State NPROC) (p : ProcId) : List ProcId → State NPROC
  | [] => f
  | pp :: rest =>
      reparent (if (f.proc pp).parent = some p then execute f p (.setInitproc pp) else f) p rest

theorem reparent_spec (slots : List ProcId) :
    (reparent f p slots).initproc = f.initproc ∧ (reparent f p slots).nextpid = f.nextpid ∧
      ∀ q, (reparent f p slots).proc q =
        if q ∈ slots ∧ (f.proc q).parent = some p then
          { f.proc q with parent := some f.initproc } else f.proc q := by
  induction slots generalizing f with
  | nil => simp [reparent]
  | cons pp rest ih =>
      rw [reparent]
      split
      · refine ⟨ih.1, ih.2.1, fun q => ?_⟩
        rw [ih.2.2 q]
        by_cases isSlot : q = pp <;> simp_all [execute, State.setProc]
      · refine ⟨ih.1, ih.2.1, fun q => ?_⟩
        rw [ih.2.2 q]
        by_cases isSlot : q = pp <;> simp_all

/-- **`exit`** hands its children over and leaves a zombie. -/
theorem exit_shows {status : Int} (agrees : Shows s f)
    (ran : Procs.exit layout s p status = .ok s') :
    Shows s' (execute (reparent f p (List.finRange NPROC)) p (.zombie status)) := by
  unfold Procs.exit at ran
  split at ran
  · cases ran
  · obtain ⟨s₁, closed, rfl⟩ := exists_of_map ran
    have agrees₁ := closeFiles_shows closed agrees
    obtain ⟨init, pid, procs⟩ := reparent_spec (f := f) (p := p) (List.finRange NPROC)
    generalize reparent f p (List.finRange NPROC) = f₁ at init pid procs ⊢
    have reparented : Shows (Procs.reparent s₁ p) f₁ := by
      refine ⟨fun q => ?_, by rw [init, agrees₁.initproc], pid.trans agrees₁.nextpid⟩
      have same := agrees₁.proc q
      have sameParent : (f.proc q).parent = (s₁.proc q).parent := same.parent
      simp only [procs, Procs.reparent, sameParent, List.mem_finRange, true_and]
      split
      · exact ⟨same.state, same.pid, agrees₁.initproc.symm, same.xstate⟩
      · exact same
    obtain ⟨-, pid, parent, -⟩ := reparented.proc p
    exact reparented.set rfl rfl ⟨rfl, pid, parent, rfl⟩ rfl reparented.nextpid

/-- **`wait`** that returns reaps a zombie of the caller, or changes nothing. -/
theorem wait_shows {addr : Nat} {killed : Bool} (agrees : Shows s f)
    (ran : Procs.wait layout s p addr killed = .ok (some (ret, s'))) :
    ret = -1 ∧ Shows s' f ∨ ∃ pp, (f.proc pp).parent = some p ∧ (f.proc pp).state = .ZOMBIE ∧
      ret = (f.proc pp).pid ∧ Shows s' (execute f p (.reap pp addr)) := by
  unfold Procs.wait at ran
  split at ran
  · rename_i pp found
    obtain ⟨isParent, isZombie⟩ : (s.proc pp).parent = some p ∧ (s.proc pp).state = .ZOMBIE := by
      simpa using List.find?_some found
    obtain ⟨state, pid, parent, -⟩ := agrees.proc pp
    have reaps : ∀ {s₁ : Procs.State}, (Procs.freeproc layout s₁ pp).map
        (fun s₂ => some ((s.proc pp).pid, s₂)) = .ok (some (ret, s')) → Shows s₁ f →
        ret = (f.proc pp).pid ∧ Shows s' (execute f p (.reap pp addr)) := by
      intro s₁ freed agrees
      obtain ⟨s₂, isNext, reaped⟩ := freeproc_shows (execute f p (.reap pp addr)) freed agrees
        rfl rfl agrees.nextpid
      cases isNext
      exact ⟨pid.symm, reaped⟩
    dsimp only at ran
    split at ran
    · obtain ⟨user, -, ran⟩ := exists_of_bind ran
      split at ran
      · cases ran
      · cases ran
        exact .inl ⟨rfl, agrees⟩
      · exact .inr ⟨pp, parent.trans isParent, state.trans isZombie, reaps ran agrees⟩
    · exact .inr ⟨pp, parent.trans isParent, state.trans isZombie, reaps ran agrees⟩
  · dsimp only at ran
    split at ran <;> cases ran
    exact .inl ⟨rfl, agrees⟩

/-! ## The scheduler's machine -/

def schedKin (fields : Kernel.Proc) : Kin :=
  ⟨fields.state, fields.pid, fields.parent, fields.xstate⟩

abbrev Mirrors (k : Sched.Kernel) (f : State NPROC) : Prop :=
  Agrees schedKin k.memory.proc k.initproc k.nextpid f

variable {k k' : Sched.Kernel} {c : CpuId} {t : Sched.Thread} {rest : List Sched.Frame} {ok : Bool}
  {slot : Nat}

theorem runAllocproc_mirrors (ran : Sched.runAllocproc k t rest ok slot = some k')
    (mirrors : Mirrors k f) (p : ProcId) :
    Mirrors k' f ∨ ∃ np, (f.proc np).state = .UNUSED ∧
      (Mirrors k' (execute f p (.allocproc np)) ∨
        Mirrors k' (execute f p (.allocprocFails np))) := by
  unfold Sched.runAllocproc at ran
  split at ran
  · rename_i inTable
    obtain ⟨state, -, parent, xstate⟩ := mirrors.proc ⟨slot, inTable⟩
    have next : int32 (f.nextpid + 1) = int32 (k.nextpid + 1) := by rw [mirrors.nextpid]
    dsimp only at ran
    split at ran
    · split at ran
      · rename_i isUnused
        refine .inr ⟨⟨slot, inTable⟩, state.trans isUnused, ?_⟩
        split at ran <;> cases ran
        · exact .inl (mirrors.set rfl rfl ⟨rfl, mirrors.nextpid, parent, xstate⟩ rfl next)
        · exact .inr (mirrors.set (update_idem ..) rfl ⟨rfl, rfl, rfl, rfl⟩ rfl next)
      · cases ran
        exact .inl mirrors
    · cases ran
  · cases ran
    exact .inl mirrors

theorem runForkParent_mirrors (ran : Sched.runForkParent k c t rest np = some k')
    (mirrors : Mirrors k f) (own : k.current c = some p) :
    Mirrors k' (execute f p (.setParent np)) := by
  obtain ⟨state, pid, -, xstate⟩ := mirrors.proc np
  unfold Sched.runForkParent at ran
  split at ran <;> cases ran
  exact mirrors.set rfl rfl ⟨state, pid, own.symm, xstate⟩ rfl mirrors.nextpid

theorem runForkRunnable_mirrors (ran : Sched.runForkRunnable k t rest np = some k')
    (mirrors : Mirrors k f) (p : ProcId) : Mirrors k' (execute f p (.setRunnable np)) := by
  obtain ⟨-, pid, parent, xstate⟩ := mirrors.proc np
  unfold Sched.runForkRunnable at ran
  split at ran <;> cases ran
  exact mirrors.set rfl rfl ⟨rfl, pid, parent, xstate⟩ rfl mirrors.nextpid

theorem runReparent_mirrors (ran : Sched.runReparent k c t rest slot = some k')
    (mirrors : Mirrors k f) (own : k.current c = some p) :
    Mirrors k' f ∨ ∃ pp, (f.proc pp).parent = some p ∧
      Mirrors k' (execute f p (.setInitproc pp)) := by
  simp only [Sched.runReparent, own, Option.bind_eq_bind, Option.bind_some] at ran
  split at ran
  · rename_i inTable
    obtain ⟨state, pid, parent, xstate⟩ := mirrors.proc ⟨slot, inTable⟩
    split at ran <;> cases ran
    · rename_i isChild
      exact .inr ⟨_, parent.trans isChild, mirrors.set rfl rfl
        ⟨state, pid, mirrors.initproc.symm, xstate⟩ rfl mirrors.nextpid⟩
    · exact .inl mirrors
  · cases ran
    exact .inl mirrors

theorem runZombie_mirrors {status : Int} (ran : Sched.runZombie k c t status = some k')
    (mirrors : Mirrors k f) (own : k.current c = some p) :
    Mirrors k' (execute f p (.zombie status)) := by
  obtain ⟨-, pid, parent, -⟩ := mirrors.proc p
  simp only [Sched.runZombie, own, Option.bind_eq_bind, Option.bind_some] at ran
  split at ran <;> cases ran
  exact mirrors.set rfl rfl ⟨rfl, pid, parent, rfl⟩ rfl mirrors.nextpid

theorem runWait_mirrors {havekids : Bool} (mirrors : Mirrors k f) (own : k.current c = some p)
    (ran : Sched.runWait k c t rest ok slot havekids = some k') (addr : Nat) :
    Mirrors k' f ∨ ∃ pp, (f.proc pp).parent = some p ∧ (f.proc pp).state = .ZOMBIE ∧
      Mirrors k' (execute f p (.reap pp addr)) := by
  simp only [Sched.runWait, own, Option.bind_eq_bind, Option.bind_some] at ran
  split at ran
  · rename_i inTable
    obtain ⟨state, -, parent, -⟩ := mirrors.proc ⟨slot, inTable⟩
    split at ran
    · rename_i isChild
      split at ran
      · split at ran
        · rename_i isZombie
          split at ran <;> cases ran
          · exact .inr ⟨_, parent.trans isChild, state.trans isZombie,
              mirrors.set rfl rfl ⟨rfl, rfl, rfl, rfl⟩ rfl mirrors.nextpid⟩
          · exact .inl mirrors
        · cases ran
          exact .inl mirrors
      · cases ran
    · cases ran
      exact .inl mirrors
  · split at ran
    · split at ran <;> cases ran <;> exact .inl mirrors
    · cases ran

end Xv6.Family
