import Xv6.Procs.Files
import Xv6.Refs.Count
import Xv6.Vm.Loading

/-!
Contract: every page has one place, in every state between system calls.

Owns: the pages of processes and pipes, the invariant that they are all different and
that every process has the address space its size says, and that each step of a system
call that concerns one process or the files keeps both.

Does not own: the calls themselves (`Calls`).
-/

namespace Xv6.Procs

open Xv6.Kernel
open Xv6.Pools
open Xv6.Vm

variable {layout : Layout} {m m' : Memory} {s s' : State} {p : ProcId} {process : Process}

/-! ## Pages of a process -/

/-- The pages of a process: its trapframe, its user memory and the nodes of its table. -/
def procPages (m : Memory) (process : Process) : Multiset Addr :=
  process.trapframe.elim 0 (fun trapframe => {trapframe}) +
    process.pagetable.elim 0 fun pagetable => spacePages m pagetable (npages process.sz)

/-- A process with a page table has a trapframe and the address space of its size. -/
def HasImage (layout : Layout) (m : Memory) (process : Process) : Prop :=
  ∀ pagetable, process.pagetable = some pagetable →
    ∃ trapframe, process.trapframe = some trapframe ∧
      Space m pagetable (supervisor layout trapframe) (npages process.sz)

/-- Pages that are given to others leave the process alone. -/
theorem HasImage.frame {given back : Multiset Addr} (image : HasImage layout m process)
    (owned : Owned layout m (given + procPages m process)) (moved : Transfer m m' given back) :
    procPages m' process = procPages m process ∧ HasImage layout m' process := by
  cases isTable : process.pagetable with
  | none =>
      refine ⟨?_, fun pagetable isSome => ?_⟩
      · rw [procPages, procPages, isTable, Option.elim_none, Option.elim_none]
      · rw [isTable] at isSome
        cases isSome
  | some pagetable =>
      obtain ⟨trapframe, isTrapframe, space⟩ := image pagetable isTable
      have part : given + spacePages m pagetable (npages process.sz) ≤
          given + procPages m process := by
        rw [procPages, isTable, Option.elim_some]
        gcongr
        exact Multiset.le_add_left ..
      obtain ⟨space', samePages, -⟩ := space.frame (owned.mono part) moved
      refine ⟨?_, fun pagetable' isSome => ?_⟩
      · rw [procPages, procPages, isTable, Option.elim_some, Option.elim_some, samePages]
      · rw [isTable] at isSome
        cases isSome
        exact ⟨trapframe, isTrapframe, space'⟩

theorem procPages_congr {process' : Process} (m : Memory)
    (sameTrapframe : process'.trapframe = process.trapframe)
    (sameTable : process'.pagetable = process.pagetable) (sameSize : process'.sz = process.sz) :
    procPages m process' = procPages m process := by
  rw [procPages, procPages, sameTrapframe, sameTable, sameSize]

theorem procPages_none (noTrapframe : process.trapframe = none)
    (noTable : process.pagetable = none) : procPages m process = 0 := by
  rw [procPages, noTrapframe, noTable, Option.elim_none, Option.elim_none, zero_add]

theorem procPages_trapframe {trapframe : Addr} (isTrapframe : process.trapframe = some trapframe)
    (noTable : process.pagetable = none) :
    procPages m process = {trapframe} := by
  rw [procPages, isTrapframe, noTable, Option.elim_some, Option.elim_none, add_zero]

theorem procPages_user {user : UserMemory} (isUser : process.user = .ok user) (m : Memory) :
    procPages m process = userPages m user := by
  unfold Process.user at isUser
  split at isUser
  · rename_i isTrapframe isTable
    cases isUser
    rw [procPages, isTrapframe, isTable, Option.elim_some, Option.elim_some, userPages]
  · cases isUser

-- Otherwise a unifier looks into the page tables.
attribute [irreducible] procPages

/-! ## The invariant -/

def held (s : State) : Multiset Addr := (∑ p, procPages s.mem (s.proc p)) + pipePages s.file

def allPages (s : State) : Multiset Addr := s.mem.free + held s

structure Pages (layout : Layout) (s : State) : Prop where
  owned : Owned layout s.mem (held s)
  images : ∀ p, HasImage layout s.mem (s.proc p)
  pipes : Pipes s.mem s.file

/-- The pages of the other processes and of the pipes. -/
def heldElse (s : State) (p : ProcId) : Multiset Addr :=
  (∑ q ∈ Finset.univ.erase p, procPages s.mem (s.proc q)) + pipePages s.file

theorem held_eq (s : State) (p : ProcId) : held s = procPages s.mem (s.proc p) + heldElse s p := by
  rw [held, heldElse, ← Finset.add_sum_erase _ (fun q => procPages s.mem (s.proc q))
    (Finset.mem_univ p), add_assoc]

theorem procPages_le {q : ProcId} (different : q ≠ p) :
    procPages s.mem (s.proc q) ≤ heldElse s p :=
  (Finset.single_le_sum (f := fun q => procPages s.mem (s.proc q)) (fun _ _ => Multiset.zero_le _)
    (Finset.mem_erase.mpr ⟨different, Finset.mem_univ q⟩)).trans (Multiset.le_add_right ..)

/-- A step that keeps the invariant and neither loses nor invents a page. -/
structure Kept (layout : Layout) (s s' : State) : Prop where
  pages : Pages layout s'
  conserved : allPages s' = allPages s

namespace Pages

theorem ownedBy (pages : Pages layout s) (p : ProcId) :
    Owned layout s.mem (procPages s.mem (s.proc p) + heldElse s p) := by
  rw [← held_eq]
  exact pages.owned

/-- **One process and its pages change.** -/
theorem setProc (pages : Pages layout s) {process : Process}
    (moved : Transfer s.mem m' (procPages s.mem (s.proc p)) (procPages m' process))
    (image : HasImage layout m' process) :
    Kept layout s { s.setProc p process with mem := m' } := by
  have owned := pages.ownedBy p
  have others : ∀ q, q ≠ p → procPages m' (s.proc q) = procPages s.mem (s.proc q) ∧
      HasImage layout m' (s.proc q) := by
    intro q different
    exact (pages.images q).frame (owned.mono (by gcongr; exact procPages_le different)) moved
  have samePipes : ∀ pi ∈ openPipes s.file, m'.store pi = s.mem.store pi := fun pi member =>
    owned.untouched moved (Multiset.mem_add.mpr (.inr member))
  have isProc : ∀ q, (s.setProc p process).proc q = if q = p then process else s.proc q :=
    fun q => Function.update_apply ..
  have isHeld : held { s.setProc p process with mem := m' } =
      procPages m' process + heldElse s p := by
    have split := held_eq { s.setProc p process with mem := m' } p
    have sameElse : heldElse { s.setProc p process with mem := m' } p = heldElse s p := by
      have each : ∀ q ∈ Finset.univ.erase p,
          procPages m' ((s.setProc p process).proc q) = procPages s.mem (s.proc q) := by
        intro q member
        have different := Finset.ne_of_mem_erase member
        rw [isProc, if_neg different, (others q different).1]
      exact congrArg (· + pipePages s.file) (Finset.sum_congr rfl each)
    rw [split, sameElse]
    dsimp only
    rw [isProc, if_pos rfl]
  refine ⟨⟨?_, fun q => ?_, pages.pipes.congr samePipes (fun _ => rfl) pages.pipes.unused⟩, ?_⟩
  · rw [isHeld]
    exact owned.transfer moved
  · dsimp only
    rw [isProc]
    split
    · exact image
    · rename_i different
      exact (others q different).2
  · rw [allPages, allPages, isHeld, held_eq s p]
    exact (moved.add _).conserved

theorem setFiles (pages : Pages layout s) {file' : FileTable}
    (moved : Transfer s.mem m' (pipePages s.file) (pipePages file')) (pipes : Pipes m' file') :
    Kept layout s { s with mem := m', file := file' } := by
  have owned : Owned layout s.mem (pipePages s.file + ∑ p, procPages s.mem (s.proc p)) := by
    rw [add_comm]
    exact pages.owned
  have others : ∀ q, procPages m' (s.proc q) = procPages s.mem (s.proc q) ∧
      HasImage layout m' (s.proc q) := by
    intro q
    refine (pages.images q).frame (owned.mono ?_) moved
    gcongr
    exact Finset.single_le_sum (f := fun q => procPages s.mem (s.proc q))
      (fun _ _ => Multiset.zero_le _) (Finset.mem_univ q)
  have isHeld : held { s with mem := m', file := file' } =
      pipePages file' + ∑ p, procPages s.mem (s.proc p) := by
    have same : ∑ p, procPages m' (s.proc p) = ∑ p, procPages s.mem (s.proc p) :=
      Finset.sum_congr rfl fun q _ => (others q).1
    rw [held, add_comm, ← same]
  refine ⟨⟨?_, fun q => (others q).2, pipes⟩, ?_⟩
  · rw [isHeld]
    exact owned.transfer moved
  · rw [allPages, allPages, isHeld, held, add_comm (∑ p, procPages s.mem (s.proc p))]
    exact (moved.add _).conserved

theorem setFields (pages : Pages layout s) {proc' : ProcId → Process}
    (same : ∀ q, (proc' q).trapframe = (s.proc q).trapframe ∧
      (proc' q).pagetable = (s.proc q).pagetable ∧ (proc' q).sz = (s.proc q).sz) (nextpid : Int) :
    Kept layout s { s with proc := proc', nextpid } := by
  have samePages : ∀ q, procPages s.mem (proc' q) = procPages s.mem (s.proc q) := by
    intro q
    obtain ⟨sameTrapframe, sameTable, sameSize⟩ := same q
    exact procPages_congr s.mem sameTrapframe sameTable sameSize
  have isHeld : held { s with proc := proc', nextpid } = held s := by
    have sameSum : ∑ p, procPages s.mem (proc' p) = ∑ p, procPages s.mem (s.proc p) :=
      Finset.sum_congr rfl fun q _ => samePages q
    rw [held, held, ← sameSum]
  refine ⟨⟨?_, fun q pagetable isTable => ?_, pages.pipes⟩, ?_⟩
  · rw [isHeld]
    exact pages.owned
  · obtain ⟨sameTrapframe, sameTable, sameSize⟩ := same q
    change (proc' q).pagetable = some pagetable at isTable
    rw [sameTable] at isTable
    rw [sameTrapframe, sameSize]
    exact pages.images q pagetable isTable
  · rw [allPages, allPages, isHeld]

end Pages

end Xv6.Procs
