import Xv6.Procs.Lifecycle

/-!
Contract: boot ends in the invariant of the kernel.

Owns: how many pages the calls of `userinit` take at most, and that `userinit` makes the
first process with all its pages when there are enough. `uvmfirst` does not test the
result of `mappages`.
-/

namespace Xv6.Procs

open Xv6.Kernel
open Xv6.Pools
open Xv6.Refs
open Xv6.Vm

variable {layout : Layout} {m m' : Memory} {s s' : State}

/-! ## Enough pages -/

theorem kalloc_enough (enough : 0 < m.free.length) :
    ∃ page m', kalloc m = some (page, m') ∧ m.free.length = m'.free.length + 1 := by
  unfold kalloc
  split
  · rename_i isEmpty
    rw [isEmpty] at enough
    exact absurd enough (Nat.lt_irrefl 0)
  · rename_i page rest isFree
    exact ⟨page, _, rfl, by rw [isFree]; rfl⟩

theorem descend_enough (va : Nat) {level : Nat} (pagetable : Addr)
    (enough : level < m.free.length) :
    ∃ node m', descend va true level m pagetable = (some node, m') ∧
      m.free.length ≤ m'.free.length + level := by
  induction level generalizing m pagetable with
  | zero => exact ⟨pagetable, m, rfl, Nat.le_refl _⟩
  | succ level ih =>
      unfold descend
      dsimp only
      split
      · obtain ⟨node, m', ran, few⟩ := ih (m := m) _ (by omega)
        exact ⟨node, m', ran, by omega⟩
      · obtain ⟨page, m₁, allocated, one⟩ := kalloc_enough (m := m) (by omega)
        rw [if_pos rfl, allocated]
        have sameFree : (setPte (memset m₁ page 0) pagetable (PX (level + 1) va)
            (PA2PTE page ||| PTE_V)).free = m₁.free := rfl
        obtain ⟨node, m', ran, few⟩ := ih page (by rw [sameFree]; omega)
        rw [sameFree] at few
        exact ⟨node, m', ran, by omega⟩

theorem mappages_enough {pagetable pa : Addr} {va : Nat} {perm : Pte} {ok : Bool}
    (enough : 2 < m.free.length) (aligned : va % PGSIZE = 0)
    (ran : mappages m pagetable va PGSIZE pa perm = .ok (ok, m')) :
    ok = true ∧ m.free.length ≤ m'.free.length + 2 := by
  obtain ⟨node, m₁, walked, few⟩ := descend_enough va pagetable enough
  rw [mappages_page aligned, mappagesLoop, walk] at ran
  split at ran
  · rename_i panic isError
    cases ran
  · rename_i isNone
    split at isNone
    · cases isNone
    · rw [walked] at isNone
      cases isNone
  · rename_i isSome
    split at isSome
    · cases isSome
    · rw [walked] at isSome
      cases isSome
      split at ran
      · cases ran
      · cases ran
        exact ⟨rfl, few⟩

theorem procPagetable_enough {trapframe : Addr} {result : Option Addr}
    (enough : 5 < m.free.length) (ran : procPagetable layout m trapframe = .ok (result, m')) :
    result ≠ none ∧ m.free.length ≤ m'.free.length + 5 := by
  obtain ⟨page, m₁, allocated, one⟩ := kalloc_enough (m := m) (by omega)
  have created : uvmcreate m = some (page, memset m₁ page 0) := by
    rw [uvmcreate, allocated, Option.map_some]
  have sameFree : (memset m₁ page 0).free = m₁.free := rfl
  unfold procPagetable at ran
  rw [created] at ran
  dsimp only at ran
  split at ran
  · cases ran
  · rename_i m₂ mapped
    exact absurd (mappages_enough (by rw [sameFree]; omega) (by decide) mapped).1 (by decide)
  · rename_i m₂ mapped
    have few₂ := (mappages_enough (by rw [sameFree]; omega) (by decide) mapped).2
    rw [sameFree] at few₂
    split at ran
    · cases ran
    · rename_i m₃ mapped₃
      exact absurd (mappages_enough (by omega) (by decide) mapped₃).1 (by decide)
    · rename_i m₃ mapped₃
      have few₃ := (mappages_enough (by omega) (by decide) mapped₃).2
      cases ran
      exact ⟨nofun, by omega⟩

theorem allocproc_enough {p : ProcId} {result : Option ProcId}
    (found : (List.finRange NPROC).find? (fun p => (s.proc p).state = .UNUSED) = some p)
    (enough : 6 < s.mem.free.length) (ran : allocproc layout s = .ok (result, s')) :
    result ≠ none ∧ s.mem.free.length ≤ s'.mem.free.length + 6 := by
  obtain ⟨page, m₁, allocated, one⟩ := kalloc_enough (m := s.mem) (by omega)
  unfold allocproc at ran
  rw [found] at ran
  dsimp only [State.setProc] at ran
  rw [allocated] at ran
  dsimp only at ran
  split at ran
  · cases ran
  · rename_i pagetable m₂ made
    obtain ⟨notNone, few⟩ := procPagetable_enough (by omega) made
    cases pagetable with
    | none => exact absurd rfl notNone
    | some pagetable =>
        cases ran
        exact ⟨nofun, by dsimp only; omega⟩

/-! ## userinit -/

/-- **`uvmfirst`** maps the code of the first process, if there is enough memory. -/
theorem uvmfirst_spec {pagetable : Addr} {top : Nat → Option Pte}
    (space : Space m pagetable top 0) (owned : Owned layout m (spacePages m pagetable 0))
    (clear : Clear top) (enough : 3 < m.free.length) (code : Page) :
    ∃ m', uvmfirst m pagetable code = some (.ok m') ∧ Reshaped m m' pagetable top 0 1 := by
  obtain ⟨page, m₁, allocated, one⟩ := kalloc_enough (m := m) (by omega)
  have given : Transfer m (memset m₁ page 0) 0 {page} :=
    (kalloc_eq_some allocated).1.trans (Transfer.write m₁ (Multiset.mem_singleton_self page) _)
  obtain ⟨ok, m₂, ran, mapped, -⟩ := space.mapPage (fun _ _ _ => True) owned clear given
    (show (PTE_W ||| PTE_R ||| PTE_X ||| PTE_U) &&& PTE_R ≠ 0 by decide) (by decide) trivial
  rw [Nat.zero_mul] at ran
  have sameFree : (memset m₁ page 0).free = m₁.free := rfl
  obtain ⟨rfl, -⟩ := mappages_enough (by rw [sameFree]; omega) (by decide) ran
  obtain ⟨resized, isLeaf⟩ := mapped rfl
  have written := resized.space.written (owned.moved resized.transfer)
    (Transfer.write m₂ isLeaf code)
  refine ⟨{ m₂ with store := Function.update m₂.store page code }, ?_,
    resized.toReshaped.trans written.2⟩
  rw [uvmfirst, allocated, Option.map_some]
  exact congrArg (fun result => some (Except.map _ result)) ran

theorem pipePages_none {file : FileTable} (noEnd : ∀ f, (file f).pipeEnd = none) :
    pipePages file = 0 := by
  rw [pipePages, Finset.val_eq_zero, Finset.eq_empty_iff_forall_notMem]
  intro pi member
  obtain ⟨f, writable, isEnd⟩ := mem_openPipes.mp member
  rw [noEnd] at isEnd
  cases isEnd

theorem unstarted_noEnd (m : Memory) (f : FileId) : ((unstarted m).file f).pipeEnd = none := by
  rw [File.pipeEnd]
  exact if_neg (by simp [unstarted, emptyFile])

theorem unstarted_held (m : Memory) : held (unstarted m) = 0 := by
  rw [held, pipePages_none (unstarted_noEnd m), add_zero]
  exact Finset.sum_eq_zero fun p _ => procPages_none rfl rfl

theorem unstarted_invariant (owned : Owned layout m 0) : Invariant layout 0 (unstarted m) := by
  have pipes : Pipes m (unstarted m).file := by
    refine ⟨fun _ _ => rfl, fun f _ _ isEnd => ?_, fun f _ _ isEnd => ?_, fun f _ _ isEnd => ?_⟩
    all_goals
      rw [unstarted_noEnd] at isEnd
      cases isEnd
  refine ⟨⟨?_, (by simp [HasImage, unstarted, emptyProcess]), pipes⟩, fun f => ?_, fun p => ?_⟩
  · rw [unstarted_held]
    exact owned
  · have noSlots : count (slots (unstarted m).proc) f = 0 := by
      rw [count, Finset.card_eq_zero, Finset.filter_eq_empty_iff]
      rintro _ _ ⟨⟩
    rw [noSlots]
    rfl
  · exact ⟨fun _ => ⟨rfl, rfl, rfl⟩, fun _ _ => rfl, fun isHere => absurd rfl isHere⟩

theorem userinit_spec (owned : Owned layout m 0) (enough : 10 ≤ m.free.length) (code : Page) :
    ∃ s, userinit layout m code = .ok s ∧ Next layout 0 (unstarted m) s := by
  obtain ⟨result, s₁, ran, next₁, outcome⟩ := allocproc_spec (unstarted_invariant owned)
  have found : (List.finRange NPROC).find? (fun p => ((unstarted m).proc p).state = .UNUSED) =
      some initproc := rfl
  obtain ⟨notNone, few⟩ := allocproc_enough found
    (show 6 < (unstarted m).mem.free.length from Nat.lt_of_lt_of_le (by decide) enough) ran
  have sameFree : (unstarted m).mem.free = m.free := rfl
  rw [sameFree] at few
  obtain ⟨p, rfl⟩ := Option.ne_none_iff_exists'.mp notNone
  obtain ⟨wasUnused, isUsed, closed, others, user, isUser, isEmpty⟩ := outcome p rfl
  obtain ⟨space, ownedUser⟩ := next₁.invariant.pages.user isUser
  obtain ⟨isTrapframe, isTable, -⟩ := user_eq isUser
  have noPages : npages user.sz = 0 := by rw [isEmpty, npages_zero]
  rw [HasSpace, noPages] at space
  have part : spacePages s₁.mem user.pagetable 0 ≤ userPages s₁.mem user := by
    rw [userPages_eq s₁.mem user noPages]
    exact Multiset.le_add_right ..
  obtain ⟨m₂, first, mapped⟩ := uvmfirst_spec space (ownedUser.mono part)
    (supervisor_clear layout user.trapframe) (by omega) code
  have onePage : npages PGSIZE = 1 := by decide
  have moved : Transfer s₁.mem m₂ (userPages s₁.mem user)
      (userPages m₂ { user with sz := PGSIZE }) :=
    mapped.transfer.widen (userPages_eq s₁.mem user noPages) (userPages_eq m₂ _ onePage)
  have space₂ : HasSpace layout m₂ { user with sz := PGSIZE } := by
    rw [HasSpace, onePage]
    exact mapped.space
  obtain ⟨written, space'⟩ := writeTrapframe_spec space₂ (ownedUser.moved moved)
    ((setPte_transfer m₂ user.trapframe epcWord 0).trans
      (setPte_transfer _ user.trapframe spWord (BitVec.ofNat 64 PGSIZE)))
  have isUser' : ({ s₁.proc p with sz := PGSIZE, state := .RUNNABLE } : Process).user =
      .ok { user with sz := PGSIZE } := user_of_fields isTrapframe isTable rfl
  refine ⟨_, ?_, next₁.trans ((next₁.invariant.allBut p).next _
    (by rw [procPages_user isUser, procPages_user isUser']; exact moved.trans written)
    (.of_user isUser' space') rfl s₁.nextpid ⟨(by simp), ?_, fun _ => ⟨_, isUser'⟩⟩)⟩
  · unfold userinit
    simp only [ran, isUser, Except.bind, first]
    rfl
  · rintro (isClosed | isClosed) <;> cases isClosed

end Xv6.Procs
