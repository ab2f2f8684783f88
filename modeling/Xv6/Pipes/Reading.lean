import Xv6.Pipes.Machine

/-!
Contract: what a call of `piperead` takes out of the pipe and what it copies to its buffer.

Owns: `piperead` from the head of its first loop on as one function, the steps of the machine that
compute it, and when the bytes it removes are the bytes it delivers.

Does not own: the wait for bytes; `piperead` has no result here where it sleeps. The lock is held
from the head of the loop on, so that no other process uses the pipe meanwhile.
-/

namespace Xv6.Pipes

open Xv6.Kernel
open Xv6.Format
open Xv6.Ring

/-! ## The call -/

/-- The second loop of `piperead` for so many rounds: the pipe, the memory and `i` at its end. -/
def copyLoop (addr : Nat) :
    Nat → Buffer Byte 32 PIPESIZE → Space → Nat → Buffer Byte 32 PIPESIZE × Space × Nat
  | 0, pipe, space, i => (pipe, space, i)
  | rounds + 1, pipe, space, i =>
      if pipe.nread = pipe.nwrite then
        (pipe, space, i)
      else
        let ch := pipe.front
        -- `pi->nread++` comes before the copy.
        let pipe := pipe.drop
        match copyout space (addr + i) (fun _ => ch) 1 with
        | (space, true) => copyLoop addr rounds pipe space (i + 1)
        | (space, false) => (pipe, space, i)

/-- `piperead` from the head of the first loop on, unless it sleeps there. -/
def piperead (pipe : Pipe) (killed : Bool) (request : Request) :
    Option (Buffer Byte 32 PIPESIZE × Space × Int) :=
  if pipe.nread = pipe.nwrite ∧ pipe.writeopen = true then
    if killed then some (pipe.toBuffer, request.space, -1) else none
  else
    let (buffer, space, i) :=
      copyLoop request.addr request.n.toNat pipe.toBuffer request.space 0
    some (buffer, space, i)

/-! ## The loop -/

section Loop

variable {space : Space} {pipe : Buffer Byte 32 PIPESIZE} {addr va n : Nat}

theorem available_mapped (isMapped : space.mapped (PGROUNDDOWN va) = true) :
    space.available true va (n + 1) = space.available true (va + 1) n + 1 := by
  have covers : space.Covers va 1 := by
    intro i inside
    rw [Nat.lt_one_iff.mp inside]
    exact isMapped
  have first := space.available_take true va (show 1 ≤ n + 1 by omega)
  rw [Space.available_of_covers fun _ => covers] at first
  rw [Space.available_drop (show 1 ≤ space.available true va (n + 1) by omega), Nat.add_comm,
    Nat.add_sub_cancel]

theorem available_unmapped (unmapped : space.mapped (PGROUNDDOWN va) = false) :
    space.available true va n = 0 :=
  Space.available_eq (Nat.zero_le _) (fun _ _ inside => absurd inside (Nat.not_lt_zero _))
    fun _ => ⟨rfl, unmapped⟩

theorem available_zero : space.available true va 0 = 0 :=
  Space.available_of_covers fun _ _ inside => absurd inside (Nat.not_lt_zero _)

/-- **The loop** delivers the `k` bytes that come before the first address without a page. If it
stops there, one more byte has left the pipe. -/
theorem copyLoop_eq (addr rounds i : Nat) (pipe : Buffer Byte 32 PIPESIZE) (space : Space) {k : Nat}
    (reach : space.available true (addr + i) (min rounds pipe.length) = k) :
    ∃ buffer, copyLoop addr rounds pipe space i =
        (buffer, space.store (addr + i) (fun j => pipe.contents.getD j 0) k, i + k) ∧
      buffer.contents = pipe.contents.drop (if k = min rounds pipe.length then k else k + 1) := by
  induction rounds generalizing pipe space i k with
  | zero =>
      rw [Nat.zero_min, available_zero] at reach
      rw [← reach, space.store_zero, if_pos (Nat.zero_min _).symm]
      exact ⟨pipe, rfl, rfl⟩
  | succ rounds ih =>
      unfold copyLoop
      by_cases isEmpty : pipe.nread = pipe.nwrite
      · have noLength := Buffer.nread_eq_nwrite_iff.mp isEmpty
        rw [noLength, Nat.min_zero, available_zero] at reach
        rw [if_pos isEmpty, ← reach, space.store_zero, if_pos (by rw [noLength, Nat.min_zero])]
        exact ⟨pipe, rfl, rfl⟩
      · have isContents := Buffer.contents_drop isEmpty
        have isLength := Buffer.length_drop isEmpty
        have oneMore : min (rounds + 1) pipe.length = min rounds pipe.drop.length + 1 := by omega
        rw [if_neg isEmpty]
        dsimp only
        rw [copyout_one, oneMore]
        rw [oneMore] at reach
        cases isMapped : space.mapped (PGROUNDDOWN (addr + i)) with
        | false =>
            rw [available_unmapped isMapped] at reach
            rw [← reach, space.store_zero, if_neg (Nat.succ_ne_zero _).symm, isContents]
            exact ⟨pipe.drop, rfl, rfl⟩
        | true =>
            rw [available_mapped isMapped] at reach
            obtain ⟨buffer, isLoop, isRest⟩ := ih (i + 1) pipe.drop
              (space.store (addr + i) (fun _ => pipe.front) 1) rfl
            have sameMap : (space.store (addr + i) (fun _ => pipe.front) 1).available true
                (addr + (i + 1)) (min rounds pipe.drop.length) =
                space.available true (addr + i + 1) (min rounds pipe.drop.length) := rfl
            rw [sameMap] at isLoop isRest
            generalize space.available true (addr + i + 1) (min rounds pipe.drop.length) = k' at *
            subst reach
            refine ⟨buffer, isLoop.trans (Prod.ext rfl (Prod.ext ?_ ?_)), ?_⟩
            · dsimp only
              have isFirst : space.store (addr + i) (fun _ => pipe.front) 1 =
                  space.store (addr + i) (fun j => pipe.contents.getD j 0) 1 := by
                refine Space.store_congr fun j inside => ?_
                rw [Nat.lt_one_iff.mp inside, isContents]
                rfl
              have isLater : (fun j => pipe.drop.contents.getD j 0) =
                  fun j => (fun j => pipe.contents.getD j 0) (1 + j) := by
                funext j
                rw [isContents, Nat.add_comm 1]
                rfl
              rw [isFirst, isLater, ← Nat.add_assoc, Space.store_store, Nat.add_comm 1]
            · exact Nat.add_right_comm i 1 k'
            · rw [isRest, isContents]
              split
              · rw [if_pos (by omega)]
                rfl
              · rw [if_neg (by omega)]
                rfl

end Loop

/-! ## The steps of the machine -/

/-- The process goes on, no other one does. -/
def Alone (p : ProcId) (_ : State) (action : Action) : Prop := action = .run p

section Machine

variable {s s' : State} {p : ProcId} {r : Reading} {buffer : Buffer Byte 32 PIPESIZE}
  {space : Space}

theorem step_reader {point : ReadPoint} (inUse : s.freed = false)
    (isReader : s.thread p = .reader r point) : step s (.run p) = runReader s p r point := by
  unfold step
  rw [if_neg (by rw [inUse]; nofun)]
  dsimp only
  rw [isReader]

theorem copyLoop_run (rounds : Nat) (inUse : s.freed = false)
    (isReader : s.thread p = .reader r .copy) (left : (r.i : Int) + rounds = max r.n r.i) {i : Nat}
    (isLoop : copyLoop r.addr rounds s.pipe.toBuffer r.space r.i = (buffer, space, i)) :
    ∃ s', Runs.Reachable step (Alone p) s s' ∧ s'.thread p = .idle i ∧
      s'.pipe.toBuffer = buffer ∧
      s'.delivered = s.delivered ++ s.pipe.contents.take (i - r.i) := by
  induction rounds generalizing s r with
  | zero =>
      cases isLoop
      have isStep : step s (.run p) = some ((s.wakeup p .nwrite).leave p (.idle r.i)) := by
        rw [step_reader inUse isReader, runReader, if_neg (by omega)]
      refine ⟨_, .step .start rfl isStep, State.thread_setThread_self .., rfl, ?_⟩
      rw [Nat.sub_self, List.take_zero, List.append_nil]
      rfl
  | succ rounds ih =>
      have isMore : (r.i : Int) < r.n := by omega
      rw [copyLoop] at isLoop
      by_cases isEmpty : s.pipe.nread = s.pipe.nwrite
      · rw [if_pos isEmpty] at isLoop
        cases isLoop
        have isStep : step s (.run p) = some ((s.wakeup p .nwrite).leave p (.idle r.i)) := by
          rw [step_reader inUse isReader, runReader, if_neg (fun more => more.2 isEmpty)]
        refine ⟨_, .step .start rfl isStep, State.thread_setThread_self .., rfl, ?_⟩
        rw [Nat.sub_self, List.take_zero, List.append_nil]
        rfl
      · rw [if_neg isEmpty] at isLoop
        dsimp only at isLoop
        rw [copyout_one] at isLoop
        have isRun := step_reader inUse isReader
        rw [runReader, if_pos ⟨isMore, isEmpty⟩] at isRun
        dsimp only at isRun
        rw [copyout_one] at isRun
        cases isMapped : r.space.mapped (PGROUNDDOWN (r.addr + r.i)) with
        | false =>
            rw [isMapped] at isLoop isRun
            cases isLoop
            refine ⟨_, .step .start rfl isRun, State.thread_setThread_self .., rfl, ?_⟩
            rw [Nat.sub_self, List.take_zero, List.append_nil]
            rfl
        | true =>
            rw [isMapped] at isLoop isRun
            have inUse' : (s.drop.deliver p r (r.space.store (r.addr + r.i)
                (fun _ => s.pipe.front) 1) s.pipe.front).freed = false := inUse
            obtain ⟨s', reachable, isIdle, isBuffer, isDelivered⟩ := ih inUse'
              (State.thread_setThread_self ..) (by dsimp only; omega) isLoop
            refine ⟨s', reachable.prepend rfl isRun, isIdle, isBuffer, ?_⟩
            obtain ⟨_, isLoop', -⟩ := copyLoop_eq r.addr rounds (r.i + 1) s.pipe.toBuffer.drop
              (r.space.store (r.addr + r.i) (fun _ => s.pipe.front) 1) rfl
            cases isLoop.symm.trans isLoop'
            rw [isDelivered, Buffer.contents_drop isEmpty]
            dsimp only [State.deliver, State.drop, State.setThread]
            rw [Nat.add_sub_cancel_left, Nat.add_right_comm, Nat.add_assoc r.i,
              Nat.add_sub_cancel_left, List.take_succ_cons, List.append_assoc]
            rfl

theorem piperead_run (inUse : s.freed = false) (isReader : s.thread p = .reader r .loop)
    {result : Int}
    (isRead : piperead s.pipe (s.killed p) r.toRequest = some (buffer, space, result)) :
    ∃ s', Runs.Reachable step (Alone p) s s' ∧ s'.thread p = .idle result ∧
      s'.pipe.toBuffer = buffer ∧
      s'.delivered = s.delivered ++ s.pipe.contents.take result.toNat := by
  have isRun := step_reader inUse isReader
  unfold piperead at isRead
  rw [runReader] at isRun
  split at isRead
  · next waits =>
    rw [if_pos waits] at isRun
    split at isRead
    · next isKilled =>
      rw [if_pos isKilled] at isRun
      cases isRead
      refine ⟨_, .step .start rfl isRun, State.thread_setThread_self .., rfl, ?_⟩
      exact (List.append_nil _).symm
    · cases isRead
  · next goesOn =>
    rw [if_neg goesOn] at isRun
    cases isRead
    have inUse' : (s.setThread p (.reader { r with i := 0 } .copy)).freed = false := inUse
    obtain ⟨s', reachable, isIdle, isBuffer, isDelivered⟩ := copyLoop_run r.n.toNat
      inUse' (State.thread_setThread_self ..) (by dsimp only; omega) rfl
    exact ⟨s', reachable.prepend rfl isRun, isIdle, isBuffer, isDelivered⟩

end Machine

/-! ## What is lost -/

/-- **A bad buffer costs a byte.** A `piperead` that returns has copied the first bytes of the pipe
to its buffer, as many as it returns. They are the bytes it removed if and only if every byte that
was there for it had a mapped address; otherwise the byte at the first other address is lost. -/
theorem piperead_removes_iff {s : State} {p : ProcId} {r : Reading} (inUse : s.freed = false)
    (isReader : s.thread p = .reader r .loop) {buffer : Buffer Byte 32 PIPESIZE} {space : Space}
    {result : Int}
    (isRead : piperead s.pipe (s.killed p) r.toRequest = some (buffer, space, result)) :
    (∃ s', Runs.Reachable step (Alone p) s s' ∧ s'.thread p = .idle result ∧
      s'.pipe.toBuffer = buffer ∧
      s'.delivered = s.delivered ++ s.pipe.contents.take result.toNat) ∧
    space = r.space.store r.addr (fun j => s.pipe.contents.getD j 0) result.toNat ∧
    (buffer.contents = s.pipe.contents.drop result.toNat ↔
      ∀ j < min r.n.toNat s.pipe.length, r.space.mapped (PGROUNDDOWN (r.addr + j)) = true) := by
  refine ⟨piperead_run inUse isReader isRead, ?_⟩
  unfold piperead at isRead
  split at isRead
  · next waits =>
    split at isRead
    · cases isRead
      refine ⟨(r.space.store_zero _ _).symm, ⟨fun _ j inside => ?_, fun _ => rfl⟩⟩
      rw [Buffer.nread_eq_nwrite_iff.mp waits.1] at inside
      omega
    · cases isRead
  · obtain ⟨buffer', isLoop, isContents⟩ :=
      copyLoop_eq r.addr r.n.toNat 0 s.pipe.toBuffer r.space rfl
    obtain ⟨atMost, covers, stops⟩ :=
      r.space.available_spec true (r.addr + 0) (min r.n.toNat s.pipe.length)
    rw [isLoop] at isRead
    cases isRead
    generalize r.space.available true (r.addr + 0) (min r.n.toNat s.pipe.length) = k at *
    rw [Nat.zero_add, Int.toNat_natCast]
    refine ⟨rfl, ?_⟩
    rw [isContents]
    split
    · next all =>
      refine ⟨fun _ j inside => ?_, fun _ => rfl⟩
      exact covers rfl j (by omega)
    · next stopped =>
      have inPipe := Buffer.length_contents s.pipe.toBuffer
      constructor
      · intro same
        have sameLength := congrArg List.length same
        rw [List.length_drop, List.length_drop] at sameLength
        omega
      · intro allMapped
        have unmapped := (stops (by omega)).2
        have isMapped := allMapped k (by omega)
        rw [Nat.add_zero, isMapped] at unmapped
        cases unmapped

/-- A process is about to read one byte, and one is there. -/
def oneByte (space : Space) : State :=
  { pipealloc fun _ => 7 with
    pipe := ⟨⟨fun _ => 7, 0, 1⟩, true, true⟩
    lock := some 0
    thread := fun p => if p = 0 then .reader ⟨⟨space, 0, 1⟩, 0⟩ .loop else .idle 0 }

/-- The byte goes to a mapped buffer. -/
theorem piperead_removes_iff_mapped :
    ∃ s', Runs.Reachable step (Alone 0) (oneByte ⟨fun _ => true, fun _ => 0⟩) s' ∧
      s'.thread 0 = .idle 1 ∧ s'.pipe.contents = [] ∧ s'.delivered = [7] := by
  obtain ⟨⟨s', reachable, isIdle, isBuffer, isDelivered⟩, -, removes⟩ :=
    piperead_removes_iff (s := oneByte ⟨fun _ => true, fun _ => 0⟩) (p := 0) rfl rfl rfl
  refine ⟨s', reachable, isIdle, ?_, isDelivered.trans (by decide +kernel)⟩
  rw [isBuffer, removes.mpr fun _ _ => rfl]
  decide +kernel

/-- The buffer is not mapped: `piperead` returns 0 and the byte is gone. -/
theorem piperead_loses_byte :
    ∃ buffer space, piperead (oneByte ⟨fun _ => false, fun _ => 0⟩).pipe false
        ⟨⟨fun _ => false, fun _ => 0⟩, 0, 1⟩ = some (buffer, space, 0) ∧
      (oneByte ⟨fun _ => false, fun _ => 0⟩).pipe.contents = [7] ∧ buffer.contents = [] :=
  ⟨_, _, rfl, by decide +kernel, by decide +kernel⟩

end Xv6.Pipes
