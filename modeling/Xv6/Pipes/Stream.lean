import Xv6.Pipes.Machine

/-!
Contract: a pipe delivers what was written, in order and without loss.

Owns: what the threads owe the stream (`Stream`), that every step keeps it when the
buffers of the readers are mapped, and the lossless-FIFO property in every state of
every run.
-/

namespace Xv6.Pipes

open Xv6.Kernel
open Xv6.Format
open Xv6.Ring

def Request.Mapped (request : Request) : Prop :=
  ∀ k < request.n.toNat, request.space.mapped (PGROUNDDOWN (request.addr + k)) = true

instance (request : Request) : Decidable request.Mapped :=
  inferInstanceAs (Decidable (∀ k < request.n.toNat, _ = true))

/-- Reads have their buffers mapped. -/
def ReadsMapped (_ : State) : Action → Prop
  | .read _ request => request.Mapped
  | _ => True

instance (s : State) (action : Action) : Decidable (ReadsMapped s action) := by
  unfold ReadsMapped
  split <;> infer_instance

def Request.first (request : Request) (k : Nat) : List Byte :=
  (List.range k).map fun j => request.space.bytes (request.addr + j)

def State.written (s : State) (call : Nat) : List Byte :=
  (s.accepted.filter fun entry => entry.1 = call).map Prod.snd

structure Stream (s : State) : Prop where
  bounded : s.pipe.length ≤ PIPESIZE
  stream : s.delivered ++ s.pipe.contents = s.accepted.map Prod.snd
  /-- A call has put as many bytes into the pipe as it has counted. -/
  counted : ∀ p w point, s.thread p = .writer w point →
    s.writes[w.call]? = some w.toRequest ∧ (s.written w.call).length = w.i ∧
      (point = .body → (w.i : Int) < w.n)
  /-- A call is made by one process. -/
  apart : ∀ p q v w vPoint wPoint, s.thread p = .writer v vPoint → s.thread q = .writer w wPoint →
    v.call = w.call → p = q
  /-- They are the first bytes of its buffer. -/
  pieces : ∀ call request, s.writes[call]? = some request →
    ∃ k, k ≤ request.n.toNat ∧ s.written call = request.first k
  known : ∀ entry ∈ s.accepted, entry.1 < s.writes.length
  mapped : ∀ p r point, s.thread p = .reader r point → r.Mapped

/-! ## Steps that leave the bytes alone -/

/-- The call goes on with the same arguments and count, or ends. -/
def Thread.Continues (old : Thread) : Thread → Prop
  | .idle _ => True
  | .writer w point =>
      ∃ before, old = .writer w before ∧ (point = .body → before = .body ∨ (w.i : Int) < w.n)
  | .reader r _ => ∃ r' before, old = .reader r' before ∧ r'.toRequest = r.toRequest

namespace Thread.Continues

theorem refl (thread : Thread) : thread.Continues thread := by
  cases thread with
  | idle result => trivial
  | writer w point => exact ⟨point, rfl, .inl⟩
  | reader r point => exact ⟨r, point, rfl, rfl⟩

theorem trans {first second third : Thread} (before : first.Continues second)
    (after : second.Continues third) : first.Continues third := by
  cases third with
  | idle result => trivial
  | writer w point =>
      obtain ⟨middle, isSecond, inBody⟩ := after
      subst isSecond
      obtain ⟨start, isFirst, wasBody⟩ := before
      refine ⟨start, isFirst, fun isBody => ?_⟩
      rcases inBody isBody with wasMiddle | more
      · exact wasBody wasMiddle
      · exact .inr more
  | reader r point =>
      obtain ⟨r', middle, isSecond, sameRequest⟩ := after
      subst isSecond
      obtain ⟨r'', start, isFirst, sameBefore⟩ := before
      exact ⟨r'', start, isFirst, sameBefore.trans sameRequest⟩

theorem wake (thread : Thread) : thread.Continues thread.wake := by
  cases thread with
  | idle result => trivial
  | writer w point =>
      cases point with
      | asleep => exact ⟨.asleep, rfl, fun isBody => by cases isBody⟩
      | _ => exact refl _
  | reader r point =>
      cases point with
      | asleep => exact ⟨r, .asleep, rfl, rfl⟩
      | _ => exact refl _

end Thread.Continues

structure Quiet (s s' : State) : Prop where
  ring : s'.pipe.toBuffer = s.pipe.toBuffer
  writes : s'.writes = s.writes
  accepted : s'.accepted = s.accepted
  delivered : s'.delivered = s.delivered
  threads : ∀ q, (s.thread q).Continues (s'.thread q)

namespace Quiet

variable {s s' s'' : State} {p : ProcId} {thread : Thread}

theorem trans (first : Quiet s s') (second : Quiet s' s'') : Quiet s s'' where
  ring := second.ring.trans first.ring
  writes := second.writes.trans first.writes
  accepted := second.accepted.trans first.accepted
  delivered := second.delivered.trans first.delivered
  threads q := (first.threads q).trans (second.threads q)

theorem of_same_threads (ring : s'.pipe.toBuffer = s.pipe.toBuffer)
    (writes : s'.writes = s.writes) (accepted : s'.accepted = s.accepted)
    (delivered : s'.delivered = s.delivered) (threads : s'.thread = s.thread) : Quiet s s' :=
  ⟨ring, writes, accepted, delivered, fun q => by rw [threads]; exact .refl _⟩

theorem setThread (continues : (s.thread p).Continues thread) :
    Quiet s (s.setThread p thread) := by
  refine ⟨rfl, rfl, rfl, rfl, fun q => ?_⟩
  by_cases isSet : q = p
  · subst isSet
    simpa [State.setThread] using continues
  · simpa [State.setThread, isSet] using .refl _

theorem enter (continues : (s.thread p).Continues thread) : Quiet s (s.enter p thread) := by
  have locked : Quiet s { s with lock := some p } := of_same_threads rfl rfl rfl rfl rfl
  exact locked.trans (setThread continues)

theorem leave (continues : (s.thread p).Continues thread) : Quiet s (s.leave p thread) := by
  have released : Quiet s { s with lock := none } := of_same_threads rfl rfl rfl rfl rfl
  exact released.trans (setThread continues)

theorem wakeup (s : State) (p : ProcId) (chan : Channel) : Quiet s (s.wakeup p chan) := by
  refine ⟨rfl, rfl, rfl, rfl, fun q => ?_⟩
  dsimp only [State.wakeup]
  split
  · exact .wake _
  · exact .refl _

theorem pipeclose (s : State) (p : ProcId) (writable : Bool) :
    Quiet s (pipeclose s p writable) := by
  cases writable with
  | false =>
      exact .trans (.trans (.of_same_threads rfl rfl rfl rfl rfl) (.wakeup _ p .nwrite))
        (.of_same_threads rfl rfl rfl rfl rfl)
  | true =>
      exact .trans (.trans (.of_same_threads rfl rfl rfl rfl rfl) (.wakeup _ p .nread))
        (.of_same_threads rfl rfl rfl rfl rfl)

end Quiet

namespace Stream

variable {s s' : State} {p : ProcId}

theorem quiet (stream : Stream s) (same : Quiet s s') : Stream s' := by
  have sameWritten : ∀ call, s'.written call = s.written call := by
    intro call
    rw [State.written, State.written, same.accepted]
  constructor
  · rw [same.ring]
    exact stream.bounded
  · rw [same.delivered, same.ring, same.accepted]
    exact stream.stream
  · intro q w point isWriter
    have continues := same.threads q
    rw [isWriter] at continues
    obtain ⟨before, wasWriter, inBody⟩ := continues
    obtain ⟨isCall, count, wasBody⟩ := stream.counted q w before wasWriter
    rw [same.writes, sameWritten]
    refine ⟨isCall, count, fun isBody => ?_⟩
    rcases inBody isBody with bodyBefore | more
    · exact wasBody bodyBefore
    · exact more
  · intro q q' v w vPoint wPoint isV isW sameCall
    have vContinues := same.threads q
    have wContinues := same.threads q'
    rw [isV] at vContinues
    rw [isW] at wContinues
    obtain ⟨vBefore, wasV, _⟩ := vContinues
    obtain ⟨wBefore, wasW, _⟩ := wContinues
    exact stream.apart q q' v w vBefore wBefore wasV wasW sameCall
  · intro call request isCall
    rw [sameWritten]
    rw [same.writes] at isCall
    exact stream.pieces call request isCall
  · intro entry member
    rw [same.writes]
    rw [same.accepted] at member
    exact stream.known entry member
  · intro q r point isReader
    have continues := same.threads q
    rw [isReader] at continues
    obtain ⟨r', before, wasReader, sameRequest⟩ := continues
    have mapped := stream.mapped q r' before wasReader
    rwa [sameRequest] at mapped

/-! ## The other steps -/

theorem write (stream : Stream s) (request : Request) :
    Stream ({ s with writes := s.writes ++ [request] }.setThread p
      (.writer { request with call := s.writes.length, i := 0 } .acquire)) := by
  have nothing : s.written s.writes.length = [] := by
    rw [State.written, List.map_eq_nil_iff, List.filter_eq_nil_iff]
    intro entry member
    have older := stream.known entry member
    simp only [decide_eq_true_eq]
    omega
  have older : ∀ q w point, s.thread q = .writer w point → w.call < s.writes.length := by
    intro q w point isWriter
    exact (List.getElem?_eq_some_iff.mp (stream.counted q w point isWriter).1).1
  constructor
  · exact stream.bounded
  · exact stream.stream
  · intro q w point isWriter
    rcases State.setThread_cases isWriter with ⟨rfl, isNew⟩ | ⟨_, wasWriter⟩
    · cases isNew
      exact ⟨by simp [State.setThread], congrArg List.length nothing, fun isBody => by cases isBody⟩
    · obtain ⟨isCall, count, inBody⟩ := stream.counted q w point wasWriter
      refine ⟨?_, count, inBody⟩
      dsimp only [State.setThread]
      rw [List.getElem?_append_left (older q w point wasWriter)]
      exact isCall
  · intro q q' v w vPoint wPoint isV isW sameCall
    rcases State.setThread_cases isV with ⟨rfl, vNew⟩ | ⟨_, wasV⟩
    · rcases State.setThread_cases isW with ⟨rfl, _⟩ | ⟨_, wasW⟩
      · rfl
      · cases vNew
        exact absurd sameCall.symm (Nat.ne_of_lt (older q' w wPoint wasW))
    · rcases State.setThread_cases isW with ⟨rfl, wNew⟩ | ⟨_, wasW⟩
      · cases wNew
        exact absurd sameCall (Nat.ne_of_lt (older q v vPoint wasV))
      · exact stream.apart q q' v w vPoint wPoint wasV wasW sameCall
  · intro call other isCall
    dsimp only [State.setThread] at isCall
    by_cases isNew : call = s.writes.length
    · subst isNew
      exact ⟨0, Nat.zero_le _, nothing⟩
    · have isOld : call < s.writes.length := by
        have inside := (List.getElem?_eq_some_iff.mp isCall).1
        rw [List.length_append, List.length_singleton] at inside
        omega
      rw [List.getElem?_append_left isOld] at isCall
      exact stream.pieces call other isCall
  · intro entry member
    dsimp only [State.setThread]
    rw [List.length_append]
    exact Nat.lt_add_right _ (stream.known entry member)
  · intro q r point isReader
    rcases State.setThread_cases isReader with ⟨_, isNew⟩ | ⟨_, wasReader⟩
    · cases isNew
    · exact stream.mapped q r point wasReader

theorem read (stream : Stream s) {request : Request} (mapped : request.Mapped) :
    Stream (s.setThread p (.reader { request with i := 0 } .acquire)) := by
  refine ⟨stream.bounded, stream.stream, ?_, ?_, stream.pieces, stream.known, ?_⟩
  · intro q w point isWriter
    rcases State.setThread_cases isWriter with ⟨_, isNew⟩ | ⟨_, wasWriter⟩
    · cases isNew
    · exact stream.counted q w point wasWriter
  · intro q q' v w vPoint wPoint isV isW
    rcases State.setThread_cases isV with ⟨_, isNew⟩ | ⟨_, wasV⟩
    · cases isNew
    · rcases State.setThread_cases isW with ⟨_, isNew⟩ | ⟨_, wasW⟩
      · cases isNew
      · exact stream.apart q q' v w vPoint wPoint wasV wasW
  · intro q r point isReader
    rcases State.setThread_cases isReader with ⟨_, isNew⟩ | ⟨_, wasReader⟩
    · cases isNew
      exact mapped
    · exact stream.mapped q r point wasReader

theorem written_put (s : State) (p : ProcId) (w : Writing) (ch : Byte) (call : Nat) :
    (s.put p w ch).written call =
      s.written call ++ if w.call = call then [ch] else [] := by
  simp only [State.written, State.put, State.setThread, List.filter_append, List.map_append]
  congr 1
  by_cases isCall : w.call = call
  · simp [isCall]
  · simp [isCall]

theorem room_iff (stream : Stream s) :
    s.pipe.nwrite ≠ s.pipe.nread + BitVec.ofNat 32 PIPESIZE ↔ s.pipe.length < PIPESIZE := by
  have bounded := stream.bounded
  rw [Ne, Buffer.nwrite_eq_add_iff (by decide)]
  omega

/-- A writer that found room puts the next byte of its buffer into the pipe. -/
theorem put (stream : Stream s) {w : Writing} (isWriter : s.thread p = .writer w .body)
    (room : s.pipe.nwrite ≠ s.pipe.nread + BitVec.ofNat 32 PIPESIZE) :
    Stream (s.put p w (w.space.bytes (w.addr + w.i))) := by
  have space := stream.room_iff.mp room
  obtain ⟨isCall, count, inBody⟩ := stream.counted p w .body isWriter
  have more := inBody rfl
  have wrote := written_put s p w (w.space.bytes (w.addr + w.i))
  constructor
  · have small : s.pipe.length + 1 < 2 ^ 32 :=
      Nat.lt_of_le_of_lt (Nat.succ_le_of_lt space) (by decide)
    have isLength : (s.put p w (w.space.bytes (w.addr + w.i))).pipe.length =
        s.pipe.length + 1 := Buffer.length_put small _
    omega
  · have appended := Buffer.contents_put (by decide) (by decide) space
      (w.space.bytes (w.addr + w.i))
    have before := stream.stream
    simp only [State.put, State.setThread, appended, List.map_append, List.map_singleton]
    rw [← List.append_assoc, before]
  · intro q v point isV
    rcases State.setThread_cases isV with ⟨rfl, isNew⟩ | ⟨different, wasWriter⟩
    · cases isNew
      refine ⟨isCall, ?_, fun isBody => by cases isBody⟩
      rw [wrote, if_pos rfl, List.length_append, List.length_singleton, count]
    · obtain ⟨isCall', count', inBody'⟩ := stream.counted q v point wasWriter
      have otherCall : w.call ≠ v.call := fun same =>
        different (stream.apart p q w v .body point isWriter wasWriter same).symm
      refine ⟨isCall', ?_, inBody'⟩
      rw [wrote, if_neg otherCall, List.append_nil, count']
  · intro q q' u v uPoint vPoint isU isV sameCall
    rcases State.setThread_cases isU with ⟨rfl, uNew⟩ | ⟨_, wasU⟩
    · cases uNew
      rcases State.setThread_cases isV with ⟨rfl, _⟩ | ⟨_, wasV⟩
      · rfl
      · exact stream.apart q q' w v .body vPoint isWriter wasV sameCall
    · rcases State.setThread_cases isV with ⟨rfl, vNew⟩ | ⟨_, wasV⟩
      · cases vNew
        exact stream.apart q q' u w uPoint .body wasU isWriter sameCall
      · exact stream.apart q q' u v uPoint vPoint wasU wasV sameCall
  · intro call request isRequest
    obtain ⟨k, small, isFirst⟩ := stream.pieces call request isRequest
    rw [wrote]
    by_cases isThis : w.call = call
    · subst isThis
      rw [if_pos rfl]
      cases isCall.symm.trans isRequest
      have isCount : w.i = k := by
        rw [← count, isFirst, Request.first, List.length_map, List.length_range]
      refine ⟨w.i + 1, by omega, ?_⟩
      rw [isFirst, ← isCount, Request.first, Request.first, List.range_succ, List.map_append,
        List.map_singleton]
    · rw [if_neg isThis, List.append_nil]
      exact ⟨k, small, isFirst⟩
  · intro entry member
    rcases List.mem_append.mp member with isOld | isNew
    · exact stream.known entry isOld
    · rw [List.mem_singleton.mp isNew]
      exact (List.getElem?_eq_some_iff.mp isCall).1
  · intro q r point isReader
    rcases State.setThread_cases isReader with ⟨_, isNew⟩ | ⟨_, wasReader⟩
    · cases isNew
    · exact stream.mapped q r point wasReader

theorem take (stream : Stream s) {r : Reading} {space : Space}
    (isReader : s.thread p = .reader r .copy) (nonempty : s.pipe.nread ≠ s.pipe.nwrite)
    (sameMap : space.mapped = r.space.mapped) :
    Stream (s.drop.deliver p r space s.pipe.front) := by
  refine ⟨?_, ?_, ?_, ?_, stream.pieces, stream.known, ?_⟩
  · have shorter := Buffer.length_drop nonempty
    have bounded := stream.bounded
    exact Nat.le_trans (Nat.le_of_lt (Nat.lt_of_succ_le (Nat.le_of_eq shorter))) bounded
  · have before := stream.stream
    rw [Buffer.contents_drop nonempty] at before
    exact (List.append_assoc ..).trans before
  · intro q w point isWriter
    rcases State.setThread_cases isWriter with ⟨_, isNew⟩ | ⟨_, wasWriter⟩
    · cases isNew
    · exact stream.counted q w point wasWriter
  · intro q q' v w vPoint wPoint isV isW
    rcases State.setThread_cases isV with ⟨_, isNew⟩ | ⟨_, wasV⟩
    · cases isNew
    · rcases State.setThread_cases isW with ⟨_, isNew⟩ | ⟨_, wasW⟩
      · cases isNew
      · exact stream.apart q q' v w vPoint wPoint wasV wasW
  · intro q r' point isReader'
    rcases State.setThread_cases isReader' with ⟨_, isNew⟩ | ⟨_, wasReader⟩
    · cases isNew
      intro k inside
      dsimp only
      rw [sameMap]
      exact stream.mapped p r .copy isReader k inside
    · exact stream.mapped q r' point wasReader

theorem step (stream : Stream s) {action : Action} (allowed : ReadsMapped s action)
    (stepped : step s action = some s') : Stream s' := by
  cases Stepped.of_step stepped with
  | write _ => exact stream.write _
  | read _ => exact stream.read allowed
  | close _ _ => exact stream.quiet (.pipeclose ..)
  | kill =>
      rename_i p
      have flagged : Quiet s { s with killed := Function.update s.killed p true } :=
        .of_same_threads rfl rfl rfl rfl rfl
      exact stream.quiet (flagged.trans (.setThread (.wake _)))
  | freeproc _ => exact stream.quiet (.of_same_threads rfl rfl rfl rfl rfl)
  | writerEnter isWriter _ =>
      refine stream.quiet (.enter ?_)
      rw [isWriter]
      exact ⟨.acquire, rfl, fun isBody => by cases isBody⟩
  | writerQuit _ _ => exact stream.quiet (.leave trivial)
  | writerBody isWriter more _ _ =>
      refine stream.quiet (.setThread ?_)
      rw [isWriter]
      exact ⟨.loop, rfl, fun _ => .inr more⟩
  | writerPut isWriter room => exact stream.put isWriter room
  | writerSleep isWriter _ =>
      refine stream.quiet ((Quiet.wakeup s _ _).trans (.leave ?_))
      simp only [State.wakeup, ne_eq, not_true, false_and, if_false, isWriter]
      exact ⟨.body, rfl, fun isBody => by cases isBody⟩
  | writerDone _ _ => exact stream.quiet ((Quiet.wakeup s _ _).trans (.leave trivial))
  | readerEnter isReader _ =>
      refine stream.quiet (.enter ?_)
      rw [isReader]
      exact ⟨_, .acquire, rfl, rfl⟩
  | readerQuit _ => exact stream.quiet (.leave trivial)
  | readerDrowsy isReader _ _ =>
      refine stream.quiet (.setThread ?_)
      rw [isReader]
      exact ⟨_, .loop, rfl, rfl⟩
  | readerSleep isReader =>
      refine stream.quiet (.leave ?_)
      rw [isReader]
      exact ⟨_, .drowsy, rfl, rfl⟩
  | readerCopy isReader =>
      refine stream.quiet (.setThread ?_)
      rw [isReader]
      exact ⟨_, .loop, rfl, rfl⟩
  | readerTake isReader nonempty sameMap => exact stream.take isReader nonempty sameMap
  | readerLose isReader more _ unmapped =>
      -- The buffer is mapped, the copy does not fail.
      have mapped := stream.mapped _ _ .copy isReader _ (Int.lt_toNat.mpr more)
      rw [unmapped] at mapped
      cases mapped
  | readerDone _ => exact stream.quiet ((Quiet.wakeup s _ _).trans (.leave trivial))

theorem pipealloc (data : Fin PIPESIZE → Byte) : Stream (pipealloc data) where
  bounded := (Buffer.nread_eq_nwrite_iff.mp rfl).trans_le (Nat.zero_le _)
  stream := Buffer.contents_eq_nil rfl
  counted _ _ _ isWriter := by cases isWriter
  apart _ _ _ _ _ _ isWriter := by cases isWriter
  pieces _ _ isCall := by cases isCall
  known _ member := by cases member
  mapped _ _ _ isReader := by cases isReader

end Stream

/-- **A pipe is a lossless FIFO.** In every state of every run in which reads have
their buffers mapped, at most `PIPESIZE` bytes are in the pipe; what was delivered,
followed by what is in the pipe, is what was accepted; and what a call of `pipewrite`
has put into it are the first bytes of its buffer, in order among the others. -/
theorem lossless_fifo {data : Fin PIPESIZE → Byte} {s : State}
    (reachable : Reachable ReadsMapped data s) :
    (s.pipe.nwrite - s.pipe.nread).toNat ≤ PIPESIZE ∧
      s.delivered ++ s.pipe.contents = s.accepted.map Prod.snd ∧
      ∀ call request, s.writes[call]? = some request →
        (s.written call).Sublist (s.accepted.map Prod.snd) ∧
          ∃ k, k ≤ request.n.toNat ∧ s.written call = request.first k := by
  have stream : Stream s := reachable.invariant (.pipealloc data)
    fun _ _ _ stream allowed stepped => stream.step allowed stepped
  refine ⟨stream.bounded, stream.stream, fun call request isCall => ⟨?_, ?_⟩⟩
  · exact List.filter_sublist.map Prod.snd
  · exact stream.pieces call request isCall

/-- A process has written two bytes, another has read one of them. -/
theorem lossless_fifo_two : ∃ s : State, Reachable ReadsMapped (fun _ => 0) s ∧
    s.delivered = [7] ∧ s.pipe.contents = [8] ∧ s.accepted.map Prod.snd = [7, 8] ∧
    s.delivered ++ s.pipe.contents = s.accepted.map Prod.snd := by
  obtain ⟨s, reachable, delivered, buffered, accepted⟩ := Runs.exists_of_follow
    step ReadsMapped (pipealloc fun _ => 0)
    ([.write 0 ⟨⟨fun _ => true, fun a => BitVec.ofNat 8 (a + 7)⟩, 0, 2⟩,
      .read 1 ⟨⟨fun _ => true, fun _ => 0⟩, 0, 1⟩] ++
      List.replicate 6 (.run 0) ++ List.replicate 3 (.run 1))
    (fun s => s.delivered = [7] ∧ s.pipe.contents = [8] ∧ s.accepted.map Prod.snd = [7, 8])
    (by decide +kernel)
  exact ⟨s, reachable, delivered, buffered, accepted, (lossless_fifo reachable).2.1⟩

end Xv6.Pipes
