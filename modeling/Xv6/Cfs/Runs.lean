import Xv6.Cfs.QueueSpec

/-!
Contract: the run queue over whole runs of calls from `rbinit`.

Owns: the calls, when a caller may make them, runs with their history, the
abstract queue a history describes, and two results: every reachable tree is a
well-formed red-black tree on which every allowed call returns, and the tree
refines the abstract queue.

Between two calls the rest of the kernel may write anything but the tree and,
for queued processes, the links, `virtualRuntime`, `state` and `weightValue`
(`Memory.Undisturbed`).
-/

namespace Xv6.Cfs

open Xv6.Kernel
open Xv6.RedBlack

/-! ## The tree as the pointers give it -/

/-- In-order traversal along `left` and `right`. -/
def traverse (shape : Shape) : Nat → Option ProcId → List ProcId
  | 0, _ => []
  | _ + 1, none => []
  | fuel + 1, some p =>
      traverse shape fuel (shape.node p).left ++
        p :: traverse shape fuel (shape.node p).right

def Memory.inorder (memory : Memory) : List ProcId :=
  traverse memory.rb treeFuel memory.rb.root

theorem traverse_eq {shape : Shape} {tree : RedBlack.Tree ProcId} {parent : Option ProcId}
    {fuel : Nat} (rep : tree.Rep shape.node parent) (enough : tree.keys.length < fuel) :
    traverse shape fuel tree.root? = tree.keys := by
  induction tree generalizing parent fuel with
  | nil => cases fuel <;> rfl
  | node color left x right leftRule rightRule =>
      obtain ⟨fuel, rfl⟩ : ∃ less, fuel = less + 1 := ⟨fuel - 1, by omega⟩
      obtain ⟨atX, leftRep, rightRep⟩ := rep
      simp only [RedBlack.Tree.keys_node, List.length_append, List.length_cons] at enough
      have leftKeys := leftRule leftRep (by omega : _ < fuel)
      have rightKeys := rightRule rightRep (by omega : _ < fuel)
      simp [traverse, atX, leftKeys, rightKeys]

variable {memory : Memory} {queue : List ProcId}

theorem Memory.Holds.inorder_eq (holds : memory.Holds queue) : memory.inorder = queue := by
  obtain ⟨tree, _, shape, keys, _⟩ := holds.tree
  have bound := length_le_of_nodup shape.distinct
  have enough : tree.keys.length < treeFuel := by
    unfold treeFuel NPROC at *
    omega
  rw [Memory.inorder, shape.root, traverse_eq shape.rep enough, keys]

/-- What the pointers and counters of the run queue have to be: one tree with
consistent parent links, ordered by `virtualRuntime`, coloured by the red-black
rules, counted, and with its leftmost process cached. -/
def Memory.WellFormed (memory : Memory) : Prop :=
  ∃ tree, memory.rb.Holds tree ∧ tree.ColorRules ∧
    (tree.keys.map memory.virtualRuntime).Pairwise (· ≤ ·) ∧
    memory.count = tree.keys.length ∧ memory.min_vRuntime = tree.leftmost?

theorem Memory.Holds.wellFormed (holds : memory.Holds queue) : memory.WellFormed := by
  obtain ⟨tree, height, shape, keys, balanced⟩ := holds.tree
  refine ⟨tree, shape, balanced.colorRules, ?_, ?_, ?_⟩
  · rw [keys]
    exact List.pairwise_map.mpr holds.ordered
  · rw [keys]
    exact holds.count
  · rw [holds.minimum, RedBlack.Tree.leftmost?_eq_head?, keys]

/-! ## Calls and runs -/

inductive Call where
  | insert (p : ProcId)
  | retrieve
  | chprio (pid priority : Int)
deriving DecidableEq, Repr

/-- What the callers guarantee: an inserted process is not in the tree, is
runnable and has no children, and `sys_chprio` refuses negative priorities. -/
def Call.Allowed (memory : Memory) : Call → Prop
  | insert p =>
      p ∉ memory.inorder ∧ (memory.proc p).state = .RUNNABLE ∧
        (memory.rb.node p).left = none ∧ (memory.rb.node p).right = none
  | retrieve => True
  | chprio _ priority => 0 ≤ priority

instance (memory : Memory) : (call : Call) → Decidable (call.Allowed memory)
  | .insert _ => inferInstanceAs (Decidable (_ ∧ _))
  | .retrieve => inferInstanceAs (Decidable True)
  | .chprio _ _ => inferInstanceAs (Decidable (_ ≤ _))

def Call.perform (memory : Memory) : Call → Option Memory
  | insert p => insertProcess memory p
  | retrieve => (retrieveProcess memory).map Prod.fst
  | chprio pid priority => some (Cfs.chprio memory pid priority)

/-- Writes of the rest of the kernel between two calls. -/
structure Memory.Undisturbed (memory memory' : Memory) : Prop where
  root : memory'.rb.root = memory.rb.root
  node : ∀ q ∈ memory.inorder, memory'.rb.node q = memory.rb.node q
  key : ∀ q ∈ memory.inorder, memory'.virtualRuntime q = memory.virtualRuntime q
  state : ∀ q ∈ memory.inorder, (memory'.proc q).state = (memory.proc q).state
  weight : ∀ q ∈ memory.inorder,
    (memory'.proc q).weightValue = (memory.proc q).weightValue
  count : memory'.count = memory.count
  rbTreeWeight : memory'.rbTreeWeight = memory.rbTreeWeight
  minimum : memory'.min_vRuntime = memory.min_vRuntime
  period : memory'.period = memory.period

/-- A call with the memory it was made in. -/
structure Entry where
  call : Call
  before : Memory

/-- `Run history memory`: the calls of `history`, latest first, lead from some
freshly initialised run queue to `memory`. -/
inductive Run : List Entry → Memory → Prop where
  | rbinit (memory : Memory) : Run [] (rbinit memory)
  | call {history : List Entry} {memory memory' : Memory} (call : Call)
      (run : Run history memory) (allowed : call.Allowed memory)
      (performed : call.perform memory = some memory') :
      Run (⟨call, memory⟩ :: history) memory'
  | elapse {history : List Entry} {memory memory' : Memory} (run : Run history memory)
      (undisturbed : memory.Undisturbed memory') : Run history memory'

/-- Make a list of calls, each only if it is allowed. -/
def play : List Entry × Memory → List Call → Option (List Entry × Memory)
  | (history, memory), [] => some (history, memory)
  | (history, memory), call :: calls =>
      if call.Allowed memory then do
        let memory' ← call.perform memory
        play (⟨call, memory⟩ :: history, memory') calls
      else
        none

theorem Run.play {history history' : List Entry} {memory' : Memory} {calls : List Call}
    (run : Run history memory)
    (played : Cfs.play (history, memory) calls = some (history', memory')) :
    Run history' memory' := by
  induction calls generalizing history memory with
  | nil =>
      cases played
      exact run
  | cons call calls ih =>
      unfold Cfs.play at played
      split at played
      · rename_i allowed
        obtain ⟨next, performed, rest⟩ := Option.bind_eq_some_iff.mp played
        exact ih (run.call call allowed performed) rest
      · cases played

/-- A run by evaluation, with a test of where it leads. -/
theorem Run.exists_of_play (start : Memory) (calls : List Call)
    (test : List Entry → Memory → Prop) [∀ history memory, Decidable (test history memory)]
    (checked : (Cfs.play ([], Cfs.rbinit start) calls).any
      (fun result => test result.1 result.2) = true) :
    ∃ history memory, Run history memory ∧ test history memory := by
  cases played : Cfs.play ([], Cfs.rbinit start) calls with
  | none =>
      rw [played] at checked
      cases checked
  | some result =>
      rw [played] at checked
      exact ⟨result.1, result.2, (Run.rbinit start).play played, by simpa using checked⟩

/-- A process table whose slots are all runnable, with pids `1 .. NPROC`. -/
def readyMemory : Memory where
  proc p := { Proc.zero with state := .RUNNABLE, pid := p.val + 1 }
  rb := { root := none, node := fun _ => ⟨none, none, none, .red⟩ }
  count := 0
  rbTreeWeight := 0
  min_vRuntime := none
  period := 0

def insertFirst (n : Nat) : List Call := ((List.finRange NPROC).take n).map .insert

/-! ## The abstract queue of a history -/

/-- A process with the key it was inserted under. -/
abbrev Ticket := ProcId × Int

/-- The stable priority queue after the calls of a history. -/
def specQueue : List Entry → List Ticket
  | [] => []
  | ⟨.insert p, before⟩ :: history =>
      Queue.enqueue Prod.snd (p, before.virtualRuntime p) (specQueue history)
  | ⟨.retrieve, _⟩ :: history => (specQueue history).tail
  | ⟨.chprio _ _, _⟩ :: history => specQueue history

def arrivals : List Entry → List Ticket
  | [] => []
  | ⟨.insert p, before⟩ :: history => arrivals history ++ [(p, before.virtualRuntime p)]
  | ⟨.retrieve, _⟩ :: history => arrivals history
  | ⟨.chprio _ _, _⟩ :: history => arrivals history

def Memory.found (memory : Memory) : Option ProcId :=
  (retrieveProcess memory).bind Prod.snd

def departures : List Entry → List Ticket
  | [] => []
  | ⟨.retrieve, before⟩ :: history =>
      departures history ++ (before.found.map fun p => (p, before.virtualRuntime p)).toList
  | ⟨.insert _, _⟩ :: history => departures history
  | ⟨.chprio _ _, _⟩ :: history => departures history

/-! ## What every run keeps -/

/-- The invariant of runs. Its `queue` is both the in-order sequence of the tree
and, with the keys, the abstract queue. -/
structure Sound (history : List Entry) (memory : Memory) (queue : List ProcId) : Prop where
  holds : memory.Holds queue
  runnable : ∀ q ∈ queue, (memory.proc q).state = .RUNNABLE
  weight : ∀ q ∈ queue, 0 < (memory.proc q).weightValue ∧ (memory.proc q).weightValue ≤ 819
  refines : queue.map (fun q => (q, memory.virtualRuntime q)) = specQueue history

section Preservation

variable {history : List Entry} {memory memory' : Memory} {queue : List ProcId}

theorem Sound.rbinit (memory : Memory) : Sound [] (rbinit memory) [] where
  holds := .rbinit memory
  runnable := by simp
  weight := by simp
  refines := rfl

theorem map_enqueue (key : ProcId → Int) (p : ProcId) (queue : List ProcId) :
    (Queue.enqueue key p queue).map (fun q => (q, key q)) =
      Queue.enqueue Prod.snd (p, key p) (queue.map fun q => (q, key q)) := by
  induction queue with
  | nil => rfl
  | cons y queue ih =>
      simp only [Queue.enqueue, List.map_cons]
      split
      · rw [List.map_cons, ih]
      · rfl

theorem Sound.insert (sound : Sound history memory queue) {p : ProcId}
    (allowed : (Call.insert p).Allowed memory) :
    ∃ memory', insertProcess memory p = some memory' ∧
      Sound (⟨.insert p, memory⟩ :: history) memory'
        (Queue.enqueue memory.virtualRuntime p queue) ∧
      memory'.proc = Function.update memory.proc p { memory.proc p with
        weightValue := calculateWeight (memory.proc p).niceValue } ∧
      memory'.rbTreeWeight =
        int32 (memory.rbTreeWeight + calculateWeight (memory.proc p).niceValue) ∧
      memory'.period = memory.period := by
  obtain ⟨missing, runnable, leaf⟩ := allowed
  rw [sound.holds.inorder_eq] at missing
  obtain ⟨memory', inserted, holds, procs, weight, period, _⟩ :=
    insertProcess_spec sound.holds missing leaf
  have sameKey : memory'.virtualRuntime = memory.virtualRuntime := by
    funext q
    by_cases same : q = p <;> simp [Memory.virtualRuntime, procs, same]
  refine ⟨memory', inserted, ⟨holds, ?_, ?_, ?_⟩, procs, weight, period⟩
  · intro q member
    rcases Queue.mem_enqueue.mp member with same | queued
    · simp [procs, same, runnable]
    · have different : q ≠ p := by
        rintro rfl
        exact missing queued
      simp [procs, different, sound.runnable q queued]
  · intro q member
    rcases Queue.mem_enqueue.mp member with same | queued
    · simp [procs, same, calculateWeight_range]
    · have different : q ≠ p := by
        rintro rfl
        exact missing queued
      simpa [procs, different] using sound.weight q queued
  · rw [sameKey, map_enqueue, sound.refines]
    rfl

theorem Sound.retrieve (sound : Sound history memory queue) :
    ∃ memory', retrieveProcess memory = some (memory', queue.head?) ∧
      Sound (⟨.retrieve, memory⟩ :: history) memory' queue.tail := by
  cases queue with
  | nil =>
      refine ⟨memory, retrieveProcess_empty sound.holds, sound.holds, by simp, by simp, ?_⟩
      rw [specQueue, ← sound.refines]
      rfl
  | cons p queue =>
      obtain ⟨memory', found, holds, procs, _⟩ :=
        retrieveProcess_spec sound.holds (sound.runnable p (by simp))
      have missing : p ∉ queue := (List.nodup_cons.mp sound.holds.nodup).1
      have untouched : ∀ q ∈ queue, memory'.proc q = memory.proc q := by
        intro q member
        have different : q ≠ p := by
          rintro rfl
          exact missing member
        simp [procs, different]
      refine ⟨memory', found, holds, ?_, ?_, ?_⟩
      · intro q member
        rw [untouched q member]
        exact sound.runnable q (by simp [show q ∈ queue from member])
      · intro q member
        rw [untouched q member]
        exact sound.weight q (by simp [show q ∈ queue from member])
      · rw [specQueue, ← sound.refines, List.map_cons, List.tail_cons, List.tail_cons]
        refine List.map_congr_left fun q member => ?_
        rw [Memory.virtualRuntime, untouched q member]
        rfl

/-- `chprio` writes the nice value and the weight of at most one process. -/
theorem chprio_proc (memory : Memory) (pid priority : Int) (q : ProcId) :
    (chprio memory pid priority).proc q =
      if slotOfPid memory pid = some q then
        { memory.proc q with
          niceValue := priority
          weightValue := calculateWeight priority }
      else memory.proc q := by
  unfold chprio
  cases slot : slotOfPid memory pid with
  | none => simp
  | some p =>
      by_cases same : q = p
      · simp [Memory.setProc, same]
      · have different : p ≠ q := fun equal => same equal.symm
        simp [Memory.setProc, same, different]

theorem chprio_tree (memory : Memory) (pid priority : Int) :
    chprio memory pid priority =
      { memory with proc := (chprio memory pid priority).proc } := by
  unfold chprio
  cases slotOfPid memory pid <;> rfl

theorem Sound.chprio (sound : Sound history memory queue) (pid priority : Int) :
    Sound (⟨.chprio pid priority, memory⟩ :: history) (chprio memory pid priority)
      queue := by
  have sameKey : (Cfs.chprio memory pid priority).virtualRuntime =
      memory.virtualRuntime := by
    funext q
    rw [Memory.virtualRuntime, chprio_proc]
    split <;> rfl
  refine ⟨?_, ?_, ?_, ?_⟩
  · rw [chprio_tree] at sameKey ⊢
    exact sound.holds.congr rfl (fun _ _ => rfl) (fun q _ => congrFun sameKey q) rfl rfl
  · intro q member
    rw [chprio_proc]
    split
    · exact sound.runnable q member
    · exact sound.runnable q member
  · intro q member
    rw [chprio_proc]
    split
    · exact calculateWeight_range priority
    · exact sound.weight q member
  · rw [sameKey]
    exact sound.refines

theorem Sound.elapse (sound : Sound history memory queue)
    (undisturbed : memory.Undisturbed memory') : Sound history memory' queue := by
  have queued := sound.holds.inorder_eq
  obtain ⟨root, node, key, state, weight, count, _, minimum, _⟩ := undisturbed
  rw [queued] at node key state weight
  refine ⟨sound.holds.congr root node key count minimum, ?_, ?_, ?_⟩
  · intro q member
    rw [state q member]
    exact sound.runnable q member
  · intro q member
    rw [weight q member]
    exact sound.weight q member
  · rw [← sound.refines]
    exact List.map_congr_left fun q member => by rw [key q member]

theorem Sound.perform (sound : Sound history memory queue) {call : Call}
    (allowed : call.Allowed memory) :
    ∃ memory' queue', call.perform memory = some memory' ∧
      Sound (⟨call, memory⟩ :: history) memory' queue' := by
  cases call with
  | insert p =>
      obtain ⟨memory', inserted, after, _⟩ := sound.insert allowed
      exact ⟨memory', _, inserted, after⟩
  | retrieve =>
      obtain ⟨memory', found, after⟩ := sound.retrieve
      exact ⟨memory', _, by simp [Call.perform, found], after⟩
  | chprio pid priority => exact ⟨_, queue, rfl, sound.chprio pid priority⟩

theorem Run.sound (run : Run history memory) : ∃ queue, Sound history memory queue := by
  induction run with
  | rbinit memory => exact ⟨[], .rbinit memory⟩
  | call call run allowed performed ih =>
      obtain ⟨queue, sound⟩ := ih
      obtain ⟨memory', queue', performed', after⟩ := sound.perform allowed
      rw [performed] at performed'
      cases performed'
      exact ⟨queue', after⟩
  | elapse run undisturbed ih =>
      obtain ⟨queue, sound⟩ := ih
      exact ⟨queue, sound.elapse undisturbed⟩

end Preservation

/-! ## The tree over whole runs -/

/-- **The run queue stays a red-black tree.** After every call of every run the
tree is well formed, and every call a caller may make next returns without
meeting a null pointer. -/
theorem run_wellFormed {history : List Entry} {memory : Memory}
    (run : Run history memory) :
    memory.WellFormed ∧
      ∀ call : Call, call.Allowed memory → ∃ memory', call.perform memory = some memory' := by
  obtain ⟨queue, sound⟩ := run.sound
  refine ⟨sound.holds.wellFormed, fun call allowed => ?_⟩
  obtain ⟨memory', _, performed, _⟩ := sound.perform allowed
  exact ⟨memory', performed⟩

theorem run_wellFormed_ten : ∃ history memory, Run history memory ∧ memory.count = 9 ∧
    memory.WellFormed ∧
    ∀ call : Call, call.Allowed memory → ∃ memory', call.perform memory = some memory' := by
  obtain ⟨history, memory, run, counted⟩ := Run.exists_of_play readyMemory
    (insertFirst 10 ++ [.retrieve]) (fun _ memory => memory.count = 9) (by decide +kernel)
  exact ⟨history, memory, run, counted, run_wellFormed run⟩

/-! ## Refinement of the abstract queue -/

section Refinement

variable {history : List Entry} {memory : Memory}

theorem specQueue_ordered (run : Run history memory) :
    Queue.Ordered Prod.snd (specQueue history) := by
  obtain ⟨queue, sound⟩ := run.sound
  rw [← sound.refines]
  exact List.pairwise_map.mpr sound.holds.ordered

theorem found_ticket (run : Run history memory) :
    (memory.found.map fun p => (p, memory.virtualRuntime p)) = (specQueue history).head? := by
  obtain ⟨queue, sound⟩ := run.sound
  obtain ⟨memory', found, _⟩ := sound.retrieve
  rw [Memory.found, found, ← sound.refines, List.head?_map]
  rfl

/-- Among equal keys, what came in is what came out followed by what is queued,
in this order. -/
theorem arrivals_level (run : Run history memory) (level : Int) :
    (arrivals history).filter (fun ticket => ticket.2 = level) =
      (departures history ++ specQueue history).filter (fun ticket => ticket.2 = level) := by
  induction run with
  | rbinit memory => rfl
  | elapse run undisturbed ih => exact ih
  | @call history memory memory' call run allowed performed ih =>
      cases call with
      | insert p =>
          rw [arrivals, departures, specQueue, List.filter_append, ih,
            List.filter_append, List.filter_append,
            Queue.filter_enqueue (specQueue_ordered run), List.append_assoc]
          by_cases same : memory.virtualRuntime p = level <;> simp [same]
      | retrieve =>
          rw [arrivals, departures, specQueue, ih, found_ticket run]
          cases specQueue history <;> simp
      | chprio pid priority => exact ih

theorem arrivals_perm (run : Run history memory) :
    (arrivals history).Perm (departures history ++ specQueue history) := by
  induction run with
  | rbinit memory => rfl
  | elapse run undisturbed ih => exact ih
  | @call history memory memory' call run allowed performed ih =>
      cases call with
      | insert p =>
          rw [arrivals, departures, specQueue]
          refine (ih.append_right _).trans ?_
          rw [List.append_assoc]
          refine List.Perm.append_left _ ?_
          exact (List.perm_append_singleton _ _).trans (Queue.enqueue_perm _ _ _).symm
      | retrieve =>
          rw [arrivals, departures, specQueue, found_ticket run]
          refine ih.trans ?_
          cases specQueue history <;> simp
      | chprio pid priority => exact ih

/-- **Refinement of a stable priority queue.** In every reachable state the
in-order sequence with its keys is the abstract queue. Inserting places a process
directly after every queued process with at most its key; retrieving removes and
returns the head, whose key is minimal. Equal keys come out in insertion order,
and what was inserted is what was returned or is still queued, nothing twice. -/
theorem run_refines_stableQueue (run : Run history memory) :
    memory.inorder.map (fun q => (q, memory.virtualRuntime q)) = specQueue history ∧
      (∀ p, (Call.insert p).Allowed memory → ∃ memory', insertProcess memory p = some memory' ∧
        memory'.inorder = Queue.enqueue memory.virtualRuntime p memory.inorder) ∧
      (∃ memory', retrieveProcess memory = some (memory', memory.inorder.head?) ∧
        memory'.inorder = memory.inorder.tail) ∧
      (∀ p, memory.inorder.head? = some p →
        ∀ q ∈ memory.inorder, memory.virtualRuntime p ≤ memory.virtualRuntime q) ∧
      (∀ level, (arrivals history).filter (fun ticket => ticket.2 = level) =
        (departures history ++ specQueue history).filter (fun ticket => ticket.2 = level)) ∧
      (arrivals history).Perm (departures history ++ specQueue history) := by
  obtain ⟨queue, sound⟩ := run.sound
  have queued := sound.holds.inorder_eq
  refine ⟨?_, ?_, ?_, ?_, arrivals_level run, arrivals_perm run⟩
  · rw [queued]
    exact sound.refines
  · intro p allowed
    obtain ⟨memory', inserted, after, _⟩ := sound.insert allowed
    exact ⟨memory', inserted, by rw [after.holds.inorder_eq, queued]⟩
  · obtain ⟨memory', found, after⟩ := sound.retrieve
    exact ⟨memory', by rw [found, queued], by rw [after.holds.inorder_eq, queued]⟩
  · intro p first q member
    rw [queued] at first member
    have ordered := sound.holds.ordered
    cases queue with
    | nil => cases first
    | cons head rest =>
        cases first
        exact ordered.head_le q member

theorem run_refines_stableQueue_three : ∃ history memory, Run history memory ∧
    specQueue history = memory.inorder.map (fun q => (q, memory.virtualRuntime q)) ∧
    departures history = ((List.finRange NPROC).take 2).map (fun p => (p, 0)) := by
  obtain ⟨history, memory, run, came⟩ := Run.exists_of_play readyMemory
    (insertFirst 3 ++ [.retrieve, .retrieve])
    (fun history _ => departures history =
      ((List.finRange NPROC).take 2).map (fun p => (p, 0))) (by decide +kernel)
  exact ⟨history, memory, run, (run_refines_stableQueue run).1.symm, came⟩

end Refinement

end Xv6.Cfs
