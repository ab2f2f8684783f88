import Xv6.Cfs.Runs

/-!
Contract: the two quantities a time slice is computed from, over whole runs.

Owns: when `rbTreeWeight` is the total weight of the queued processes, and when
the period a call uses is the one its tree size prescribes. Both fail on some
runs; the results say on exactly which.

`chprio` overwrites the weight of a queued process without touching the total,
so the total is exact along a run exactly when every such call leaves the weight
as it was (`Neutral`). `retrieveProcess` never puts the period back to `latency`,
so a small tree gets the prescribed period exactly when no earlier call met a
large one.
-/

namespace Xv6.Cfs

open Xv6.Kernel

/-! ## Total weight -/

def Memory.queuedWeight (memory : Memory) : Int :=
  (memory.inorder.map fun q => (memory.proc q).weightValue).sum

def Memory.WeightExact (memory : Memory) : Prop :=
  memory.rbTreeWeight = memory.queuedWeight

instance (memory : Memory) : Decidable memory.WeightExact :=
  inferInstanceAs (Decidable (_ = _))

/-- The call does not change the weight of a queued process. -/
def Entry.Neutral (entry : Entry) : Prop :=
  ∀ pid priority, entry.call = .chprio pid priority →
    ∀ p, slotOfPid entry.before pid = some p → p ∈ entry.before.inorder →
      calculateWeight priority = (entry.before.proc p).weightValue

/-- A property of the memory before every call of a run and at its end. -/
def EveryState (property : Memory → Prop) (history : List Entry) (memory : Memory) : Prop :=
  (∀ entry ∈ history, property entry.before) ∧ property memory

section Weight

variable {history : List Entry} {memory memory' : Memory} {queue : List ProcId}

theorem sum_weight_bounds {weight : ProcId → Int}
    (range : ∀ q ∈ queue, 0 < weight q ∧ weight q ≤ 819) :
    0 ≤ (queue.map weight).sum ∧ (queue.map weight).sum ≤ 819 * queue.length := by
  induction queue with
  | nil => simp
  | cons q queue ih =>
      have rest := ih fun r member => range r (by simp [member])
      have here := range q (by simp)
      simp only [List.map_cons, List.sum_cons, List.length_cons]
      push_cast
      omega

theorem Sound.queuedWeight_eq (sound : Sound history memory queue) :
    memory.queuedWeight = (queue.map fun q => (memory.proc q).weightValue).sum := by
  rw [Memory.queuedWeight, sound.holds.inorder_eq]

theorem Sound.queuedWeight_bounds (sound : Sound history memory queue) :
    0 ≤ memory.queuedWeight ∧ memory.queuedWeight ≤ 819 * queue.length := by
  rw [sound.queuedWeight_eq]
  exact sum_weight_bounds sound.weight

theorem Sound.length_le (sound : Sound history memory queue) : queue.length ≤ 64 :=
  length_le_of_nodup sound.holds.nodup

theorem weightExact_insert (sound : Sound history memory queue) {p : ProcId}
    (allowed : (Call.insert p).Allowed memory)
    (inserted : insertProcess memory p = some memory') (exact : memory.WeightExact) :
    memory'.WeightExact := by
  obtain ⟨memory'', inserted', after, procs, weight, _⟩ := sound.insert allowed
  rw [inserted] at inserted'
  cases inserted'
  have missing : p ∉ queue := by
    rw [← sound.holds.inorder_eq]
    exact allowed.1
  have before := sound.queuedWeight_bounds
  have length := sound.length_le
  have new := calculateWeight_range (memory.proc p).niceValue
  have others : (queue.map fun q => (memory'.proc q).weightValue) =
      queue.map fun q => (memory.proc q).weightValue := by
    refine List.map_congr_left fun q member => ?_
    have different : q ≠ p := by
      rintro rfl
      exact missing member
    simp [procs, different]
  have total : memory'.queuedWeight =
      memory.queuedWeight + calculateWeight (memory.proc p).niceValue := by
    rw [after.queuedWeight_eq,
      ((Queue.enqueue_perm memory.virtualRuntime p queue).map _).sum_eq, List.map_cons,
      List.sum_cons, others, sound.queuedWeight_eq, procs]
    simp [add_comm]
  rw [Memory.WeightExact, weight, exact, total]
  exact int32_of_range (by omega) (by omega)

/-- Retrieval subtracts the weight of the process that leaves. -/
theorem weightExact_retrieve (sound : Sound history memory queue) {found : Option ProcId}
    (retrieved : retrieveProcess memory = some (memory', found))
    (exact : memory.WeightExact) : memory'.WeightExact := by
  cases queue with
  | nil =>
      rw [retrieveProcess_empty sound.holds] at retrieved
      cases retrieved
      exact exact
  | cons p queue =>
      obtain ⟨after, retrieved', holds, procs, weight, _⟩ :=
        retrieveProcess_spec sound.holds (sound.runnable p (by simp))
      rw [retrieved] at retrieved'
      cases retrieved'
      have missing : p ∉ queue := (List.nodup_cons.mp sound.holds.nodup).1
      have bounds := sound.queuedWeight_bounds
      have length := sound.length_le
      have here := sound.weight p (by simp)
      have rest : memory'.queuedWeight =
          (queue.map fun q => (memory.proc q).weightValue).sum := by
        rw [Memory.queuedWeight, holds.inorder_eq]
        refine congrArg List.sum (List.map_congr_left fun q member => ?_)
        have different : q ≠ p := by
          rintro rfl
          exact missing member
        simp [procs, different]
      have total := sound.queuedWeight_eq
      rw [List.map_cons, List.sum_cons] at total
      rw [List.length_cons] at length bounds
      rw [Memory.WeightExact, weight, exact, rest, total]
      rw [int32_of_range (by omega) (by omega)]
      omega

theorem sum_map_change (weight weight' : ProcId → Int) {p : ProcId} (distinct : queue.Nodup)
    (queued : p ∈ queue) (others : ∀ q, q ≠ p → weight' q = weight q) :
    (queue.map weight').sum = (queue.map weight).sum - weight p + weight' p := by
  have first := List.perm_cons_erase queued
  have rest : (queue.erase p).map weight' = (queue.erase p).map weight := by
    refine List.map_congr_left fun q member => others q ?_
    rintro rfl
    exact distinct.not_mem_erase member
  rw [(first.map weight').sum_eq, (first.map weight).sum_eq, List.map_cons, List.map_cons,
    List.sum_cons, List.sum_cons, rest]
  omega

theorem weightExact_chprio (sound : Sound history memory queue) (pid priority : Int)
    (exact : memory.WeightExact) :
    (chprio memory pid priority).WeightExact ↔
      (Entry.mk (.chprio pid priority) memory).Neutral := by
  have after := sound.chprio pid priority
  have total : (chprio memory pid priority).rbTreeWeight = memory.rbTreeWeight := by
    rw [chprio_tree]
  have written := chprio_proc memory pid priority
  rw [Memory.WeightExact, total, exact, after.queuedWeight_eq, sound.queuedWeight_eq]
  constructor
  · rintro same _ _ ⟨⟩ p slot queued
    rw [sound.holds.inorder_eq] at queued
    have changed := sum_map_change (fun q => (memory.proc q).weightValue)
      (fun q => ((chprio memory pid priority).proc q).weightValue)
      sound.holds.nodup queued (fun q different => by
        have other : slotOfPid memory pid ≠ some q := by
          rw [slot]
          rintro ⟨⟩
          exact different rfl
        simp [written, other])
    simp only [written p, slot, if_true] at changed
    show calculateWeight priority = (memory.proc p).weightValue
    omega
  · intro neutral
    refine congrArg List.sum (List.map_congr_left fun q member => ?_)
    rw [written q]
    split
    · rename_i slot
      have queued : q ∈ memory.inorder := by
        rw [sound.holds.inorder_eq]
        exact member
      exact (neutral pid priority rfl q slot queued).symm
    · rfl

theorem weightExact_perform (sound : Sound history memory queue) {call : Call}
    (allowed : call.Allowed memory) (performed : call.perform memory = some memory')
    (exact : memory.WeightExact) :
    memory'.WeightExact ↔ (Entry.mk call memory).Neutral := by
  cases call with
  | insert p =>
      have neutral : (Entry.mk (.insert p) memory).Neutral := by
        rintro _ _ ⟨⟩
      exact iff_of_true (weightExact_insert sound allowed performed exact) neutral
  | retrieve =>
      have neutral : (Entry.mk .retrieve memory).Neutral := by
        rintro _ _ ⟨⟩
      obtain ⟨result, retrieved, rfl⟩ := Option.map_eq_some_iff.mp performed
      exact iff_of_true (weightExact_retrieve sound retrieved exact) neutral
  | chprio pid priority =>
      cases performed
      exact weightExact_chprio sound pid priority exact

theorem weightExact_elapse (sound : Sound history memory queue)
    (undisturbed : memory.Undisturbed memory') :
    memory'.WeightExact ↔ memory.WeightExact := by
  have after := sound.elapse undisturbed
  have sameSum : memory'.queuedWeight = memory.queuedWeight := by
    rw [after.queuedWeight_eq, sound.queuedWeight_eq]
    refine congrArg List.sum (List.map_congr_left fun q member => ?_)
    exact undisturbed.weight q (by rw [sound.holds.inorder_eq]; exact member)
  rw [Memory.WeightExact, Memory.WeightExact, sameSum, undisturbed.rbTreeWeight]

/-- Along a run the total is exact exactly as long as every call is neutral. -/
theorem everyState_weightExact (run : Run history memory) :
    EveryState Memory.WeightExact history memory ↔ ∀ entry ∈ history, entry.Neutral := by
  induction run with
  | rbinit memory =>
      have atStart : (rbinit memory).WeightExact := by
        rw [Memory.WeightExact, Memory.queuedWeight, (Memory.Holds.rbinit memory).inorder_eq]
        rfl
      simp [EveryState, atStart]
  | elapse run undisturbed ih =>
      obtain ⟨queue, sound⟩ := run.sound
      rw [← ih, EveryState, EveryState,
        weightExact_elapse sound undisturbed]
  | call call run allowed performed ih =>
      obtain ⟨queue, sound⟩ := run.sound
      rw [List.forall_mem_cons, ← ih, EveryState, List.forall_mem_cons,
        EveryState]
      constructor
      · rintro ⟨⟨exact, earlier⟩, exact'⟩
        exact ⟨(weightExact_perform sound allowed performed exact).mp exact', earlier, exact⟩
      · rintro ⟨neutral, earlier, exact⟩
        exact ⟨⟨exact, earlier⟩, (weightExact_perform sound allowed performed exact).mpr neutral⟩

end Weight

/-! ## The period -/

/-- The period a tree of `count` processes should get. -/
def periodLaw (count : Int) : Int :=
  if count > latency / min_granularity then count * min_granularity else latency

/-- Some call of the history recomputed the period. -/
def Stretched (history : List Entry) : Prop :=
  ∃ entry ∈ history, entry.call = .retrieve ∧ entry.before.count > latency / min_granularity

section Period

variable {history : List Entry} {memory memory' : Memory} {queue : List ProcId}

theorem Sound.count_range (sound : Sound history memory queue) :
    0 ≤ memory.count ∧ memory.count ≤ 64 := by
  have length := sound.length_le
  rw [sound.holds.count]
  omega

theorem nextPeriod_large (sound : Sound history memory queue)
    (large : memory.count > latency / min_granularity) :
    nextPeriod memory = memory.count * min_granularity := by
  have range := sound.count_range
  rw [nextPeriod, if_pos large]
  unfold min_granularity
  exact int32_of_range (by omega) (by omega)

/-- A retrieval stores the period it uses; on an empty tree it stores nothing. -/
theorem retrieve_period (sound : Sound history memory queue) {found : Option ProcId}
    (retrieved : retrieveProcess memory = some (memory', found)) :
    memory'.period = nextPeriod memory := by
  cases queue with
  | nil =>
      rw [retrieveProcess_empty sound.holds] at retrieved
      cases retrieved
      have small : ¬ memory.count > latency / min_granularity := by
        rw [sound.holds.count]
        decide
      rw [nextPeriod, if_neg small]
  | cons p queue =>
      obtain ⟨after, retrieved', _, _, _, period, _⟩ :=
        retrieveProcess_spec sound.holds (sound.runnable p (by simp))
      rw [retrieved] at retrieved'
      cases retrieved'
      exact period

/-- The stored period is `latency` until a call meets a large tree, and longer
ever after. -/
def PeriodBy (history : List Entry) (period : Int) : Prop :=
  (¬ Stretched history ∧ period = latency) ∨
    (Stretched history ∧ latency < period ∧ period ≤ 128)

theorem PeriodBy.skip {period : Int} {entry : Entry} (periodBy : PeriodBy history period)
    (skipped : entry.call ≠ .retrieve ∨ ¬ entry.before.count > latency / min_granularity) :
    PeriodBy (entry :: history) period := by
  have same : Stretched (entry :: history) ↔ Stretched history := by
    unfold Stretched
    rw [List.exists_mem_cons_iff]
    constructor
    · rintro (⟨isRetrieve, large⟩ | earlier)
      · rcases skipped with other | small
        · exact absurd isRetrieve other
        · exact absurd large small
      · exact earlier
    · exact Or.inr
  rwa [PeriodBy, same]

theorem Run.periodBy (run : Run history memory) : PeriodBy history memory.period := by
  induction run with
  | rbinit memory =>
      refine .inl ⟨?_, rfl⟩
      rintro ⟨entry, member, _⟩
      cases member
  | elapse run undisturbed ih =>
      rw [undisturbed.period]
      exact ih
  | @call history memory memory' call run allowed performed ih =>
      obtain ⟨queue, sound⟩ := run.sound
      cases call with
      | insert p =>
          obtain ⟨after, inserted, _, _, _, period⟩ := sound.insert allowed
          cases performed.symm.trans inserted
          rw [period]
          exact ih.skip (.inl (by simp))
      | chprio pid priority =>
          cases performed
          rw [chprio_tree]
          exact ih.skip (.inl (by simp))
      | retrieve =>
          obtain ⟨result, retrieved, rfl⟩ := Option.map_eq_some_iff.mp performed
          rw [retrieve_period sound retrieved]
          by_cases large : memory.count > latency / min_granularity
          · have range := sound.count_range
            rw [nextPeriod_large sound large]
            refine .inr ⟨⟨_, List.mem_cons_self, rfl, large⟩, ?_, ?_⟩
            · have above : memory.count > 16 := large
              show (32 : Int) < memory.count * 2
              omega
            · show memory.count * 2 ≤ 128
              omega
          · rw [nextPeriod, if_neg large]
            exact ih.skip (.inr large)

/-- **The period law.** A successful call uses the period its tree size
prescribes exactly when the tree is large or no earlier call met a large one. -/
theorem period_lawful_iff {p : ProcId} (run : Run history memory)
    (retrieved : retrieveProcess memory = some (memory', some p)) :
    memory'.period = periodLaw memory.count ↔
      memory.count > latency / min_granularity ∨ ¬ Stretched history := by
  obtain ⟨queue, sound⟩ := run.sound
  rw [retrieve_period sound retrieved]
  by_cases large : memory.count > latency / min_granularity
  · rw [nextPeriod_large sound large, periodLaw, if_pos large]
    exact iff_of_true rfl (.inl large)
  · rw [nextPeriod, if_neg large, periodLaw, if_neg large]
    rcases run.periodBy with ⟨fresh, initial⟩ | ⟨stretched, longer, _⟩
    · exact iff_of_true initial (.inr fresh)
    · refine iff_of_false (by omega) ?_
      rintro (isLarge | fresh)
      · exact large isLarge
      · exact fresh stretched

theorem period_lawful_iff_two : ∃ history memory memory' p, Run history memory ∧
    retrieveProcess memory = some (memory', some p) ∧
    (memory'.period = periodLaw memory.count ↔
      memory.count > latency / min_granularity ∨ ¬ Stretched history) := by
  obtain ⟨history, memory, run, checked⟩ := Run.exists_of_play readyMemory (insertFirst 2)
    (fun _ memory => memory.found.isSome = true) (by decide +kernel)
  obtain ⟨p, found⟩ := Option.isSome_iff_exists.mp checked
  obtain ⟨⟨memory', _⟩, retrieved, rfl⟩ := Option.bind_eq_some_iff.mp found
  exact ⟨history, memory, memory', p, run, retrieved, period_lawful_iff run retrieved⟩

/-- Seventeen processes are inserted and two retrieved. The second call finds
sixteen, for which the period should be `latency` again; it still uses 34. -/
theorem period_not_reset : ∃ history memory, Run history memory ∧ memory.count = 16 ∧
    memory.found.isSome = true ∧ periodLaw memory.count = 32 ∧
    (retrieveProcess memory).map (fun result => result.1.period) = some 34 :=
  Run.exists_of_play readyMemory (insertFirst 17 ++ [.retrieve])
    (fun _ memory => memory.count = 16 ∧ memory.found.isSome = true ∧
      periodLaw memory.count = 32 ∧
      (retrieveProcess memory).map (fun result => result.1.period) = some 34)
    (by decide +kernel)

end Period

/-! ## The slice -/

section Slice

variable {history : List Entry} {memory memory' : Memory}

theorem timeSlice_bounds {period weightValue rbTreeWeight : Int} (positive : 0 ≤ period)
    (short : period ≤ 128) (weight : 0 < weightValue) (light : weightValue ≤ 819)
    (below : weightValue ≤ rbTreeWeight) :
    0 ≤ timeSlice period weightValue rbTreeWeight ∧
      timeSlice period weightValue rbTreeWeight ≤ period := by
  have product : 0 ≤ period * weightValue := Int.mul_nonneg positive weight.le
  have product_le : period * weightValue ≤ 128 * 819 :=
    Int.mul_le_mul short light weight.le (by decide)
  have exactProduct : int32 (period * weightValue) = period * weightValue :=
    int32_of_range (by omega) (by omega)
  have quotient : Int.tdiv (period * weightValue) rbTreeWeight =
      period * weightValue / rbTreeWeight := Int.tdiv_eq_ediv_of_nonneg product
  have low : 0 ≤ period * weightValue / rbTreeWeight :=
    Int.ediv_nonneg product (by omega)
  have high : period * weightValue / rbTreeWeight ≤ period := by
    have scaled : period * weightValue ≤ period * rbTreeWeight :=
      Int.mul_le_mul_of_nonneg_left below positive
    calc period * weightValue / rbTreeWeight ≤ period * rbTreeWeight / rbTreeWeight :=
          Int.ediv_le_ediv (by omega) scaled
      _ = period := Int.mul_ediv_cancel period (by omega)
  rw [timeSlice, divw, if_neg (by omega), exactProduct, quotient,
    int32_of_range (by omega) (by omega)]
  exact ⟨low, high⟩

/-- **Total weight.** Along a run `rbTreeWeight` is the total weight of the tree
in every state exactly when every `chprio` leaves the weight of a queued process
as it was. On such a run the divisor of a retrieval is positive and the slice lies
between 0 and the period. -/
theorem total_weight_iff (run : Run history memory) :
    (EveryState Memory.WeightExact history memory ↔ ∀ entry ∈ history, entry.Neutral) ∧
      ((∀ entry ∈ history, entry.Neutral) →
        ∀ memory' p, retrieveProcess memory = some (memory', some p) →
          0 < memory.rbTreeWeight ∧ 0 ≤ (memory'.proc p).maximumExecutiontime ∧
            (memory'.proc p).maximumExecutiontime ≤ memory'.period) := by
  refine ⟨everyState_weightExact run, fun neutral memory' p retrieved => ?_⟩
  obtain ⟨queue, sound⟩ := run.sound
  have exact : memory.WeightExact := ((everyState_weightExact run).mpr neutral).2
  cases queue with
  | nil =>
      rw [retrieveProcess_empty sound.holds] at retrieved
      cases retrieved
  | cons q queue =>
      obtain ⟨after, retrieved', holds, procs, _, period, _⟩ :=
        retrieveProcess_spec sound.holds (sound.runnable q (by simp))
      cases retrieved.symm.trans retrieved'
      have here := sound.weight p (by simp)
      have rest := sum_weight_bounds fun r member => sound.weight r
        (List.mem_cons_of_mem p member)
      have total := sound.queuedWeight_eq
      rw [List.map_cons, List.sum_cons, ← exact] at total
      have periodRange : 0 ≤ memory'.period ∧ memory'.period ≤ 128 := by
        have next := (run.call .retrieve trivial (by
          simp [Call.perform, retrieved] : Call.retrieve.perform memory = some memory')).periodBy
        rcases next with ⟨_, initial⟩ | ⟨_, longer, bound⟩
        · rw [initial]
          decide
        · have positive : (0 : Int) < latency := by decide
          exact ⟨by omega, bound⟩
      have slice := timeSlice_bounds periodRange.1 periodRange.2 here.1 here.2
        (by omega : _ ≤ memory.rbTreeWeight)
      refine ⟨by omega, ?_⟩
      rw [procs, Function.update_self, ← period]
      exact slice

theorem total_weight_iff_two : ∃ history memory, Run history memory ∧
    memory.rbTreeWeight = 819 ∧
    (EveryState Memory.WeightExact history memory ↔ ∀ entry ∈ history, entry.Neutral) := by
  obtain ⟨history, memory, run, weight⟩ := Run.exists_of_play readyMemory
    (insertFirst 2 ++ [.retrieve]) (fun _ memory => memory.rbTreeWeight = 819)
    (by decide +kernel)
  exact ⟨history, memory, run, weight, (total_weight_iff run).1⟩

/-- The process with pid 1 is queued at nice value 30 and then moved to 0 by
`chprio`. The total stays 1 while the tree weighs 819, and the next retrieval
computes a slice of 26208 ticks for a period of 32. -/
theorem chprio_breaks_total : ∃ history memory, Run history memory ∧
    memory.rbTreeWeight = 1 ∧ memory.queuedWeight = 819 ∧
    (retrieveProcess memory).map (fun result =>
      (result.2.map fun p => (result.1.proc p).maximumExecutiontime, result.1.period)) =
      some (some 26208, 32) :=
  Run.exists_of_play readyMemory ([.chprio 1 30] ++ insertFirst 1 ++ [.chprio 1 0])
    (fun _ memory => memory.rbTreeWeight = 1 ∧ memory.queuedWeight = 819 ∧
      (retrieveProcess memory).map (fun result =>
        (result.2.map fun p => (result.1.proc p).maximumExecutiontime, result.1.period)) =
        some (some 26208, 32))
    (by decide +kernel)

end Slice

end Xv6.Cfs
