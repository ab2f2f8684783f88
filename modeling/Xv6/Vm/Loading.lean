import Xv6.Vm.Supervisor

/-!
Contract: `exec` exchanges the address space of a process for a new one, or leaves it.

Owns: the specifications of `copyout`, `uvmclear`, `loadseg`, `exec` and `sys_exec`. Each
of them completes from the address space of a process, for every file, every list of
arguments and every point at which the memory is used up.
-/

namespace Xv6.Vm

open Xv6.Format
open Xv6.Kernel
open Xv6.Pools
open Xv6.Radix
open Function

variable {layout : Layout} {m m' m₁ : Memory} {pagetable trapframe : Addr} {n sz page n' : Nat}
  {top : Nat → Option Pte}

/-! ## Pages the user may write -/

/-- The supervisor's mappings are not for the user. -/
def NotForUser (top : Nat → Option Pte) : Prop :=
  ∀ page pte, top page = some pte → pte &&& PTE_U = 0

theorem supervisor_notForUser (layout : Layout) (trapframe : Addr) :
    NotForUser (supervisor layout trapframe) := by
  have noUser : ∀ pa perm, perm.toNat < 2 ^ 10 → (perm ||| PTE_V) &&& PTE_U = 0 →
      (PA2PTE pa ||| perm ||| PTE_V) &&& PTE_U = 0 := by
    intro pa perm small isZero
    rw [and_flag rfl, PTE_FLAGS_entry pa small, isZero]
  intro page pte isEntry
  rw [supervisor, update_apply, update_apply] at isEntry
  split at isEntry
  · cases isEntry
    exact noUser trapframe _ (by decide) (by decide)
  · split at isEntry
    · cases isEntry
      exact noUser layout.trampoline _ (by decide) (by decide)
    · cases isEntry

/-- The pages of the user are written, and nothing else. -/
theorem Space.written (space : Space m pagetable top n)
    (owned : Owned layout m (spacePages m pagetable n))
    (moved : Transfer m m' (leafPages (entries m pagetable) 0 n)
      (leafPages (entries m pagetable) 0 n)) :
    entries m' pagetable = entries m pagetable ∧ Reshaped m m' pagetable top n n := by
  obtain ⟨sameNodes, sameEntries, keepsLinks⟩ := table_frame owned moved
  refine ⟨sameEntries, ?_, space.of_entries (keepsLinks space.linked) sameEntries⟩
  refine moved.widen rfl ?_
  rw [spacePages, sameNodes, sameEntries]

theorem Space.walkaddr (space : Space m pagetable top n) (notForUser : NotForUser top) (va : Nat) :
    ∃ pa, walkaddr m pagetable va = .ok pa ∧
      (pa = 0 ∨ pa ∈ leafPages (entries m pagetable) 0 n) := by
  by_cases inSpace : va < MAXVA
  · refine ⟨_, walkaddr_spec m pagetable inSpace, ?_⟩
    cases isEntry : entries m pagetable (va / PGSIZE) with
    | none => exact .inl rfl
    | some pte =>
        dsimp only
        by_cases noUser : pte &&& PTE_U = 0
        · exact .inl (if_pos noUser)
        · rw [if_neg noUser]
          refine .inr (mem_leafPages ?_ isEntry)
          by_contra isAbove
          rw [space.above _ (Nat.le_of_not_lt isAbove)] at isEntry
          exact noUser (notForUser _ pte isEntry)
  · exact ⟨0, if_pos (Nat.le_of_not_lt inSpace), .inl rfl⟩

theorem copyoutLoop_spec (rounds : Nat) (space : Space m pagetable top n)
    (owned : Owned layout m (spacePages m pagetable n)) (notForUser : NotForUser top)
    (dstva : Nat) (src : Bytes) (len : Nat) :
    ∃ ok m', copyoutLoop pagetable rounds m dstva src len = .ok (ok, m') ∧
      Transfer m m' (leafPages (entries m pagetable) 0 n)
        (leafPages (entries m pagetable) 0 n) := by
  induction rounds generalizing m dstva src len with
  | zero => exact ⟨true, m, rfl, .refl _ _⟩
  | succ rounds ih =>
      by_cases isDone : len = 0
      · exact ⟨true, m, if_pos isDone, .refl _ _⟩
      · obtain ⟨pa, found, outcome⟩ := space.walkaddr notForUser (PGROUNDDOWN dstva)
        rw [copyoutLoop, if_neg isDone]
        simp only [found]
        by_cases isNull : pa = 0
        · exact ⟨false, m, if_pos isNull, .refl _ _⟩
        · rw [if_neg isNull]
          generalize min (PGSIZE - (dstva - PGROUNDDOWN dstva)) len = count
          have wrote : Transfer m (writePage m pa (dstva - PGROUNDDOWN dstva) src count)
              (leafPages (entries m pagetable) 0 n) (leafPages (entries m pagetable) 0 n) :=
            Transfer.write m (outcome.resolve_left isNull) _
          obtain ⟨sameEntries, next⟩ := space.written owned wrote
          obtain ⟨ok, m', ran, moved⟩ := ih next.space
            (owned.moved next.transfer) ((PGROUNDDOWN dstva + PGSIZE) % 2 ^ 64)
            (fun i => src (count + i))
            (len - count)
          rw [sameEntries] at moved
          exact ⟨ok, m', ran, wrote.trans moved⟩

theorem copyout_spec (space : Space m pagetable top n)
    (owned : Owned layout m (spacePages m pagetable n)) (notForUser : NotForUser top)
    (dstva : Nat) (src : Bytes) (len : Nat) :
    ∃ ok m', copyout m pagetable dstva src len = .ok (ok, m') ∧
      Reshaped m m' pagetable top n n := by
  obtain ⟨ok, m', ran, moved⟩ := copyoutLoop_spec len space owned notForUser dstva src len
  exact ⟨ok, m', ran, (space.written owned moved).2⟩

/-! ## uvmclear -/

theorem user_iff (pte : Pte) : pte &&& PTE_U ≠ 0 ↔ pte.getLsbD 4 = true := by
  have isBit : PTE_U = BitVec.twoPow 64 4 := by decide
  rw [isBit, BitVec.and_twoPow]
  cases pte.getLsbD 4 <;> decide

theorem PTE2PA_clear (pte : Pte) : PTE2PA (pte &&& ~~~PTE_U) = PTE2PA pte := by
  apply BitVec.eq_of_getLsbD_eq
  intro i inside
  have isBit : PTE_U = BitVec.twoPow 64 4 := by decide
  simp only [PTE2PA, BitVec.getLsbD_shiftLeft, BitVec.getLsbD_ushiftRight, BitVec.getLsbD_and,
    BitVec.getLsbD_not, isBit, BitVec.getLsbD_twoPow]
  by_cases low : i < 12
  · simp [low]
  · have different : ¬ (4 = 10 + (i - 12)) := by omega
    by_cases inWord : 10 + (i - 12) < 64
    · simp [different, inWord]
    · simp [BitVec.getLsbD_of_ge pte _ (Nat.le_of_not_lt inWord)]

theorem and_clear (pte : Pte) {flag : Pte} (isOther : ~~~PTE_U &&& flag = flag) :
    (pte &&& ~~~PTE_U) &&& flag = pte &&& flag := by
  rw [BitVec.and_assoc, isOther]

theorem uvmclear_spec (space : Space m pagetable top n)
    (owned : Owned layout m (spacePages m pagetable n)) (inside : page < n) :
    ∃ m' pte, uvmclear m pagetable (page * PGSIZE) = .ok m' ∧
      entries m' pagetable =
        update (entries m pagetable) page (some (pte &&& ~~~PTE_U)) ∧
      Reshaped m m' pagetable top n n := by
  have bound := space.le_pages owned
  have inSpace : page < VPAGES := by
    have small : PHYSPAGES ≤ VPAGES := by decide
    omega
  obtain ⟨pte, isEntry, readable⟩ := space.user page inside
  obtain ⟨node, found, walked, isPte, isValid⟩ := walk_mapped inSpace isEntry
  have tree : (tableNodes m pagetable).Nodup :=
    (Multiset.nodup_add.mp (Multiset.nodup_add.mp owned.nodup).2.1).2.1
  have stillValid : IsValid (pte &&& ~~~PTE_U) := by rwa [IsValid, and_clear pte rfl]
  have sameNodes := setPte_nodes tree found (PX 0 (page * PGSIZE)) (pte &&& ~~~PTE_U)
  have isNext := entries_setPte tree found (pte &&& ~~~PTE_U) (page_mul_lt inSpace)
  rw [if_pos stillValid, mul_PGSIZE_div] at isNext
  have samePages : leafPages (entries (setPte m node (PX 0 (page * PGSIZE)) (pte &&& ~~~PTE_U))
      pagetable) 0 n = leafPages (entries m pagetable) 0 n := by
    apply leafPages_congr_pa
    intro p _ _
    rw [isNext, update_apply]
    split
    · rename_i isPage
      rw [isPage, isEntry, Option.map_some, Option.map_some, PTE2PA_clear]
    · rfl
  refine ⟨setPte m node (PX 0 (page * PGSIZE)) (pte &&& ~~~PTE_U), pte, ?_, isNext, ?_,
    Linked.setPte space.linked tree found _ _, fun p inside => ?_, fun p outside => ?_⟩
  · simp only [uvmclear, walked, isPte]
  · rw [spacePages, spacePages, sameNodes, samePages]
    exact Transfer.write m (Multiset.mem_add.mpr (.inr (reach_mem_nodes found))) _
  · rw [isNext, update_apply]
    split
    · exact ⟨_, rfl, by rwa [and_clear pte rfl]⟩
    · exact space.user p inside
  · rw [isNext, update_of_ne (by omega)]
    exact space.above p outside

/-! ## loadseg -/

/-- Every page of the user is accessible to it. -/
def AllUser (m : Memory) (pagetable : Addr) (n : Nat) : Prop :=
  ∀ page, page < n → ∀ pte, entries m pagetable page = some pte → pte &&& PTE_U ≠ 0

theorem AllUser.resized {xperm : Pte} (allUser : AllUser m pagetable n)
    (resized : Resized (ZeroPage xperm) m m' pagetable top n n') : AllUser m' pagetable n' := by
  intro page inside pte isEntry
  by_cases isOld : page < n
  · rw [resized.old page isOld inside] at isEntry
    exact allUser page isOld pte isEntry
  · obtain ⟨_, isNew, isFlags, _⟩ := resized.new page (Nat.le_of_not_lt isOld) inside
    rw [isNew] at isEntry
    cases isEntry
    rw [and_flag rfl, isFlags, user_iff]
    simp [PTE_U]

theorem isPage_ne_zero {a : Addr} (isPage : layout.IsPage a) : a ≠ 0 := by
  rintro rfl
  exact absurd (Nat.le_trans layout.kernbase_le isPage.2.1) (by decide)

theorem Space.walkaddr_ne_zero (space : Space m pagetable top n)
    (owned : Owned layout m (spacePages m pagetable n)) (allUser : AllUser m pagetable n)
    (inside : page < n) :
    ∃ pa, Vm.walkaddr m pagetable (page * PGSIZE) = .ok pa ∧ pa ≠ 0 ∧
      pa ∈ leafPages (entries m pagetable) 0 n := by
  have bound := space.le_pages owned
  have inSpace : page < VPAGES := by
    have small : PHYSPAGES ≤ VPAGES := by decide
    omega
  obtain ⟨pte, isEntry, -⟩ := space.user page inside
  have isMember := mem_leafPages inside isEntry
  have isPage := owned.pages _ (Multiset.mem_add.mpr (.inr (Multiset.mem_add.mpr (.inl isMember))))
  refine ⟨PTE2PA pte, ?_, isPage_ne_zero isPage, isMember⟩
  rw [walkaddr_spec m pagetable (page_mul_lt inSpace), mul_PGSIZE_div, isEntry]
  simp only [if_neg (allUser page inside pte isEntry)]

/-- **`loadseg`** into mapped pages writes them, and does not panic. -/
theorem loadsegLoop_spec (rounds : Nat) (space : Space m pagetable top n)
    (owned : Owned layout m (spacePages m pagetable n)) (allUser : AllUser m pagetable n)
    {first k : Nat} (inside : first + k + rounds ≤ n) (read : Reader) (offset sz : Nat) :
    ∃ ok m', loadsegLoop pagetable (first * PGSIZE) read offset sz rounds m (k * PGSIZE) =
        .ok (ok, m') ∧
      Transfer m m' (leafPages (entries m pagetable) 0 n)
        (leafPages (entries m pagetable) 0 n) := by
  induction rounds generalizing m k with
  | zero => exact ⟨true, m, rfl, .refl _ _⟩
  | succ rounds ih =>
      have insideNow : first + k < n := by omega
      obtain ⟨pa, found, notNull, isMember⟩ := space.walkaddr_ne_zero owned allUser insideNow
      rw [Nat.add_mul] at found
      simp only [loadsegLoop, found, if_neg notNull]
      generalize (if sz - k * PGSIZE < PGSIZE then sz - k * PGSIZE else PGSIZE) = count
      generalize read ((offset + k * PGSIZE) % 2 ^ 32) count = answer
      have wrote : Transfer m (writePage m pa 0 answer.1 (min answer.2 count))
          (leafPages (entries m pagetable) 0 n) (leafPages (entries m pagetable) 0 n) :=
        Transfer.write m isMember _
      by_cases isShort : answer.2 ≠ count
      · exact ⟨false, _, if_pos isShort, wrote⟩
      · obtain ⟨sameEntries, next⟩ := space.written owned wrote
        obtain ⟨ok, m', ran, moved⟩ := ih next.space
          (owned.moved next.transfer) (fun page below pte isEntry =>
            allUser page below pte (sameEntries ▸ isEntry)) (k := k + 1) (by omega)
        rw [sameEntries] at moved
        refine ⟨ok, m', ?_, wrote.trans moved⟩
        rw [if_neg isShort, ← Nat.succ_mul]
        exact ran

theorem loadseg_spec (space : Space m pagetable top n)
    (owned : Owned layout m (spacePages m pagetable n)) (allUser : AllUser m pagetable n)
    {va : Nat} (aligned : va % PGSIZE = 0) (read : Reader) (offset : BitVec 64) {sz : BitVec 64}
    (inside : va + sz.toNat ≤ n * PGSIZE) :
    ∃ ok m', loadseg m pagetable va read offset sz = .ok (ok, m') ∧
      entries m' pagetable = entries m pagetable ∧ Reshaped m m' pagetable top n n := by
  obtain ⟨first, rfl⟩ : ∃ first, va = first * PGSIZE :=
    ⟨va / PGSIZE, (Nat.div_mul_cancel (Nat.dvd_of_mod_eq_zero aligned)).symm⟩
  have rounds : first + 0 + (sz.toNat % 2 ^ 32 + PGSIZE - 1) / PGSIZE ≤ n := by
    have smaller := Nat.mod_le sz.toNat (2 ^ 32)
    unfold PGSIZE at *
    omega
  obtain ⟨ok, m', ran, moved⟩ := loadsegLoop_spec _ space owned allUser rounds read
    (offset.toNat % 2 ^ 32) (sz.toNat % 2 ^ 32)
  rw [Nat.zero_mul] at ran
  exact ⟨ok, m', ran, space.written owned moved⟩

/-! ## Program headers -/

theorem flags2perm_small (flags : BitVec 32) : (flags2perm flags).toNat < 2 ^ 10 := by
  unfold flags2perm
  split <;> split <;> decide

theorem le_npages (sz : Nat) : sz ≤ npages sz * PGSIZE := by
  unfold npages PGSIZE
  omega

/-- The loop over the program headers leaves an address space of the size it returns. -/
theorem loadLoop_spec (count : Nat) (space : Space m pagetable top (npages sz))
    (owned : Owned layout m (spacePages m pagetable (npages sz))) (clear : Clear top)
    (allUser : AllUser m pagetable (npages sz)) (read : Reader) (off : Nat) :
    ∃ ok sz' m', loadLoop layout pagetable read count off m sz = .ok (ok, sz', m') ∧
      Reshaped m m' pagetable top (npages sz) (npages sz') := by
  induction count generalizing m sz off with
  | zero => exact ⟨true, sz, m, rfl, space.unchanged⟩
  | succ count ih =>
      rw [loadLoop]
      generalize read off ProgHdr.size = answer
      obtain ⟨bytes, r⟩ := answer
      dsimp only
      generalize ProgHdr.decode bytes = ph
      by_cases isShort : r ≠ ProgHdr.size
      · exact ⟨false, sz, m, if_pos isShort, space.unchanged⟩
      rw [if_neg isShort]
      by_cases isOther : ph.type ≠ ELF_PROG_LOAD
      · rw [if_pos isOther]
        exact ih space owned allUser _
      rw [if_neg isOther]
      by_cases isBad : ph.memsz < ph.filesz
      · exact ⟨false, sz, m, if_pos isBad, space.unchanged⟩
      rw [if_neg isBad]
      by_cases wraps : ph.vaddr + ph.memsz < ph.vaddr
      · exact ⟨false, sz, m, if_pos wraps, space.unchanged⟩
      rw [if_neg wraps]
      by_cases unaligned : ph.vaddr.toNat % PGSIZE ≠ 0
      · exact ⟨false, sz, m, if_pos unaligned, space.unchanged⟩
      rw [if_neg unaligned]
      obtain ⟨size, m₁, ran, outcome⟩ := uvmalloc_spec (ph.vaddr + ph.memsz).toNat
        (flags2perm_small ph.flags) space owned clear
      simp only [ran]
      by_cases isZero : size = 0
      · refine ⟨false, sz, m₁, if_pos isZero, ?_⟩
        rcases outcome with ⟨isMax, grown⟩ | ⟨-, kept⟩
        · have same : max sz (ph.vaddr + ph.memsz).toNat = sz := by omega
          rw [same] at grown
          exact grown.toReshaped
        · exact kept.toReshaped
      · rw [if_neg isZero]
        obtain ⟨isMax, grown⟩ := outcome.resolve_right fun failed => isZero failed.1
        rw [← isMax] at grown
        have owned₁ := owned.moved grown.transfer
        have inside : ph.vaddr.toNat + ph.filesz.toNat ≤ npages size * PGSIZE := by
          have covers := le_npages size
          have fits : ph.vaddr.toNat + ph.memsz.toNat = (ph.vaddr + ph.memsz).toNat := by bv_omega
          have smaller : ph.filesz.toNat ≤ ph.memsz.toNat := by bv_omega
          omega
        obtain ⟨ok, m₂, ran₂, sameEntries, loaded⟩ := loadseg_spec grown.space owned₁
          (allUser.resized grown) (not_not.mp unaligned) read ph.off inside
        simp only [ran₂]
        have sofar := grown.toReshaped.trans loaded
        cases ok with
        | false => exact ⟨false, size, m₂, rfl, sofar⟩
        | true =>
            have allUser₂ : AllUser m₂ pagetable (npages size) := fun page below pte isEntry =>
              allUser.resized grown page below pte (sameEntries ▸ isEntry)
            obtain ⟨ok, sz', m', ran', rest⟩ := ih loaded.space
              (owned.moved sofar.transfer) allUser₂ ((off + ProgHdr.size) % 2 ^ 32)
            exact ⟨ok, sz', m', ran', sofar.trans rest⟩

/-! ## Arguments -/

theorem pushStrings_spec (space : Space m pagetable top n)
    (owned : Owned layout m (spacePages m pagetable n)) (notForUser : NotForUser top)
    (stackbase : BitVec 64) (argv : List (List Byte)) (ustack : List (BitVec 64))
    (sp : BitVec 64) :
    ∃ result m', pushStrings pagetable stackbase argv ustack m sp = .ok (result, m') ∧
      Reshaped m m' pagetable top n n := by
  induction argv generalizing m ustack sp with
  | nil => exact ⟨_, m, rfl, space.unchanged⟩
  | cons arg argv ih =>
      rw [pushStrings]
      by_cases tooMany : ustack.length ≥ MAXARG
      · exact ⟨none, m, if_pos tooMany, space.unchanged⟩
      rw [if_neg tooMany]
      dsimp only
      generalize sp - BitVec.ofNat 64 (arg.length + 1) = sp₁
      by_cases overflows : sp₁ - sp₁ % 16 < stackbase
      · exact ⟨none, m, if_pos overflows, space.unchanged⟩
      rw [if_neg overflows]
      obtain ⟨ok, m₁, ran, pushed⟩ := copyout_spec space owned notForUser (sp₁ - sp₁ % 16).toNat
        (cstring arg) (arg.length + 1)
      simp only [ran]
      cases ok with
      | false => exact ⟨none, m₁, rfl, pushed⟩
      | true =>
          obtain ⟨result, m', ran', rest⟩ := ih pushed.space
            (owned.moved pushed.transfer) (ustack ++ [sp₁ - sp₁ % 16]) (sp₁ - sp₁ % 16)
          exact ⟨result, m', ran', pushed.trans rest⟩

theorem pushArgs_spec (space : Space m pagetable top n)
    (owned : Owned layout m (spacePages m pagetable n)) (notForUser : NotForUser top) (sz : Nat)
    (argv : List (List Byte)) :
    ∃ result m', pushArgs m pagetable sz argv = .ok (result, m') ∧
      Reshaped m m' pagetable top n n := by
  obtain ⟨pushed, m₁, ran, first⟩ := pushStrings_spec space owned notForUser
    (BitVec.ofNat 64 sz - BitVec.ofNat 64 PGSIZE) argv [] (BitVec.ofNat 64 sz)
  rw [pushArgs]
  simp only [ran]
  cases pushed with
  | none => exact ⟨none, m₁, rfl, first⟩
  | some stack =>
      dsimp only
      generalize stack.1 - BitVec.ofNat 64 ((argv.length + 1) * 8) = sp
      by_cases overflows : sp - sp % 16 < BitVec.ofNat 64 sz - BitVec.ofNat 64 PGSIZE
      · exact ⟨none, m₁, if_pos overflows, first⟩
      · obtain ⟨ok, m', ran', last⟩ := copyout_spec first.space (owned.moved first.transfer)
          notForUser (sp - sp % 16).toNat (wordBytes (stack.2 ++ [0])) ((argv.length + 1) * 8)
        rw [if_neg overflows, ran']
        exact ⟨_, m', rfl, first.trans last⟩

/-! ## exec -/

abbrev userPages (m : Memory) (p : UserMemory) : Multiset Addr :=
  {p.trapframe} + spacePages m p.pagetable (npages p.sz)

theorem userPages_eq (m : Memory) (p : UserMemory) (isSize : npages p.sz = n) :
    userPages m p = spacePages m p.pagetable n + {p.trapframe} := by
  rw [userPages, isSize, add_comm]

abbrev HasSpace (layout : Layout) (m : Memory) (p : UserMemory) : Prop :=
  Space m p.pagetable (supervisor layout p.trapframe) (npages p.sz)

/-- The process keeps its trapframe and has an address space, perhaps a new one. -/
structure Execed (layout : Layout) (m m' : Memory) (p p' : UserMemory) : Prop where
  sameTrapframe : p'.trapframe = p.trapframe
  transfer : Transfer m m' (userPages m p) (userPages m' p')
  space : HasSpace layout m' p'

variable {p : UserMemory}

/-- Pages that were free are taken beside those of the process. -/
theorem HasSpace.beside {back : Multiset Addr} (space : HasSpace layout m p)
    (owned : Owned layout m (userPages m p)) (moved : Transfer m m₁ 0 back) :
    HasSpace layout m₁ p ∧ userPages m₁ p = userPages m p ∧
      Owned layout m₁ (back + userPages m₁ p) := by
  have withNothing : Owned layout m (0 + userPages m p) := by rwa [zero_add]
  have part : (0 : Multiset Addr) + spacePages m p.pagetable (npages p.sz) ≤ 0 + userPages m p := by
    rw [zero_add, zero_add]
    exact Multiset.le_add_left ..
  obtain ⟨space₁, samePages, -⟩ := Space.frame space (withNothing.mono part) moved
  have same : userPages m₁ p = userPages m p := by rw [userPages, samePages]
  exact ⟨space₁, same, same ▸ withNothing.transfer moved⟩

theorem Execed.failed (space : HasSpace layout m p) (owned : Owned layout m (userPages m p))
    (moved : Transfer m m' 0 0) : Execed layout m m' p p := by
  obtain ⟨space', same, -⟩ := HasSpace.beside space owned moved
  exact ⟨rfl, moved.widen (zero_add _).symm (by rw [zero_add, same]), space'⟩

/-- What `exec` with `argc` arguments returns: -1, with all pages where they were, or `argc`, with
a page table that was free and the old address space given back. -/
inductive Outcome (layout : Layout) (m m' : Memory) (p : UserMemory) (argc : Nat) :
    Int → UserMemory → Prop
  | failed (released : Transfer m m' 0 0) : Outcome layout m m' p argc (-1) p
  | switched {pagetable : Addr} {sz : Nat}
      (moved : Transfer m m' (userPages m p) (userPages m' { p with pagetable, sz }))
      (space : HasSpace layout m' { p with pagetable, sz }) (isNew : pagetable ∈ m.free)
      (freed : spacePages m p.pagetable (npages p.sz) ≤ m'.free) :
      Outcome layout m m' p argc argc { p with pagetable, sz }

theorem Outcome.execed {argc : Nat} {ret : Int} {p' : UserMemory} (space : HasSpace layout m p)
    (owned : Owned layout m (userPages m p)) (outcome : Outcome layout m m' p argc ret p') :
    Execed layout m m' p p' := by
  cases outcome with
  | failed released => exact .failed space owned released
  | switched moved space' isNew freed => exact ⟨rfl, moved, space'⟩

/-- `exec` before the commit: a new address space, of which all pages were free. -/
structure Prepared (layout : Layout) (m m₁ : Memory) (trapframe pagetable : Addr) (n : Nat) :
    Prop where
  transfer : Transfer m m₁ 0 (spacePages m₁ pagetable n)
  space : Space m₁ pagetable (supervisor layout trapframe) n

theorem Prepared.reshape (prepared : Prepared layout m m₁ trapframe pagetable n)
    (reshaped : Reshaped m₁ m' pagetable (supervisor layout trapframe) n n') :
    Prepared layout m m' trapframe pagetable n' :=
  ⟨prepared.transfer.trans reshaped.transfer, reshaped.space⟩

theorem execBad_spec (owned : Owned layout m 0)
    (prepared : Prepared layout m m₁ p.trapframe pagetable (npages sz)) :
    ∃ m', execBad layout m₁ p pagetable sz = .ok (-1, p, m') ∧ Transfer m m' 0 0 := by
  obtain ⟨m', ran, released⟩ :=
    procFreepagetable_spec prepared.space (owned.moved prepared.transfer)
  refine ⟨m', ?_, prepared.transfer.trans released⟩
  rw [execBad, ran]
  rfl

theorem setPte_transfer (m : Memory) (a : Addr) (i : Fin 512) (word : BitVec 64) :
    Transfer m (setPte m a i word) {a} {a} :=
  Transfer.write m (Multiset.mem_singleton_self a) _

/-- The commit keeps what the new pages hold, and the trapframe has the registers with which the
program starts. -/
structure Committed (m₁ m' : Memory) (trapframe pagetable : Addr) (n : Nat)
    (entry sp : BitVec 64) : Prop where
  entries : entries m' pagetable = entries m₁ pagetable
  kept : Kept m₁ m' pagetable n
  epc : m'.store trapframe epcWord = entry
  stack : m'.store trapframe spWord = sp
  a1 : m'.store trapframe a1Word = sp

theorem execCommit_spec (space : HasSpace layout m p) (owned : Owned layout m (userPages m p))
    (prepared : Prepared layout m m₁ p.trapframe pagetable (npages sz)) (argc : Nat)
    (entry sp : BitVec 64) :
    ∃ m', execCommit layout m₁ p pagetable sz argc entry sp =
        .ok (argc, { p with pagetable, sz }, m') ∧
      Outcome layout m m' p argc argc { p with pagetable, sz } ∧
      Committed m₁ m' p.trapframe pagetable (npages sz) entry sp := by
  obtain ⟨space₁, same, owned₁⟩ := HasSpace.beside space owned prepared.transfer
  -- The registers are written to the trapframe.
  generalize isSaved : setPte (setPte (setPte m₁ p.trapframe a1Word sp) p.trapframe epcWord entry)
    p.trapframe spWord sp = m₂
  have saved : Transfer m₁ m₂ {p.trapframe} {p.trapframe} := by
    rw [← isSaved]
    exact ((setPte_transfer m₁ _ _ _).trans (setPte_transfer ..)).trans (setPte_transfer ..)
  have partNew : {p.trapframe} + spacePages m₁ pagetable (npages sz) ≤
      spacePages m₁ pagetable (npages sz) + userPages m₁ p := by
    rw [add_comm]
    gcongr
    exact Multiset.le_add_right ..
  obtain ⟨space₂, sameNew, sameEntries₂⟩ := prepared.space.frame (owned₁.mono partNew) saved
  obtain ⟨old₂, sameOld, -⟩ := space₁.frame (owned₁.mono (Multiset.le_add_left ..)) saved
  have moved₂ : Transfer m₁ m₂ (spacePages m₁ pagetable (npages sz) + userPages m₁ p)
      (spacePages m₂ p.pagetable (npages p.sz) +
        ({p.trapframe} + spacePages m₂ pagetable (npages sz))) := by
    rw [sameNew, sameOld]
    exact (saved.add (spacePages m₁ pagetable (npages sz) +
      spacePages m₁ p.pagetable (npages p.sz))).congr (by rw [userPages]; abel) (by abel)
  have owned₂ := owned₁.moved moved₂
  -- The old address space is given back.
  obtain ⟨m', ran, released⟩ :=
    procFreepagetable_spec old₂ (owned₂.mono (Multiset.le_add_right ..))
  have partNew₂ : spacePages m₂ p.pagetable (npages p.sz) + spacePages m₂ pagetable (npages sz) ≤
      spacePages m₂ p.pagetable (npages p.sz) +
        ({p.trapframe} + spacePages m₂ pagetable (npages sz)) := by
    gcongr
    exact Multiset.le_add_left ..
  obtain ⟨space', sameNew', sameEntries'⟩ := space₂.frame (owned₂.mono partNew₂) released
  have committed : Committed m₁ m' p.trapframe pagetable (npages sz) entry sp := by
    have sameFrame : m'.store p.trapframe = m₂.store p.trapframe := owned₂.untouched released
      (Multiset.mem_add.mpr (.inl (Multiset.mem_singleton_self _)))
    have leaves : ∀ (m : Memory) (given : Multiset Addr),
        given + leafPages (entries m pagetable) 0 (npages sz) ≤
          given + spacePages m pagetable (npages sz) := fun _ _ => by
      gcongr
      exact Multiset.le_add_right ..
    have kept₂ := (owned₁.mono ((leaves _ _).trans partNew)).kept saved
    have kept' := (owned₂.mono ((leaves _ _).trans partNew₂)).kept released
    refine ⟨sameEntries'.trans sameEntries₂, kept₂.trans kept' (Nat.le_refl _) fun page _ => ?_,
      ?_, ?_, ?_⟩
    · rw [sameEntries₂]
    all_goals
      rw [sameFrame, ← isSaved, store_setPte, store_setPte, store_setPte]
      simp [epcWord, spWord, a1Word]
  have isNew : pagetable ∈ m.free := by
    have conserved := prepared.transfer.conserved
    rw [add_zero] at conserved
    have isPage : pagetable ∈ (m₁.free : Multiset Addr) + spacePages m₁ pagetable (npages sz) :=
      Multiset.mem_add.mpr (.inr (Multiset.mem_add.mpr (.inr (root_mem_nodes ..))))
    rw [conserved] at isPage
    exact isPage
  have freed : spacePages m p.pagetable (npages p.sz) ≤ (m'.free : Multiset Addr) := by
    have conserved := released.conserved
    have sameOld' : spacePages m₁ p.pagetable (npages p.sz) =
        spacePages m p.pagetable (npages p.sz) := by
      rwa [userPages, userPages, add_right_inj] at same
    rw [add_zero, sameOld, sameOld'] at conserved
    rw [conserved]
    exact Multiset.le_add_left ..
  refine ⟨m', ?_, .switched ?_ space' isNew freed, committed⟩
  · simp only [execCommit, isSaved, ran]
    rfl
  · have taken := (prepared.transfer.add (userPages m p)).congr (zero_add _).symm rfl
    rw [← same] at taken ⊢
    refine (taken.trans moved₂).trans ((released.add _).congr rfl ?_)
    rw [zero_add, userPages, sameNew']

/-- The last two pages are a guard, which the user may not access, and the stack. -/
structure Guarded (m : Memory) (pagetable : Addr) (n : Nat) : Prop where
  guard : ∃ pte, entries m pagetable n = some pte ∧ pte &&& PTE_U = 0
  stack : ∃ pte, entries m pagetable (n + 1) = some pte ∧ pte &&& PTE_U ≠ 0

def execArgs (layout : Layout) (m : Memory) (p : UserMemory) (pagetable : Addr) (sz : Nat)
    (entry : BitVec 64) (argv : List (List Byte)) : Except Panic (Int × UserMemory × Memory) :=
  match pushArgs m pagetable sz argv with
  | .error panic => .error panic
  | .ok (none, m) => execBad layout m p pagetable sz
  | .ok (some sp, m) => execCommit layout m p pagetable sz argv.length entry sp

/-- Whether there are pages for the guard and the stack. -/
def hasStack (layout : Layout) (m : Memory) (pagetable : Addr) (sz : Nat) : Bool :=
  match uvmalloc layout m pagetable (PGROUNDUP sz) (PGROUNDUP sz + 2 * PGSIZE) PTE_W with
  | .ok (size, _) => size ≠ 0
  | .error _ => false

/-- Whether what `exec` does before the arguments succeeds: there is a file with the header of a
program, its segments can be loaded into a new page table, and there are pages for the stack. -/
def loadable (layout : Layout) (m : Memory) (p : UserMemory) : Option Reader → Bool
  | none => false
  | some read =>
      let (bytes, r) := read 0 ElfHdr.size
      let elf := ElfHdr.decode bytes
      if r ≠ ElfHdr.size then
        false
      else if elf.magic ≠ ELF_MAGIC then
        false
      else
        match procPagetable layout m p.trapframe with
        | .ok (some pagetable, m) =>
            match loadLoop layout pagetable read elf.phnum.toNat (elf.phoff.toNat % 2 ^ 32) m 0 with
            | .ok (true, sz, m) => hasStack layout m pagetable sz
            | _ => false
        | _ => false

/-- What has happened before the arguments: `exec` has failed whatever they are, or it has a new
address space for them. -/
inductive Staged (layout : Layout) (m : Memory) (p : UserMemory) (loads : Bool)
    (run : List (List Byte) → Except Panic (Int × UserMemory × Memory)) : Prop
  | failed {m' : Memory} (fails : loads = false) (ran : ∀ argv, run argv = .ok (-1, p, m'))
      (released : Transfer m m' 0 0)
  | ready {m₁ : Memory} {pagetable : Addr} {n : Nat} (loaded : loads = true) (entry : BitVec 64)
      (prepared : Prepared layout m m₁ p.trapframe pagetable (n + 2))
      (guarded : Guarded m₁ pagetable n)
      (ran : ∀ argv, run argv = execArgs layout m₁ p pagetable ((n + 2) * PGSIZE) entry argv)

theorem execStack_staged (free : Owned layout m 0)
    (prepared : Prepared layout m m₁ p.trapframe pagetable (npages sz)) (entry : BitVec 64) :
    Staged layout m p (hasStack layout m₁ pagetable sz)
      (execStack layout m₁ p pagetable sz entry) := by
  have rounded : npages (PGROUNDUP sz) = npages sz := by rw [PGROUNDUP_eq, npages_mul]
  rw [← rounded] at prepared
  have small : PTE_W.toNat < 2 ^ 10 := by decide
  have isEnd : PGROUNDUP sz + 2 * PGSIZE = (npages sz + 2) * PGSIZE := by
    rw [PGROUNDUP_eq, ← Nat.add_mul]
  obtain ⟨size, m₂, ran, outcome⟩ := uvmalloc_spec (PGROUNDUP sz + 2 * PGSIZE) small
    prepared.space (free.moved prepared.transfer) (supervisor_clear layout p.trapframe)
  rw [Nat.max_eq_right (Nat.le_add_right ..)] at outcome
  rcases outcome with ⟨isSize, grown⟩ | ⟨isZero, kept⟩
  · rw [isEnd] at isSize grown
    rw [npages_mul, rounded] at grown
    have notZero : size ≠ 0 := by
      rw [isSize]
      unfold PGSIZE
      omega
    have guardPage : size - 2 * PGSIZE = npages sz * PGSIZE := by
      rw [isSize, Nat.add_mul, Nat.add_sub_cancel]
    rw [rounded] at prepared
    have stacked := prepared.reshape grown.toReshaped
    obtain ⟨m₃, pte, ran₃, isNext, cleared⟩ :=
      uvmclear_spec stacked.space (free.moved stacked.transfer)
        (Nat.lt_add_of_pos_right (by decide))
    refine .ready ?_ entry (stacked.reshape cleared) ⟨?_, ?_⟩ fun argv => ?_
    · simp [hasStack, ran, notZero]
    · rw [isNext, update_self]
      refine ⟨_, rfl, ?_⟩
      rw [BitVec.and_assoc, BitVec.not_and_self]
      exact BitVec.and_zero
    · obtain ⟨entry, isEntry, isFlags, -⟩ :=
        grown.new (npages sz + 1) (Nat.le_add_right ..) (by omega)
      rw [isNext, update_of_ne (by omega)]
      refine ⟨entry, isEntry, ?_⟩
      rw [and_flag rfl, isFlags, user_iff]
      simp [PTE_U]
    · simp only [execStack, ran, if_neg notZero, guardPage, ran₃]
      rw [isSize]
      rfl
  · obtain ⟨m', ran', released⟩ := execBad_spec free (prepared.reshape kept.toReshaped)
    refine .failed ?_ (fun argv => ?_) released
    · simp [hasStack, ran, isZero]
    · simp only [execStack, ran, if_pos isZero, ran']

theorem exec_staged (free : Owned layout m 0) (file : Option Reader) :
    Staged layout m p (loadable layout m p file) (exec layout m p file) := by
  have nothing : Transfer m m 0 0 := .refl _ _
  cases file with
  | none => exact .failed rfl (fun _ => rfl) nothing
  | some read =>
      have isRun : exec layout m p (some read) = fun argv => exec layout m p (some read) argv := rfl
      rw [isRun]
      simp only [exec, loadable]
      generalize read 0 ElfHdr.size = answer
      obtain ⟨bytes, r⟩ := answer
      dsimp only
      by_cases isShort : r ≠ ElfHdr.size
      · exact .failed (if_pos isShort) (fun _ => if_pos isShort) nothing
      simp only [if_neg isShort]
      by_cases notElf : (ElfHdr.decode bytes).magic ≠ ELF_MAGIC
      · exact .failed (if_pos notElf) (fun _ => if_pos notElf) nothing
      simp only [if_neg notElf]
      obtain ⟨created, m₁, ran, outcome⟩ := procPagetable_spec free p.trapframe
      rcases outcome with ⟨rfl, released⟩ | ⟨pagetable, rfl, moved, space₁⟩
      · simp only [ran]
        exact .failed rfl (fun _ => rfl) released
      · have prepared : Prepared layout m m₁ p.trapframe pagetable (npages 0) := ⟨moved, space₁⟩
        obtain ⟨ok, sz, m₂, ran₂, loaded⟩ := loadLoop_spec (ElfHdr.decode bytes).phnum.toNat
          prepared.space (free.moved moved) (supervisor_clear layout p.trapframe)
          (fun page inside => absurd inside (Nat.not_lt_zero page)) read
          ((ElfHdr.decode bytes).phoff.toNat % 2 ^ 32)
        simp only [ran, ran₂]
        have complete := prepared.reshape loaded
        cases ok with
        | false =>
            obtain ⟨m', ran', released⟩ := execBad_spec free complete
            exact .failed rfl (fun _ => ran') released
        | true => exact execStack_staged free complete (word64At bytes 24)

theorem execArgs_spec (space : HasSpace layout m p) (owned : Owned layout m (userPages m p))
    (prepared : Prepared layout m m₁ p.trapframe pagetable (npages sz)) (entry : BitVec 64)
    (argv : List (List Byte)) :
    ∃ ret p' m', execArgs layout m₁ p pagetable sz entry argv = .ok (ret, p', m') ∧
      Outcome layout m m' p argv.length ret p' := by
  have free : Owned layout m 0 := owned.mono (Multiset.zero_le _)
  obtain ⟨result, m₂, ran, pushed⟩ := pushArgs_spec prepared.space
    (free.moved prepared.transfer) (supervisor_notForUser layout p.trapframe) sz argv
  have complete := prepared.reshape pushed
  simp only [execArgs, ran]
  cases result with
  | none =>
      obtain ⟨m', ran', released⟩ := execBad_spec free complete
      exact ⟨-1, p, m', ran', .failed released⟩
  | some sp =>
      obtain ⟨m', ran', switched, -⟩ := execCommit_spec space owned complete argv.length entry sp
      exact ⟨_, _, m', ran', switched⟩

/-- **`exec`** completes; the process has its old or a new address space. -/
theorem exec_spec (space : HasSpace layout m p) (owned : Owned layout m (userPages m p))
    (file : Option Reader) (argv : List (List Byte)) :
    ∃ ret p' m', exec layout m p file argv = .ok (ret, p', m') ∧
      Outcome layout m m' p argv.length ret p' := by
  cases exec_staged (p := p) (owned.mono (Multiset.zero_le _)) file with
  | failed _ ran released => exact ⟨-1, p, _, ran argv, .failed released⟩
  | ready _ entry prepared guarded ran =>
      rw [ran argv]
      refine execArgs_spec space owned ?_ entry argv
      rwa [npages_mul]

/-! ## sys_exec -/

abbrev argPages (argv : List (Addr × List Byte)) : Multiset Addr := (argv.map Prod.fst : List Addr)

theorem argPages_concat (argv : List (Addr × List Byte)) (page : Addr) (s : List Byte) :
    argPages (argv ++ [(page, s)]) = {page} + argPages argv := by
  rw [argPages, List.map_append, ← Multiset.coe_add, add_comm]
  rfl

theorem fetchArgs_spec (fetch : Nat → Fetched) (rounds : Nat) (m : Memory)
    (argv : List (Addr × List Byte)) :
    ∃ ok argv' m', fetchArgs fetch rounds m argv = (ok, argv', m') ∧
      Transfer m m' (argPages argv) (argPages argv') := by
  induction rounds generalizing m argv with
  | zero => exact ⟨false, argv, m, rfl, .refl _ _⟩
  | succ rounds ih =>
      rw [fetchArgs]
      have taken : ∀ page m₁ s, kalloc m = some (page, m₁) →
          Transfer m m₁ (argPages argv) (argPages (argv ++ [(page, s)])) := by
        intro page m₁ s allocated
        rw [argPages_concat]
        exact ((kalloc_eq_some allocated).1.add _).congr (zero_add _).symm rfl
      cases fetch argv.length with
      | badAddress => exact ⟨false, argv, m, rfl, .refl _ _⟩
      | null => exact ⟨true, argv, m, rfl, .refl _ _⟩
      | badString =>
          cases allocated : kalloc m with
          | none => exact ⟨false, argv, m, rfl, .refl _ _⟩
          | some allocation => exact ⟨false, _, _, rfl, taken _ _ [] allocated⟩
      | string s =>
          cases allocated : kalloc m with
          | none => exact ⟨false, argv, m, rfl, .refl _ _⟩
          | some allocation =>
              obtain ⟨page, m₁⟩ := allocation
              obtain ⟨ok, argv', m', ran, rest⟩ := ih
                (writePage m₁ page 0 (cstring s) (s.length + 1)) (argv ++ [(page, s)])
              refine ⟨ok, argv', m', ran, (taken page m₁ s allocated).trans ?_⟩
              have isOwned : page ∈ argPages (argv ++ [(page, s)]) := by
                rw [argPages_concat]
                exact Multiset.mem_add.mpr (.inl (Multiset.mem_singleton_self page))
              exact Transfer.trans (Transfer.write m₁ isOwned _) rest

theorem freeArgs_spec {argv : List (Addr × List Byte)} (owned : Owned layout m (argPages argv)) :
    ∃ m', freeArgs layout argv m = .ok m' ∧ Transfer m m' (argPages argv) 0 := by
  induction argv generalizing m with
  | nil => exact ⟨m, rfl, .refl _ _⟩
  | cons arg argv ih =>
      obtain ⟨page, s⟩ := arg
      have parts : argPages ((page, s) :: argv) = {page} + argPages argv := rfl
      rw [parts] at owned ⊢
      obtain ⟨m₁, freed, released⟩ := kfree_spec (m := m) (owned.pages page (by simp))
      have moved := (released.add (argPages argv)).congr rfl (zero_add _).symm
      obtain ⟨m', ran, rest⟩ := ih (owned.moved moved)
      refine ⟨m', ?_, moved.trans rest⟩
      rw [freeArgs, freed]
      exact ran

/-- **`sys_exec`** gives the argument pages back, whatever `exec` does. -/
theorem sysExec_spec (space : HasSpace layout m p) (owned : Owned layout m (userPages m p))
    (file : Option Reader) (fetch : Nat → Fetched) :
    ∃ ret p' m', sysExec layout m p file fetch = .ok (ret, p', m') ∧
      Execed layout m m' p p' := by
  obtain ⟨ok, argv, m₁, fetched, taken⟩ := fetchArgs_spec fetch MAXARG m []
  obtain ⟨space₁, same, owned₁⟩ := HasSpace.beside space owned taken
  simp only [sysExec, fetched]
  cases ok with
  | false =>
      obtain ⟨m', ran, released⟩ := freeArgs_spec (owned₁.mono (Multiset.le_add_right ..))
      refine ⟨-1, p, m', ?_, .failed space owned (taken.trans released)⟩
      simp only [ran]
      rfl
  | true =>
      have ownedSpace := owned₁.mono (Multiset.le_add_left (userPages m₁ p) _)
      obtain ⟨ret, p', m₂, ran, outcome⟩ := exec_spec space₁ ownedSpace file (argv.map Prod.snd)
      have execed := outcome.execed space₁ ownedSpace
      have moved := (execed.transfer.add (argPages argv)).congr (add_comm ..) rfl
      have owned₂ := owned₁.moved moved
      rw [add_comm] at owned₂
      obtain ⟨m', ran', released⟩ := freeArgs_spec (owned₂.mono (Multiset.le_add_right ..))
      have part : argPages argv + spacePages m₂ p'.pagetable (npages p'.sz) ≤
          argPages argv + userPages m₂ p' := by
        gcongr
        exact Multiset.le_add_left ..
      obtain ⟨space', samePages, -⟩ := Space.frame execed.space (owned₂.mono part) released
      refine ⟨ret, p', m', ?_, execed.sameTrapframe, ?_, space'⟩
      · simp only [ran, Except.bind, ran']
        rfl
      · have before := (taken.add (userPages m p)).congr (zero_add _).symm rfl
        rw [← same] at before
        rw [← same]
        refine (before.trans moved).trans ((released.add (userPages m₂ p')).congr ?_ ?_)
        · rw [add_comm]
        · rw [zero_add, userPages, samePages]

end Xv6.Vm
