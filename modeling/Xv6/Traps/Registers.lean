import Xv6.Assembly.Machine
import Xv6.Procs.Conservation

/-!
Contract: the registers of a process across traps, of interrupted kernel code, and of kernel
threads across switches, in `kernel/trampoline.S`, `kernel/kernelvec.S` and `kernel/swtch.S`.

Owns: `uservec`, `userret`, `kernelvec` and `swtch` as written, the offsets of
`struct trapframe`, the part of `usertrapret` that prepares the next trap, `MAKE_SATP` and the
accesses of the trampoline through the page table of a process, and kernel threads that switch
between each other on any number of CPUs.

Does not own: `timervec`, `stvec` and the bits of `sstatus`, and what the C code does between
entry and return.
-/

namespace Xv6.Traps

open Function
open Xv6.Assembly
open Xv6.Kernel
open Xv6.Runs

/-! ## The trapframe -/

/-- The registers of `struct trapframe` in order; the first is at 40. -/
def trapframeRegisters : List Reg :=
  [.ra, .sp, .gp, .tp, .t0, .t1, .t2, .s0, .s1, .a0, .a1, .a2, .a3, .a4, .a5, .a6, .a7,
    .s2, .s3, .s4, .s5, .s6, .s7, .s8, .s9, .s10, .s11, .t3, .t4, .t5, .t6]

def trapframeOffset (r : Reg) : Nat := 40 + 8 * trapframeRegisters.idxOf r

/-- The stores of `uservec` and the loads of `userret`: all but `a0`. -/
def userSlots : Frame where
  slots := [(.ra, 40), (.sp, 48), (.gp, 56), (.tp, 64), (.t0, 72), (.t1, 80), (.t2, 88),
    (.s0, 96), (.s1, 104), (.a1, 120), (.a2, 128), (.a3, 136), (.a4, 144), (.a5, 152),
    (.a6, 160), (.a7, 168), (.s2, 176), (.s3, 184), (.s4, 192), (.s5, 200), (.s6, 208),
    (.s7, 216), (.s8, 224), (.s9, 232), (.s10, 240), (.s11, 248), (.t3, 256), (.t4, 264),
    (.t5, 272), (.t6, 280)]
  size := PGSIZE
  registers := by decide
  offsets := by decide
  fits := by decide
  small := by decide

theorem trapframeOffset_mem (r : Reg) (notA0 : r ≠ .a0) :
    (r, trapframeOffset r) ∈ userSlots.slots := by
  cases r <;> first | decide | exact absurd rfl notA0

def TRAPFRAME : Word := BitVec.ofNat 64 Vm.TRAPFRAME

def uservec : List Instr :=
  .csrw .sscratch .a0 :: .li .a0 TRAPFRAME :: (stores .a0 userSlots.slots ++
    [.csrr .t0 .sscratch, .sd .t0 112 .a0, .ld .sp 8 .a0, .ld .tp 32 .a0, .ld .t0 16 .a0,
      .ld .t1 0 .a0, .sfence, .csrw .satp .t1, .sfence, .jr .t0])

def userret : List Instr :=
  .sfence :: .csrw .satp .a0 :: .sfence :: .li .a0 TRAPFRAME :: (loads .a0 userSlots.slots ++
    [.ld .a0 112 .a0, .sret])

/-- What `usertrapret` stores for the next trap: `p->kstack + PGSIZE` and `usertrap`. -/
structure KernelEntry where
  kernel_sp : Word
  kernel_trap : Word

/-- The end of `usertrapret`, up to the call of `userret(satp)`. -/
def usertrapret (entry : KernelEntry) (trapframe satp : Word) (s : State) : State :=
  let mem := update (update (update (update s.mem (place trapframe 0) (s.csr .satp))
    (place trapframe 8) entry.kernel_sp) (place trapframe 16) entry.kernel_trap)
    (place trapframe 32) (s.reg .tp)
  { (s.setCsr .sepc (mem (place trapframe 24))).setReg .a0 satp with mem }

/-- What the hardware does at a trap. -/
def trap (s : State) : State := s.setCsr .sepc s.pc

section User

variable {translate : Word → Word → Option Word} {s : State} {trapframe : Word} {offset : Nat}

def saved (s : State) (trapframe : Word) : Word → Word :=
  update (stored (update s.reg .a0 TRAPFRAME) trapframe userSlots.slots s.mem)
    (place trapframe 112) (s.reg .a0)

theorem run_uservec (mapped : Mapped translate (s.csr .satp) TRAPFRAME trapframe PGSIZE) :
    ∃ s', run translate s uservec = some s' ∧ s'.mem = saved s trapframe ∧
      s'.pc = s'.mem (place trapframe 16) ∧ s'.reg .sp = s'.mem (place trapframe 8) ∧
      s'.reg .tp = s'.mem (place trapframe 32) ∧ s'.csr .satp = s'.mem (place trapframe 0) ∧
      s'.csr .sepc = s.csr .sepc := by
  rw [uservec, run_step _ rfl, run_step _ rfl, mapped.run_stores _ userSlots.fits,
    run_step _ rfl, mapped.run_sd, mapped.run_ld, mapped.run_ld, mapped.run_ld, mapped.run_ld]
  · exact ⟨_, rfl, rfl, rfl, rfl, rfl, rfl, rfl⟩
  all_goals first | rfl | decide

theorem place_ne {offset' : Nat} (different : offset ≠ offset') (small : offset < PGSIZE)
    (small' : offset' < PGSIZE) : place trapframe offset ≠ place trapframe offset' := by
  have page : PGSIZE < 2 ^ 64 := by decide
  exact fun same => different (place_inj (small.trans page) (small'.trans page) same)

theorem saved_register (r : Reg) :
    saved s trapframe (place trapframe (trapframeOffset r)) = s.reg r := by
  rcases eq_or_ne r .a0 with rfl | notA0
  · exact update_self ..
  · have member := trapframeOffset_mem r notA0
    have notLast : ∀ slot ∈ userSlots.slots, slot.2 ≠ 112 := by decide
    rw [saved, update_of_ne (place_ne (notLast _ member) (userSlots.fits _ member).2 (by decide)),
      stored_slot _ _ userSlots.offsets
        (fun slot isSlot => (userSlots.fits slot isSlot).2.trans userSlots.small) member,
      update_of_ne notA0]

/-- The fields of the kernel come before those of the registers. -/
theorem saved_kernel (first : offset < 40) :
    saved s trapframe (place trapframe offset) = s.mem (place trapframe offset) := by
  have later : ∀ slot ∈ userSlots.slots, 40 ≤ slot.2 := by decide
  have page : 112 < PGSIZE := by decide
  rw [saved, update_of_ne (place_ne (by omega) (by omega) page), stored_other]
  intro slot isSlot
  have := later slot isSlot
  exact place_ne (by omega) (by omega) (userSlots.fits slot isSlot).2

theorem run_userret {satp : Word} (mapped : Mapped translate satp TRAPFRAME trapframe PGSIZE)
    (isTable : s.reg .a0 = satp) :
    ∃ s', run translate s userret = some s' ∧ s'.mem = s.mem ∧ s'.pc = s.csr .sepc ∧
      s'.csr .satp = satp ∧ ∀ r, s'.reg r = s.mem (place trapframe (trapframeOffset r)) := by
  have notA0 : .a0 ∉ userSlots.slots.map Prod.fst := by decide
  rw [userret, run_step _ rfl, run_step _ rfl, run_step _ rfl, run_step _ rfl,
    mapped.run_loads _ userSlots.fits, mapped.run_ld]
  · refine ⟨_, rfl, rfl, rfl, isTable, fun r => ?_⟩
    rcases eq_or_ne r .a0 with rfl | different
    · rfl
    · exact (update_of_ne different ..).trans
        (loaded_slot _ _ userSlots.registers (trapframeOffset_mem r different))
  · exact isTable
  · exact loaded_other _ _ notA0
  · rfl
  · decide
  · exact isTable
  · rfl
  · exact fun offset member => absurd (List.mem_map_of_mem member) notA0

theorem usertrapret_mem (entry : KernelEntry) (satp : Word) (small : offset < PGSIZE) :
    (usertrapret entry trapframe satp s).mem (place trapframe offset) =
      if offset = 0 then s.csr .satp
      else if offset = 8 then entry.kernel_sp
      else if offset = 16 then entry.kernel_trap
      else if offset = 32 then s.reg .tp
      else s.mem (place trapframe offset) := by
  have same : ∀ other < PGSIZE, place trapframe offset = place trapframe other ↔
      offset = other := by
    intro other otherSmall
    refine ⟨fun equal => ?_, congrArg _⟩
    by_contra different
    exact place_ne different small otherSmall equal
  simp only [usertrapret, update_apply, same 32 (by decide), same 16 (by decide),
    same 8 (by decide), same 0 (by decide)]
  split_ifs <;> first | rfl | omega

/-- A trap of a process in the state `u` leads into the kernel: to the place, with the stack, on
the CPU and with the page table that the last `usertrapret` stored, and with every register of
the process in its field of the trapframe. -/
def Enters (translate : Word → Word → Option Word) (trapframe : Word) (u : State) : Prop :=
  ∃ s, run translate (trap u) uservec = some s ∧
    s.pc = u.mem (place trapframe 16) ∧ s.reg .sp = u.mem (place trapframe 8) ∧
    s.reg .tp = u.mem (place trapframe 32) ∧ s.csr .satp = u.mem (place trapframe 0) ∧
    s.csr .sepc = u.pc ∧ ∀ r, s.mem (place trapframe (trapframeOffset r)) = u.reg r

/-- The kernel in the state `k` returns to the process: with the registers and to the `epc` of
the trapframe, and so that the next trap finds the kernel. -/
def Returns (translate : Word → Word → Option Word) (trapframe satp : Word) (entry : KernelEntry)
    (k : State) : Prop :=
  ∃ s, run translate (usertrapret entry trapframe satp k) userret = some s ∧
    (∀ r, s.reg r = k.mem (place trapframe (trapframeOffset r))) ∧
    s.pc = k.mem (place trapframe 24) ∧ s.csr .satp = satp ∧
    s.mem (place trapframe 16) = entry.kernel_trap ∧
    s.mem (place trapframe 8) = entry.kernel_sp ∧ s.mem (place trapframe 32) = k.reg .tp ∧
    s.mem (place trapframe 0) = k.csr .satp

theorem uservec_enters (mapped : Mapped translate (s.csr .satp) TRAPFRAME trapframe PGSIZE) :
    Enters translate trapframe s := by
  obtain ⟨s₁, entered, isSaved, pc, sp, tp, satp, sepc⟩ := run_uservec (s := trap s) mapped
  rw [isSaved, saved_kernel (by decide)] at pc sp tp satp
  refine ⟨s₁, entered, pc, sp, tp, satp, sepc, fun r => ?_⟩
  rw [isSaved, saved_register]
  rfl

theorem userret_returns {satp : Word} (mapped : Mapped translate satp TRAPFRAME trapframe PGSIZE)
    (entry : KernelEntry) : Returns translate trapframe satp entry s := by
  obtain ⟨s₁, returned, mem, pc, isTable, reg⟩ := run_userret
    (s := usertrapret entry trapframe satp s) mapped rfl
  refine ⟨s₁, returned, fun r => ?_, ?_, isTable, ?_, ?_, ?_, ?_⟩
  · have later : 40 ≤ trapframeOffset r := Nat.le_add_right ..
    have inside : trapframeOffset r < PGSIZE := by cases r <;> decide
    rw [reg, usertrapret_mem entry _ inside, if_neg (by omega), if_neg (by omega),
      if_neg (by omega), if_neg (by omega)]
  · exact pc.trans (usertrapret_mem entry satp (show 24 < PGSIZE by decide))
  all_goals
    rw [mem, usertrapret_mem entry _ (by decide)]
    rfl

end User

/-! ## Processes -/

def SATP_SV39 : Word := (8 : Word) <<< 60

def MAKE_SATP (pagetable : Word) : Word := SATP_SV39 ||| pagetable >>> 12

/-- The page table of a value of `satp`. -/
def tableOf (satp : Word) : Word := satp <<< 20 >>> 8

/-- An access by the supervisor, through the page table in `satp`. -/
def hardware (m : Vm.Memory) (satp va : Word) : Option Word :=
  match Vm.translate m (tableOf satp) va.toNat with
  | some (page, flags) =>
      if flags &&& (Vm.PTE_R ||| Vm.PTE_W ||| Vm.PTE_U) = Vm.PTE_R ||| Vm.PTE_W then
        some (place page (va.toNat % PGSIZE))
      else none
  | none => none

theorem tableOf_MAKE_SATP {pagetable : Word} (aligned : pagetable.toNat % PGSIZE = 0)
    (small : pagetable.toNat < 2 ^ 56) : tableOf (MAKE_SATP pagetable) = pagetable := by
  have noMode : SATP_SV39 <<< 20 = BitVec.ofNat 64 0 := by decide
  rw [tableOf, MAKE_SATP, BitVec.shiftLeft_or_distrib, noMode, BitVec.zero_or]
  apply BitVec.eq_of_toNat_eq
  simp only [BitVec.toNat_ushiftRight, BitVec.toNat_shiftLeft, Nat.shiftRight_eq_div_pow,
    Nat.shiftLeft_eq]
  unfold PGSIZE at aligned
  omega

/-- The trapframe of a process is where its page table maps `TRAPFRAME`. -/
theorem trapframe_mapped {layout : Vm.Layout} {s : Procs.State} {p : ProcId}
    {user : Vm.UserMemory} (pages : Procs.Pages layout s)
    (isUser : (s.proc p).user = .ok user) :
    Mapped (hardware s.mem) (MAKE_SATP user.pagetable) TRAPFRAME user.trapframe PGSIZE := by
  obtain ⟨space, owned⟩ := pages.user isUser
  have few := space.le_pages (owned.mono (Multiset.le_add_left ..))
  have isPage : layout.IsPage user.trapframe := owned.pages _ (by simp [Vm.userPages])
  have isTable : layout.IsPage user.pagetable :=
    owned.pages _ (by simp [Vm.userPages, Vm.spacePages, Radix.root_mem_nodes])
  have isRoot : tableOf (MAKE_SATP user.pagetable) = user.pagetable :=
    tableOf_MAKE_SATP isTable.1 (isTable.2.2.trans (by decide))
  have isEntry : Vm.entries s.mem user.pagetable Vm.trapframePage =
      some (Vm.trapframePte user.trapframe) := by
    rw [space.above _ (few.trans (by decide)), Vm.supervisor, update_self]
  refine ⟨?_, fun offset inside => ?_⟩
  · have aligned := isPage.1
    unfold PGSIZE at aligned
    omega
  · have isPlace : (place TRAPFRAME offset).toNat = Vm.trapframePage * PGSIZE + offset := by
      rw [← Vm.TRAPFRAME_eq, place, TRAPFRAME, BitVec.toNat_add, BitVec.toNat_ofNat,
        BitVec.toNat_ofNat]
      unfold PGSIZE at inside
      unfold Vm.TRAPFRAME Vm.TRAMPOLINE Vm.MAXVA PGSIZE
      omega
    have inSpace : Vm.trapframePage * PGSIZE + offset < Vm.MAXVA :=
      (Nat.add_lt_add_left inside _).trans (by decide)
    have page : (Vm.trapframePage * PGSIZE + offset) / PGSIZE = Vm.trapframePage ∧
        (Vm.trapframePage * PGSIZE + offset) % PGSIZE = offset := by
      unfold PGSIZE at inside ⊢
      omega
    rw [hardware, isRoot, isPlace, Vm.translate_eq _ _ inSpace, page.1, page.2, isEntry,
      Vm.trapframePte, Option.map_some, Vm.PTE2PA_entry isPage.1 (by decide),
      Vm.PTE_FLAGS_entry _ (by decide)]
    rfl

/-- **The registers of a process across a trap.** In every state of every run of processes from
boot, a trap of a process, whatever its registers, leads into the kernel with every register
saved; and whatever the kernel did, a return to a process restores the registers from its
trapframe. What the kernel left in the trapframe is so what the process has again. -/
theorem process_registers_kept {layout : Vm.Layout} {m : Vm.Memory} (owned : Vm.Owned layout m 0)
    (enough : 10 ≤ m.free.length) (code : Vm.Page) :
    ∃ s₀, Procs.userinit layout m code = .ok s₀ ∧
      ∀ s, Reachable (Procs.step layout) Procs.MayCall s₀ s →
        ∀ p user, (s.proc p).user = .ok user →
          (∀ u : State, u.csr .satp = MAKE_SATP user.pagetable →
            Enters (hardware s.mem) user.trapframe u) ∧
          ∀ entry k, Returns (hardware s.mem) user.trapframe (MAKE_SATP user.pagetable)
            entry k := by
  obtain ⟨s₀, booted, first⟩ := Procs.userinit_spec owned enough code
  refine ⟨s₀, booted, fun s reachable p user isUser => ?_⟩
  have mapped := trapframe_mapped (Procs.run_next first.invariant reachable).invariant.pages isUser
  exact ⟨fun u isTable => uservec_enters (by rwa [isTable]), fun entry k =>
    userret_returns mapped entry⟩

/-- The child of the first process traps and returns. -/
theorem process_registers_kept_child : ∃ s₀ s user,
    Procs.userinit Vm.megabyteKernel (Procs.bootPages 24) Procs.initcode = .ok s₀ ∧
      Reachable (Procs.step Vm.megabyteKernel) Procs.MayCall s₀ s ∧
      (s.proc 1).state = .RUNNABLE ∧ (s.proc 1).user = .ok user ∧
      (∀ u : State, u.csr .satp = MAKE_SATP user.pagetable →
        Enters (hardware s.mem) user.trapframe u) ∧
      ∀ entry k, Returns (hardware s.mem) user.trapframe (MAKE_SATP user.pagetable) entry k := by
  obtain ⟨s₀, s, booted, reachable, invariant, isChild⟩ := Procs.exists_of_boot 24 (by decide)
    (by decide) [(0, .fork)] (fun s => (s.proc 1).state = .RUNNABLE) (by decide +kernel)
  obtain ⟨user, isUser⟩ := (invariant.tidy 1).present (by simp [isChild])
  obtain ⟨s₀', booted', kept⟩ := process_registers_kept
    (Procs.bootPages_owned (show 24 ≤ 32256 by decide)) (by decide) Procs.initcode
  rw [booted] at booted'
  cases booted'
  exact ⟨s₀, s, user, booted, reachable, isChild, isUser, kept s reachable 1 user isUser⟩

-- What `exec` stores in the trapframe are the registers the new program starts with.
example : trapframeOffset .sp = 8 * Vm.spWord.val ∧ trapframeOffset .a0 = 8 * Vm.a0Word.val ∧
    trapframeOffset .a1 = 8 * Vm.a1Word.val ∧ 24 = 8 * Vm.epcWord.val := by decide

/-! ## Interrupts in the kernel -/

/-- The kernel's data is mapped directly. -/
def direct (_satp va : Word) : Option Word := some va

def inOrder (registers : List Reg) : List (Reg × Nat) :=
  registers.zipIdx.map fun (r, i) => (r, 8 * i)

/-- `kernelvec` stores the registers in the order of the trapframe, from 0 to 240. -/
def kernelSlots : Frame where
  slots := inOrder trapframeRegisters
  size := 256
  registers := by decide
  offsets := by decide
  fits := by decide
  small := by decide

/-- "not tp (contains hartid), in case we moved CPUs" -/
def restoredSlots : List (Reg × Nat) := kernelSlots.slots.filter (·.1 ≠ .tp)

/-- `kernelvec` up to the call of `kerneltrap`. -/
def kernelvec : List Instr := .addi .sp .sp (-256) :: stores .sp kernelSlots.slots

/-- `kernelvec` after the call of `kerneltrap`. -/
def kernelvecReturn : List Instr := loads .sp restoredSlots ++ [.addi .sp .sp 256, .sret]

/-- **Interrupts in the kernel are transparent.** If `kerneltrap` returns with its stack pointer,
on any CPU, and does not write the frame, the interrupted code goes on with all its registers but
`tp`, which is that of the CPU it is on. The frame is all that `kernelvec` itself writes. -/
theorem kernelvec_transparent {translate : Word → Word → Option Word} {s : State} {stack : Word}
    (mapped : Mapped translate (s.csr .satp) (s.reg .sp + -256) stack 256) :
    ∃ s₁, run translate s kernelvec = some s₁ ∧
      (∀ a, (∀ offset < 256, a ≠ place stack offset) → s₁.mem a = s.mem a) ∧
      ∀ s₂, s₂.reg .sp = s₁.reg .sp → s₂.csr .satp = s₁.csr .satp →
        (∀ offset < 256, s₂.mem (place stack offset) = s₁.mem (place stack offset)) →
        ∃ s₃, run translate s₂ kernelvecReturn = some s₃ ∧ s₃.mem = s₂.mem ∧
          s₃.pc = s₂.csr .sepc ∧ s₃.reg .tp = s₂.reg .tp ∧ ∀ r ≠ .tp, s₃.reg r = s.reg r := by
  have fits : ∀ slot ∈ restoredSlots, slot.2 % 8 = 0 ∧ slot.2 < 256 :=
    fun slot isSlot => kernelSlots.fits slot (List.mem_of_mem_filter isSlot)
  rw [kernelvec, run_step _ rfl, ← List.append_nil (stores ..),
    mapped.run_stores _ kernelSlots.fits]
  rotate_left
  · rfl
  · rfl
  refine ⟨_, rfl, fun a outside => ?_, fun s₂ isStack isTable kept => ?_⟩
  · exact stored_other _ _ fun slot isSlot => outside slot.2 (kernelSlots.fits slot isSlot).2
  -- What the frame holds: the registers, with the stack pointer already lowered.
  have holds : ∀ r offset, (r, offset) ∈ kernelSlots.slots →
      s₂.mem (place stack offset) = update s.reg .sp (s.reg .sp + -256) r := by
    intro r offset member
    rw [kept offset (kernelSlots.fits _ member).2]
    exact stored_slot _ _ kernelSlots.offsets
      (fun slot isSlot => (kernelSlots.fits slot isSlot).2.trans kernelSlots.small) member
  have loadedAs : ∀ r offset, (r, offset) ∈ restoredSlots →
      loaded s₂.mem stack restoredSlots s₂.reg r = update s.reg .sp (s.reg .sp + -256) r := by
    intro r offset member
    rw [loaded_slot _ _ (by decide) member]
    exact holds r offset (List.mem_of_mem_filter member)
  rw [kernelvecReturn, mapped.run_loads _ fits]
  · refine ⟨_, rfl, rfl, rfl, loaded_other _ _ (by decide), fun r notTp => ?_⟩
    have member : (r, 8 * trapframeRegisters.idxOf r) ∈ restoredSlots := by
      cases r <;> first | decide | exact absurd rfl notTp
    rcases eq_or_ne r .sp with rfl | notSp
    · show loaded s₂.mem stack restoredSlots s₂.reg .sp + 256 = s.reg .sp
      rw [loadedAs _ _ member, update_self, add_assoc]
      exact add_zero _
    · exact (update_of_ne notSp ..).trans
        ((loadedAs _ _ member).trans (update_of_ne notSp ..))
  · exact isTable
  · exact isStack
  · exact fun offset member => (holds _ offset (List.mem_of_mem_filter member)).trans
      (update_self ..)

def interrupted : State := ⟨fun r => trapframeOffset r, fun _ => 7, fun a => a, 0⟩

/-- A `kerneltrap` that keeps no register but `sp`, writes a word and returns on CPU 1. -/
def trapped (s : State) : State :=
  { s with reg := update (update (fun _ => 0) .sp (s.reg .sp)) .tp 1, mem := update s.mem 0x1000 1 }

theorem kernelvec_transparent_trapped : ∃ s₁ s₃, run direct interrupted kernelvec = some s₁ ∧
    run direct (trapped s₁) kernelvecReturn = some s₃ ∧ s₃.mem 0x1000 = 1 ∧ s₃.reg .tp = 1 ∧
    ∀ r ≠ .tp, s₃.reg r = interrupted.reg r := by
  have mapped : Mapped direct (interrupted.csr .satp) (interrupted.reg .sp + -256)
      (interrupted.reg .sp + -256) 256 := ⟨by decide, fun _ _ => rfl⟩
  have apart : ∀ offset < 256, place (interrupted.reg .sp + -256) offset ≠ 0x1000 := by
    decide +kernel
  obtain ⟨s₁, entered, -, returns⟩ := kernelvec_transparent mapped
  obtain ⟨s₃, returned, sameMem, -, onCpu, same⟩ := returns (trapped s₁) rfl rfl
    fun offset below => update_of_ne (apart offset below) ..
  refine ⟨s₁, s₃, entered, returned, ?_, onCpu, same⟩
  simp [sameMem, trapped]

/-! ## Switches -/

def contextSlots : Frame where
  slots := inOrder [.ra, .sp, .s0, .s1, .s2, .s3, .s4, .s5, .s6, .s7, .s8, .s9, .s10, .s11]
  size := 112
  registers := by decide
  offsets := by decide
  fits := by decide
  small := by decide

def swtch : List Instr :=
  stores .a0 contextSlots.slots ++ (loads .a1 contextSlots.slots ++ [.jr .ra])

/-- Where the threads save their registers: `p->context` of a process, `c->context` of the
scheduler of a CPU. -/
structure Contexts (T : Type) where
  context : T → Word
  aligned : ∀ t, (context t).toNat % 8 = 0
  apart : ∀ t t', t ≠ t' → ∀ offset < 112, ∀ offset' < 112,
    place (context t) offset ≠ place (context t') offset'

section Contexts

variable {T : Type} {contexts : Contexts T} {t u : T}

theorem run_swtch {m : State} (isOld : m.reg .a0 = contexts.context u)
    (isNew : m.reg .a1 = contexts.context t) :
    run direct m swtch =
      let mem := stored m.reg (contexts.context u) contextSlots.slots m.mem
      let reg := loaded mem (contexts.context t) contextSlots.slots m.reg
      some { m with reg, mem, pc := reg .ra } := by
  have mapped : ∀ t, Mapped direct (m.csr .satp) (contexts.context t) (contexts.context t) 112 :=
    fun t => ⟨contexts.aligned t, fun _ _ => rfl⟩
  have noBase : .a1 ∉ contextSlots.slots.map Prod.fst := by decide
  rw [swtch, (mapped u).run_stores _ contextSlots.fits rfl isOld,
    (mapped t).run_loads _ contextSlots.fits]
  · rfl
  · rfl
  · exact isNew
  · exact fun offset member => absurd (List.mem_map_of_mem member) noBase

theorem stored_apart (different : t ≠ u) (reg : Reg → Word) (mem : Word → Word)
    {slot : Reg × Nat} (isSlot : slot ∈ contextSlots.slots) :
    stored reg (contexts.context u) contextSlots.slots mem (place (contexts.context t) slot.2) =
      mem (place (contexts.context t) slot.2) :=
  stored_other _ _ fun other isOther => contexts.apart t u different _
    (contextSlots.fits slot isSlot).2 _ (contextSlots.fits other isOther).2

end Contexts

/-- CPUs that run kernel threads. -/
structure Threads (C T : Type) where
  reg : C → Reg → Word
  pc : C → Word
  mem : Word → Word
  current : C → T
  /-- The registers at the call of `swtch` with which a thread left its CPU. -/
  left : T → Option (Reg → Word)

inductive Action (C T : Type) where
  /-- Any code of the thread on `c`. -/
  | compute (c : C) (reg : Reg → Word) (pc : Word) (mem : Word → Word)
  | swtch (c : C) (t : T)

section Switches

variable {C T : Type} [DecidableEq C] [DecidableEq T] {contexts : Contexts T}
  {s s' start : Threads C T} {c : C} {t : T}

def step (s : Threads C T) : Action C T → Option (Threads C T)
  | .compute c reg pc mem =>
      some { s with reg := update s.reg c reg, pc := update s.pc c pc, mem }
  | .swtch c t => (run direct ⟨s.reg c, fun _ => 0, s.mem, s.pc c⟩ swtch).map fun cpu =>
      { reg := update s.reg c cpu.reg, pc := update s.pc c cpu.pc, mem := cpu.mem,
        current := update s.current c t,
        left := update (update s.left (s.current c) (some (s.reg c))) t none }

/-- No code writes the context of a thread that is not running, and only such a thread is
switched to: its process is locked. -/
def Allowed (contexts : Contexts T) (s : Threads C T) : Action C T → Prop
  | .compute _ _ _ mem => ∀ t, (∀ c, s.current c ≠ t) → ∀ offset < 112,
      mem (place (contexts.context t) offset) = s.mem (place (contexts.context t) offset)
  | .swtch c t => (∀ c', s.current c' ≠ t) ∧ s.reg c .a0 = contexts.context (s.current c) ∧
      s.reg c .a1 = contexts.context t

/-- The context of a thread that left holds its registers. -/
structure Kept (contexts : Contexts T) (s : Threads C T) : Prop where
  alone : Injective s.current
  holds : ∀ t regs, s.left t = some regs → (∀ c, s.current c ≠ t) ∧
    ∀ slot ∈ contextSlots.slots, s.mem (place (contexts.context t) slot.2) = regs slot.1

theorem Kept.step {action : Action C T} (kept : Kept contexts s)
    (allowed : Allowed contexts s action) (stepped : step s action = some s') :
    Kept contexts s' := by
  cases action with
  | compute c reg pc mem =>
      cases stepped
      refine ⟨kept.alone, fun t regs isLeft => ?_⟩
      obtain ⟨waits, holds⟩ := kept.holds t regs isLeft
      exact ⟨waits, fun slot isSlot =>
        (allowed t waits _ (contextSlots.fits slot isSlot).2).trans (holds slot isSlot)⟩
  | swtch c t =>
      obtain ⟨idle, isOld, isNew⟩ := allowed
      rw [Traps.step, run_swtch isOld isNew] at stepped
      cases stepped
      refine ⟨fun c₁ c₂ same => ?_, fun v regs isLeft => ?_⟩
      · simp only [update_apply] at same
        split_ifs at same with first second second
        · exact first.trans second.symm
        · exact absurd same.symm (idle c₂)
        · exact absurd same (idle c₁)
        · exact kept.alone same
      · have notNew : v ≠ t := by
          rintro rfl
          simp at isLeft
        simp only [update_of_ne notNew] at isLeft
        rcases eq_or_ne v (s.current c) with rfl | notOld
        · -- The thread that leaves: its context is what was stored.
          rw [update_self] at isLeft
          cases isLeft
          refine ⟨fun c' => ?_, fun slot isSlot => stored_slot _ _ contextSlots.offsets
            (fun slot isSlot => (contextSlots.fits slot isSlot).2.trans contextSlots.small) isSlot⟩
          rcases eq_or_ne c' c with rfl | other
          · simpa using notNew.symm
          · simpa [other] using fun same => other (kept.alone same)
        · rw [update_of_ne notOld] at isLeft
          obtain ⟨waits, holds⟩ := kept.holds v regs isLeft
          refine ⟨fun c' => ?_, fun slot isSlot =>
            (stored_apart notOld _ _ isSlot).trans (holds slot isSlot)⟩
          rcases eq_or_ne c' c with rfl | other
          · simpa using notNew.symm
          · simpa [other] using waits c'

/-- **A thread resumes as it left**: in every run of kernel threads on any number of CPUs, a
switch to a thread that left its CPU returns from that thread's own call of `swtch`, with the
stack pointer and the callee-saved registers it had there, on whatever CPU it is resumed. -/
theorem swtch_resumes (reachable : Reachable step (Allowed contexts) start s)
    (alone : Injective start.current) (noneLeft : ∀ t, start.left t = none)
    (allowed : Allowed contexts s (.swtch c t)) :
    ∃ s', step s (.swtch c t) = some s' ∧ s'.current c = t ∧
      ∀ regs, s.left t = some regs → s'.pc c = regs .ra ∧
        ∀ slot ∈ contextSlots.slots, s'.reg c slot.1 = regs slot.1 := by
  have kept : Kept contexts s := reachable.invariant
    ⟨alone, fun t regs isLeft => absurd (isLeft.symm.trans (noneLeft t)) (by simp)⟩
    fun _ _ _ kept isAllowed stepped => kept.step isAllowed stepped
  obtain ⟨idle, isOld, isNew⟩ := allowed
  rw [Traps.step, run_swtch isOld isNew]
  refine ⟨_, rfl, update_self .., fun regs isLeft => ?_⟩
  have resumed : ∀ slot ∈ contextSlots.slots,
      loaded (stored (s.reg c) (contexts.context (s.current c)) contextSlots.slots s.mem)
        (contexts.context t) contextSlots.slots (s.reg c) slot.1 = regs slot.1 := by
    intro slot isSlot
    rw [loaded_slot _ _ contextSlots.registers isSlot, stored_apart (idle c).symm _ _ isSlot]
    exact (kept.holds t regs isLeft).2 slot isSlot
  refine ⟨?_, fun slot isSlot => ?_⟩
  · exact (update_self ..).trans (resumed (.ra, 0) (by decide))
  · exact (congrFun (update_self ..) _).trans (resumed slot isSlot)

/-! The thread `false` leaves with 5 in `s0`; the thread `true` switches back. -/

def twoPlaces (t : Bool) : Word := if t then 0x1000 else 0x2000

theorem twoPlaces_aligned (t : Bool) : (twoPlaces t).toNat % 8 = 0 := by
  cases t <;> rfl

theorem twoPlaces_apart (t t' : Bool) (different : t ≠ t') (offset : Nat) (inside : offset < 112)
    (offset' : Nat) (inside' : offset' < 112) :
    place (twoPlaces t) offset ≠ place (twoPlaces t') offset' := by
  intro same
  have equal := congrArg BitVec.toNat same
  cases t <;> cases t' <;> simp [place, twoPlaces] at different equal <;> omega

def twoContexts : Contexts Bool := ⟨twoPlaces, twoPlaces_aligned, twoPlaces_apart⟩

def callOf (old new : Bool) (value : Word) : Reg → Word
  | .a0 => twoContexts.context old
  | .a1 => twoContexts.context new
  | _ => value

def twoThreads : Threads Unit Bool :=
  ⟨fun _ => callOf false true 5, fun _ => 0, fun _ => 0, fun _ => false, fun _ => none⟩

theorem swtch_resumes_two : ∃ s s' : Threads Unit Bool, s.reg () .s0 = 9 ∧
    step s (.swtch () false) = some s' ∧ s'.reg () .s0 = 5 := by
  have leaves : (step twoThreads (.swtch () true)).isSome := rfl
  obtain ⟨s₁, left⟩ := Option.isSome_iff_exists.mp leaves
  have resumed : Reachable step (Allowed twoContexts) twoThreads
      { s₁ with reg := update s₁.reg () (callOf true false 9), pc := update s₁.pc () 0 } := by
    have mayLeave : Allowed twoContexts twoThreads (.swtch () true) := ⟨by decide, rfl, rfl⟩
    have goesOn : Allowed twoContexts s₁ (.compute () (callOf true false 9) 0 s₁.mem) :=
      fun _ _ _ _ => rfl
    exact .step (.step .start mayLeave left) goesOn rfl
  cases left
  obtain ⟨s', switched, -, same⟩ := swtch_resumes resumed (fun _ _ _ => rfl) (fun _ => rfl)
    (c := ()) (t := false) ⟨by decide, rfl, rfl⟩
  exact ⟨_, s', rfl, switched, (same _ rfl).2 (.s0, 16) (by decide)⟩

end Switches

end Xv6.Traps
