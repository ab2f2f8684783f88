import Mathlib

/-!
Contract: straight-line 64-bit assembly that saves registers in memory and loads them again.

Owns: registers, doubleword memory behind a translation of addresses, the instructions of
entry and switch code, frames (which register is saved where), and what the stores and the
loads of a frame do.

Does not own: branches, accesses of other widths, privilege levels. A doubleword access
that is not aligned or not mapped has no result.
-/

namespace Xv6.Assembly

open Function

abbrev Word := BitVec 64

def place (base : Word) (offset : Nat) : Word := base + BitVec.ofNat 64 offset

inductive Reg where
  | ra | sp | gp | tp | t0 | t1 | t2 | s0 | s1 | a0 | a1 | a2 | a3 | a4 | a5 | a6 | a7
  | s2 | s3 | s4 | s5 | s6 | s7 | s8 | s9 | s10 | s11 | t3 | t4 | t5 | t6
deriving DecidableEq, Repr

inductive Csr where
  | satp | sscratch | sepc | sip | mscratch | mepc
deriving DecidableEq, Repr

structure State where
  reg : Reg → Word
  csr : Csr → Word
  /-- Doublewords by their physical address, a multiple of 8. -/
  mem : Word → Word
  pc : Word

def State.setReg (s : State) (r : Reg) (value : Word) : State :=
  { s with reg := update s.reg r value }

def State.setCsr (s : State) (c : Csr) (value : Word) : State :=
  { s with csr := update s.csr c value }

inductive Instr where
  | ld (rd : Reg) (offset : Nat) (base : Reg)
  | sd (rs : Reg) (offset : Nat) (base : Reg)
  | li (rd : Reg) (value : Word)
  | addi (rd rs : Reg) (value : Word)
  | add (rd rs₁ rs₂ : Reg)
  | csrr (rd : Reg) (c : Csr)
  | csrw (c : Csr) (rs : Reg)
  | csrrw (rd : Reg) (c : Csr) (rs : Reg)
  | sfence
  | jr (rs : Reg)
  | sret
  | mret

section Execution

-- The physical address of a virtual one under a value of `satp`.
variable (translate : Word → Word → Option Word)

def State.physical (s : State) (base : Reg) (offset : Nat) : Option Word :=
  (translate (s.csr .satp) (place (s.reg base) offset)).filter (·.toNat % 8 = 0)

def exec (s : State) : Instr → Option State
  | .ld rd offset base => (s.physical translate base offset).map fun a => s.setReg rd (s.mem a)
  | .sd rs offset base => (s.physical translate base offset).map fun a =>
      { s with mem := update s.mem a (s.reg rs) }
  | .li rd value => some (s.setReg rd value)
  | .addi rd rs value => some (s.setReg rd (s.reg rs + value))
  | .add rd rs₁ rs₂ => some (s.setReg rd (s.reg rs₁ + s.reg rs₂))
  | .csrr rd c => some (s.setReg rd (s.csr c))
  | .csrw c rs => some (s.setCsr c (s.reg rs))
  | .csrrw rd c rs => some ((s.setCsr c (s.reg rs)).setReg rd (s.csr c))
  | .sfence => some s
  | .jr rs => some { s with pc := s.reg rs }
  | .sret => some { s with pc := s.csr .sepc }
  | .mret => some { s with pc := s.csr .mepc }

def run (s : State) : List Instr → Option State
  | [] => some s
  | instr :: code => (exec translate s instr).bind fun s => run s code

variable {translate} in
theorem run_step {s s' : State} {instr : Instr} (code : List Instr)
    (executed : exec translate s instr = some s') :
    run translate s (instr :: code) = run translate s' code := by
  rw [run, executed, Option.bind_some]

end Execution

/-! ## Frames -/

/-- Where registers are saved: each at an offset of its own. -/
structure Frame where
  slots : List (Reg × Nat)
  size : Nat
  registers : (slots.map Prod.fst).Nodup
  offsets : (slots.map Prod.snd).Nodup
  fits : ∀ slot ∈ slots, slot.2 % 8 = 0 ∧ slot.2 < size
  small : size < 2 ^ 64

/-- The `size` bytes at the virtual address `va` are those at `pa`. -/
structure Mapped (translate : Word → Word → Option Word) (satp va pa : Word) (size : Nat) :
    Prop where
  aligned : pa.toNat % 8 = 0
  maps : ∀ offset < size, translate satp (place va offset) = some (place pa offset)

def stores (base : Reg) (slots : List (Reg × Nat)) : List Instr :=
  slots.map fun slot => .sd slot.1 slot.2 base

def loads (base : Reg) (slots : List (Reg × Nat)) : List Instr :=
  slots.map fun slot => .ld slot.1 slot.2 base

def stored (reg : Reg → Word) (pa : Word) : List (Reg × Nat) → (Word → Word) → Word → Word
  | [], mem => mem
  | (r, offset) :: slots, mem =>
      stored reg pa slots (update mem (place pa offset) (reg r))

def loaded (mem : Word → Word) (pa : Word) : List (Reg × Nat) → (Reg → Word) → Reg → Word
  | [], reg => reg
  | (r, offset) :: slots, reg => loaded mem pa slots (update reg r (mem (place pa offset)))

section Frames

variable {translate : Word → Word → Option Word} {s : State} {base r : Reg}
  {satp va pa a : Word} {size offset : Nat} {slots : List (Reg × Nat)}

theorem place_inj {offset' : Nat} (small : offset < 2 ^ 64) (small' : offset' < 2 ^ 64)
    (same : place pa offset = place pa offset') : offset = offset' := by
  have equal := congrArg BitVec.toNat (add_left_cancel same)
  rwa [BitVec.toNat_ofNat, BitVec.toNat_ofNat, Nat.mod_eq_of_lt small, Nat.mod_eq_of_lt small']
    at equal

theorem Mapped.physical (mapped : Mapped translate satp va pa size) (isTable : s.csr .satp = satp)
    (isBase : s.reg base = va) (isWord : offset % 8 = 0) (inside : offset < size) :
    s.physical translate base offset = some (place pa offset) := by
  have aligned := mapped.aligned
  have isAligned : (place pa offset).toNat % 8 = 0 := by
    rw [place, BitVec.toNat_add, BitVec.toNat_ofNat]
    omega
  rw [State.physical, isTable, isBase, mapped.maps offset inside, Option.filter_some,
    decide_eq_true isAligned, if_pos rfl]

theorem Mapped.run_ld (mapped : Mapped translate satp va pa size) (code : List Instr)
    (isTable : s.csr .satp = satp) (isBase : s.reg base = va) (isWord : offset % 8 = 0)
    (inside : offset < size) : run translate s (.ld r offset base :: code) =
      run translate (s.setReg r (s.mem (place pa offset))) code := by
  rw [run, exec, mapped.physical isTable isBase isWord inside, Option.map_some, Option.bind_some]

theorem Mapped.run_sd (mapped : Mapped translate satp va pa size) (code : List Instr)
    (isTable : s.csr .satp = satp) (isBase : s.reg base = va) (isWord : offset % 8 = 0)
    (inside : offset < size) : run translate s (.sd r offset base :: code) =
      run translate { s with mem := update s.mem (place pa offset) (s.reg r) } code := by
  rw [run, exec, mapped.physical isTable isBase isWord inside, Option.map_some, Option.bind_some]

theorem Mapped.run_stores (mapped : Mapped translate satp va pa size) (code : List Instr)
    (fits : ∀ slot ∈ slots, slot.2 % 8 = 0 ∧ slot.2 < size) (isTable : s.csr .satp = satp)
    (isBase : s.reg base = va) : run translate s (stores base slots ++ code) =
      run translate { s with mem := stored s.reg pa slots s.mem } code := by
  induction slots generalizing s with
  | nil => rfl
  | cons slot slots ih =>
      obtain ⟨⟨isWord, inside⟩, rest⟩ := List.forall_mem_cons.mp fits
      exact (mapped.run_sd _ isTable isBase isWord inside).trans
        (ih rest isTable isBase)

/-- The loads may load the base register, if that keeps its value. -/
theorem Mapped.run_loads (mapped : Mapped translate satp va pa size) (code : List Instr)
    (fits : ∀ slot ∈ slots, slot.2 % 8 = 0 ∧ slot.2 < size) (isTable : s.csr .satp = satp)
    (isBase : s.reg base = va)
    (keeps : ∀ offset, (base, offset) ∈ slots → s.mem (place pa offset) = va) :
    run translate s (loads base slots ++ code) =
      run translate { s with reg := loaded s.mem pa slots s.reg } code := by
  induction slots generalizing s with
  | nil => rfl
  | cons slot slots ih =>
      obtain ⟨⟨isWord, inside⟩, rest⟩ := List.forall_mem_cons.mp fits
      refine (mapped.run_ld _ isTable isBase isWord inside).trans
        (ih rest isTable ?_ fun offset member =>
          keeps offset (List.mem_cons_of_mem _ member))
      rcases eq_or_ne base slot.1 with rfl | different
      · exact (update_self ..).trans (keeps slot.2 List.mem_cons_self)
      · exact (update_of_ne different ..).trans isBase

theorem stored_other (reg : Reg → Word) (mem : Word → Word)
    (outside : ∀ slot ∈ slots, a ≠ place pa slot.2) :
    stored reg pa slots mem a = mem a := by
  induction slots generalizing mem with
  | nil => rfl
  | cons slot slots ih =>
      obtain ⟨different, rest⟩ := List.forall_mem_cons.mp outside
      exact (ih _ rest).trans (update_of_ne different ..)

theorem stored_slot (reg : Reg → Word) (mem : Word → Word)
    (distinct : (slots.map Prod.snd).Nodup) (small : ∀ slot ∈ slots, slot.2 < 2 ^ 64)
    (member : (r, offset) ∈ slots) :
    stored reg pa slots mem (place pa offset) = reg r := by
  induction slots generalizing mem with
  | nil => cases member
  | cons slot slots ih =>
      obtain ⟨fresh, distinct⟩ := List.nodup_cons.mp distinct
      obtain ⟨headSmall, restSmall⟩ := List.forall_mem_cons.mp small
      rcases List.mem_cons.mp member with rfl | member
      · rw [stored, stored_other, update_self]
        intro slot isSlot same
        rw [place_inj headSmall (restSmall slot isSlot) same] at fresh
        exact fresh (List.mem_map_of_mem isSlot)
      · exact ih _ distinct restSmall member

theorem loaded_other (mem : Word → Word) (reg : Reg → Word) (outside : r ∉ slots.map Prod.fst) :
    loaded mem pa slots reg r = reg r := by
  induction slots generalizing reg with
  | nil => rfl
  | cons slot slots ih =>
      rw [List.map_cons, List.mem_cons, not_or] at outside
      exact (ih _ outside.2).trans (update_of_ne outside.1 ..)

theorem loaded_slot (mem : Word → Word) (reg : Reg → Word)
    (distinct : (slots.map Prod.fst).Nodup) (member : (r, offset) ∈ slots) :
    loaded mem pa slots reg r = mem (place pa offset) := by
  induction slots generalizing reg with
  | nil => cases member
  | cons slot slots ih =>
      obtain ⟨fresh, distinct⟩ := List.nodup_cons.mp distinct
      rcases List.mem_cons.mp member with rfl | member
      · exact (loaded_other mem _ fresh).trans (update_self ..)
      · exact ih _ distinct member

end Frames

end Xv6.Assembly
