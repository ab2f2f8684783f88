import Xv6.Format.Codec
import Xv6.Kernel.Param

/-!
Contract: copying between kernel buffers and the memory of a process, as
`copyin` and `copyout` of `kernel/vm.c` do it page by page.

Owns: an address space as the pages `walkaddr` finds and the bytes in it,
`memmove`, `copyin`, `copyout` and `either_copyin`, `either_copyout` of
`kernel/proc.c`, that copying to pages that are there copies all bytes, and how far copying
from pages of which some are there comes.

Does not own: the page table itself; `Vm.Copying` shows that the loops over a page table do what
the loops here do. No address at or above `MAXVA` is mapped, so
that the 64-bit additions do not wrap before the loops stop.
-/

namespace Xv6.Kernel

open Xv6.Format

structure Space where
  /-- `walkaddr` finds a page at this page-aligned address. -/
  mapped : Nat → Bool
  bytes : Bytes

def memmove (dst : Bytes) (offset : Nat) (src : Bytes) (n : Nat) : Bytes :=
  fun i => if offset ≤ i ∧ i < offset + n then src (i - offset) else dst i

def PGROUNDDOWN (va : Nat) : Nat := va / PGSIZE * PGSIZE

/-- The loop of `copyin`; each round copies at least one byte, so that `len` rounds
are enough. The kernel buffer is written from `offset` on; the result says whether
the loop has come to its end. -/
def copyinLoop (space : Space) : Nat → Bytes → Nat → Nat → Nat → Bytes × Bool
  | 0, dst, _, _, _ => (dst, true)
  | rounds + 1, dst, offset, srcva, len =>
      if len = 0 then
        (dst, true)
      else
        let va0 := PGROUNDDOWN srcva
        if space.mapped va0 then
          let n := min (PGSIZE - (srcva - va0)) len
          copyinLoop space rounds (memmove dst offset (fun i => space.bytes (srcva + i)) n)
            (offset + n) (va0 + PGSIZE) (len - n)
        else
          (dst, false)

def copyin (space : Space) (dst : Bytes) (offset srcva len : Nat) : Bytes × Bool :=
  copyinLoop space len dst offset srcva len

def copyoutLoop : Nat → Space → Nat → Bytes → Nat → Space × Bool
  | 0, space, _, _, _ => (space, true)
  | rounds + 1, space, dstva, src, len =>
      if len = 0 then
        (space, true)
      else
        let va0 := PGROUNDDOWN dstva
        if space.mapped va0 then
          let n := min (PGSIZE - (dstva - va0)) len
          copyoutLoop rounds { space with bytes := memmove space.bytes dstva src n }
            (va0 + PGSIZE) (fun i => src (n + i)) (len - n)
        else
          (space, false)

def copyout (space : Space) (dstva : Nat) (src : Bytes) (len : Nat) : Space × Bool :=
  copyoutLoop len space dstva src len

theorem PGROUNDDOWN_le (va : Nat) : PGROUNDDOWN va ≤ va := Nat.div_mul_le_self va PGSIZE

theorem lt_PGROUNDDOWN_add (va : Nat) : va < PGROUNDDOWN va + PGSIZE := by
  have split := Nat.div_add_mod' va PGSIZE
  have rest := Nat.mod_lt va (show 0 < PGSIZE by decide)
  unfold PGROUNDDOWN
  omega

theorem copyin_one (space : Space) (dst : Bytes) (srcva : Nat) :
    copyin space dst 0 srcva 1 =
      if space.mapped (PGROUNDDOWN srcva) then
        (memmove dst 0 (fun i => space.bytes (srcva + i)) 1, true)
      else
        (dst, false) := by
  have below := PGROUNDDOWN_le srcva
  have above := lt_PGROUNDDOWN_add srcva
  have one : min (PGSIZE - (srcva - PGROUNDDOWN srcva)) 1 = 1 := by omega
  simp only [copyin, copyinLoop, one]
  rfl

theorem copyout_one (space : Space) (dstva : Nat) (src : Bytes) :
    copyout space dstva src 1 =
      if space.mapped (PGROUNDDOWN dstva) then
        ({ space with bytes := memmove space.bytes dstva src 1 }, true)
      else
        (space, false) := by
  have below := PGROUNDDOWN_le dstva
  have above := lt_PGROUNDDOWN_add dstva
  have one : min (PGSIZE - (dstva - PGROUNDDOWN dstva)) 1 = 1 := by omega
  simp only [copyout, copyoutLoop, one]
  rfl

/-- `either_copyin`; without `user` the source is kernel memory. -/
def eitherCopyin (space : Space) (dst : Bytes) (offset : Nat) (user : Bool) (src len : Nat) :
    Bytes × Bool :=
  if user then
    copyin space dst offset src len
  else
    (memmove dst offset (fun i => space.bytes (src + i)) len, true)

def eitherCopyout (space : Space) (user : Bool) (dst : Nat) (src : Bytes) (len : Nat) :
    Space × Bool :=
  if user then
    copyout space dst src len
  else
    ({ space with bytes := memmove space.bytes dst src len }, true)

/-! ## Copying to pages that are there -/

theorem memmove_zero (dst : Bytes) (offset : Nat) (src : Bytes) :
    memmove dst offset src 0 = dst := by
  funext i
  rw [memmove, if_neg (by omega)]

theorem memmove_memmove (dst : Bytes) (offset : Nat) (src : Bytes) (n m : Nat) :
    memmove (memmove dst offset src n) (offset + n) (fun i => src (n + i)) m =
      memmove dst offset src (n + m) := by
  funext i
  unfold memmove
  by_cases first : offset ≤ i ∧ i < offset + n
  · rw [if_neg (by omega), if_pos first, if_pos (by omega)]
  · by_cases second : offset + n ≤ i ∧ i < offset + n + m
    · rw [if_pos second, if_pos (by omega)]
      exact congrArg src (by omega)
    · rw [if_neg second, if_neg first, if_neg (by omega)]

def Space.store (space : Space) (dst : Nat) (src : Bytes) (n : Nat) : Space :=
  { space with bytes := memmove space.bytes dst src n }

theorem Space.bytes_store (space : Space) (dst : Nat) (src : Bytes) (n : Nat) :
    (space.store dst src n).bytes = memmove space.bytes dst src n := rfl

theorem Space.store_zero (space : Space) (dst : Nat) (src : Bytes) :
    space.store dst src 0 = space := by
  rw [store, memmove_zero]

theorem Space.store_store (space : Space) (dst : Nat) (src : Bytes) (n m : Nat) :
    (space.store dst src n).store (dst + n) (fun i => src (n + i)) m =
    space.store dst src (n + m) := by
  rw [store, store, memmove_memmove, store]

variable {space : Space} {n len src dst rounds m : Nat} {user : Bool}

theorem Space.store_congr {src src' : Bytes} (agree : ∀ i, i < n → src i = src' i) :
    space.store dst src n = space.store dst src' n := by
  refine congrArg (fun bytes => { space with bytes }) (funext fun i => ?_)
  unfold memmove
  split
  · rename_i inside
    exact agree _ (by omega)
  · rfl

/-- The destination is kernel memory, or each of its pages is there. -/
def Writable (space : Space) (user : Bool) (dst n : Nat) : Prop :=
  user = true → ∀ va, dst ≤ va → va < dst + n → space.mapped (PGROUNDDOWN va) = true

theorem copyoutLoop_writable (enough : len ≤ rounds) (space : Space) (dstva : Nat) (src : Bytes)
    (writable : Writable space true dstva len) :
    copyoutLoop rounds space dstva src len =
      (space.store dstva src len, true) := by
  induction rounds generalizing space dstva src len with
  | zero =>
      obtain rfl : len = 0 := by omega
      rw [space.store_zero]
      rfl
  | succ rounds ih =>
      unfold copyoutLoop
      by_cases done : len = 0
      · rw [if_pos done, done, space.store_zero]
      · have below := PGROUNDDOWN_le dstva
        have above := lt_PGROUNDDOWN_add dstva
        have isMapped := writable rfl dstva (Nat.le_refl _) (by omega)
        simp only [done, if_false, isMapped, if_true]
        generalize part : min (PGSIZE - (dstva - PGROUNDDOWN dstva)) len = n
        change copyoutLoop rounds (space.store dstva src n) _ _ _ = _
        -- The rest is on the next page, unless there is none.
        rcases Nat.lt_or_ge n len with more | last
        · have next : PGROUNDDOWN dstva + PGSIZE = dstva + n := by omega
          rw [next, ih (by omega), space.store_store]
          · rw [show n + (len - n) = len by omega]
          · intro isUser va low high
            exact writable isUser va (by omega) (by omega)
        · obtain rfl : n = len := by omega
          rw [Nat.sub_self, ih (Nat.zero_le _), Space.store_zero]
          intro _ va low high
          omega

theorem eitherCopyout_writable (src : Bytes) (writable : Writable space user dst len) :
    eitherCopyout space user dst src len =
      (space.store dst src len, true) := by
  unfold eitherCopyout
  cases user with
  | false => rfl
  | true => exact copyoutLoop_writable (Nat.le_refl _) space dst src writable

/-! ## Copying from pages of which some are there -/

/-- The number of bytes from `src` on, at most `n`, that come before the first page that is
not there. Kernel memory is there. -/
def Space.available (space : Space) (user : Bool) (src n : Nat) : Nat :=
  if user then
    ((List.range n).find? fun i => !space.mapped (PGROUNDDOWN (src + i))).getD n
  else
    n

/-- Each page with a byte of these is there. -/
def Space.Covers (space : Space) (va n : Nat) : Prop :=
  ∀ i, i < n → space.mapped (PGROUNDDOWN (va + i)) = true

theorem Space.available_spec (space : Space) (user : Bool) (src n : Nat) :
    space.available user src n ≤ n ∧
      (user = true → space.Covers src (space.available user src n)) ∧
      (space.available user src n < n → user = true ∧
        space.mapped (PGROUNDDOWN (src + space.available user src n)) = false) := by
  unfold available
  cases user with
  | false => exact ⟨Nat.le_refl n, nofun, fun less => absurd less (Nat.lt_irrefl n)⟩
  | true =>
      simp only [if_true]
      cases found : (List.range n).find? fun i => !space.mapped (PGROUNDDOWN (src + i)) with
      | none =>
          refine ⟨Nat.le_refl n, fun _ i below => ?_, fun less => absurd less (Nat.lt_irrefl n)⟩
          have isThere := List.find?_eq_none.mp found i (List.mem_range.mpr below)
          simpa using isThere
      | some i =>
          obtain ⟨isAbsent, below, first⟩ := List.find?_range_eq_some.mp found
          refine ⟨Nat.le_of_lt (List.mem_range.mp below), fun _ j before => ?_, fun _ =>
            ⟨trivial, ?_⟩⟩
          · simpa using first j before
          · simpa using isAbsent

theorem Space.available_eq {k : Nat} (atMost : k ≤ n) (covers : user = true → space.Covers src k)
    (stops : k < n → user = true ∧ space.mapped (PGROUNDDOWN (src + k)) = false) :
    space.available user src n = k := by
  obtain ⟨atMost', covers', stops'⟩ := space.available_spec user src n
  generalize space.available user src n = a at *
  rcases Nat.lt_trichotomy a k with less | same | greater
  · obtain ⟨isUser, absent⟩ := stops' (by omega)
    rw [covers isUser a less] at absent
    cases absent
  · exact same
  · obtain ⟨isUser, absent⟩ := stops (by omega)
    rw [covers' isUser k greater] at absent
    cases absent

theorem Space.available_of_covers (covers : user = true → space.Covers src n) :
    space.available user src n = n :=
  available_eq (Nat.le_refl n) covers fun less => absurd less (Nat.lt_irrefl n)

theorem Space.available_take (space : Space) (user : Bool) (src : Nat) (part : m ≤ n) :
    space.available user src m = min m (space.available user src n) := by
  obtain ⟨atMost, covers, stops⟩ := space.available_spec user src n
  apply available_eq (Nat.min_le_left ..)
  · intro isUser i below
    exact covers isUser i (by omega)
  · intro less
    rw [Nat.min_eq_right (by omega)]
    exact stops (by omega)

theorem Space.available_drop (reached : m ≤ space.available user src n) :
    space.available user src n = m + space.available user (src + m) (n - m) := by
  obtain ⟨atMost, covers, stops⟩ := space.available_spec user src n
  have rest : space.available user (src + m) (n - m) = space.available user src n - m := by
    apply available_eq (by omega)
    · intro isUser i below
      rw [Nat.add_assoc]
      exact covers isUser (m + i) (by omega)
    · intro less
      rw [show src + m + (space.available user src n - m) =
        src + space.available user src n by omega]
      exact stops (by omega)
  omega

theorem PGROUNDDOWN_add {va i : Nat} (samePage : va + i < PGROUNDDOWN va + PGSIZE) :
    PGROUNDDOWN (va + i) = PGROUNDDOWN va := by
  have below := PGROUNDDOWN_le va
  unfold PGROUNDDOWN PGSIZE at *
  omega

theorem copyinLoop_eq (enough : len ≤ rounds) (space : Space) (dst : Bytes) (offset srcva : Nat) :
    copyinLoop space rounds dst offset srcva len =
      (memmove dst offset (fun i => space.bytes (srcva + i)) (space.available true srcva len),
        decide (space.available true srcva len = len)) := by
  induction rounds generalizing dst offset srcva len with
  | zero =>
      obtain rfl : len = 0 := by omega
      rw [Space.available_of_covers fun _ _ below => absurd below (Nat.not_lt_zero _), memmove_zero]
      rfl
  | succ rounds ih =>
      unfold copyinLoop
      by_cases done : len = 0
      · subst done
        rw [if_pos rfl, Space.available_of_covers fun _ _ below => absurd below (Nat.not_lt_zero _),
          memmove_zero]
        rfl
      · have below := PGROUNDDOWN_le srcva
        have above := lt_PGROUNDDOWN_add srcva
        rw [if_neg done]
        dsimp only
        cases isMapped : space.mapped (PGROUNDDOWN srcva) with
        | false =>
            have nothing : space.available true srcva len = 0 :=
              Space.available_eq (Nat.zero_le _)
                (fun _ _ before => absurd before (Nat.not_lt_zero _))
                fun _ => ⟨rfl, isMapped⟩
            rw [nothing, memmove_zero, decide_eq_false (Ne.symm done)]
            rfl
        | true =>
            rw [if_pos rfl]
            generalize part : min (PGSIZE - (srcva - PGROUNDDOWN srcva)) len = n
            -- The first part lies in the page of `srcva`.
            have covers : space.Covers srcva n := fun i inPart => by
              rw [PGROUNDDOWN_add (by omega)]
              exact isMapped
            have reached : n ≤ space.available true srcva len := by
              have taken := space.available_take true srcva (show n ≤ len by omega)
              rw [Space.available_of_covers fun _ => covers] at taken
              omega
            have rest := Space.available_drop reached
            rw [ih (by omega)]
            -- The rest is on the next page, unless there is none.
            rcases Nat.lt_or_ge n len with more | last
            · have next : PGROUNDDOWN srcva + PGSIZE = srcva + n := by omega
              have shifted : (fun i => space.bytes (srcva + n + i)) =
                  fun i => (fun i => space.bytes (srcva + i)) (n + i) := by
                funext i
                rw [Nat.add_assoc]
              rw [next, shifted, memmove_memmove, ← rest]
              refine Prod.ext rfl (decide_eq_decide.mpr ?_)
              omega
            · obtain rfl : n = len := by omega
              have nothing : space.available true (PGROUNDDOWN srcva + PGSIZE) (n - n) = 0 := by
                rw [Nat.sub_self]
                exact Space.available_of_covers fun _ _ before => absurd before (Nat.not_lt_zero _)
              rw [nothing, memmove_zero, Space.available_of_covers fun _ => covers, Nat.sub_self]
              simp

/-- **`either_copyin` copies what comes before the first page that is not there.** -/
theorem eitherCopyin_eq (space : Space) (dst : Bytes) (offset : Nat) (user : Bool) (src len : Nat) :
    eitherCopyin space dst offset user src len =
      (memmove dst offset (fun i => space.bytes (src + i)) (space.available user src len),
        decide (space.available user src len = len)) := by
  unfold eitherCopyin
  cases user with
  | false =>
      have all : space.available false src len = len := Space.available_of_covers nofun
      rw [all, decide_eq_true rfl]
      rfl
  | true => exact copyinLoop_eq (Nat.le_refl _) space dst offset src

end Xv6.Kernel
