import Xv6.Vm.Loading
import Xv6.Vm.Translation

/-!
Contract: bytes go between the kernel and the user page by page.

Owns: the pages of the user and their bytes, and what `copyout`, `copyin` and `copyinstr` do
for arbitrary addresses and lengths: how far they come, which bytes they move, and that
nothing else changes.

Does not own: which process has which address space.
-/

namespace Xv6.Vm

open Xv6.Format
open Xv6.Kernel
open Xv6.Radix
open Function

variable {m m' m₁ : Memory} {pagetable : Addr} {va : Nat}

/-! ## Pages as bytes -/

theorem extract_word (b : Nat → Byte) {k : Nat} (small : k < 8) :
    (b 7 ++ b 6 ++ b 5 ++ b 4 ++ b 3 ++ b 2 ++ b 1 ++ b 0).extractLsb' (8 * k) 8 = b k := by
  apply BitVec.eq_of_getLsbD_eq
  intro i inside
  simp only [BitVec.getLsbD_extractLsb', BitVec.getLsbD_append, inside, decide_true, Bool.true_and]
  have places : k = 0 ∨ k = 1 ∨ k = 2 ∨ k = 3 ∨ k = 4 ∨ k = 5 ∨ k = 6 ∨ k = 7 := by omega
  rcases places with rfl | rfl | rfl | rfl | rfl | rfl | rfl | rfl
  all_goals grind

theorem Page.bytes_ofBytes (bytes : Bytes) {i : Nat} (inside : i < PGSIZE) :
    Page.bytes (Page.ofBytes bytes) i = bytes i := by
  unfold PGSIZE at inside
  have word : (Fin.ofNat 512 (i / 8)).val = i / 8 := by
    rw [Fin.val_ofNat, Nat.mod_eq_of_lt (by omega)]
  have place : 8 * (i / 8) + i % 8 = i := Nat.div_add_mod i 8
  rw [Page.bytes, Page.ofBytes, word]
  exact (extract_word (fun k => bytes (8 * (i / 8) + k)) (Nat.mod_lt i (by decide))).trans
    (congrArg bytes place)

theorem Page.bytes_zero (i : Nat) : Page.bytes (fun _ => 0) i = 0 := by
  rw [Page.bytes]
  exact BitVec.eq_of_getLsbD_eq fun _ _ => by simp

theorem store_writePage (m : Memory) (pa : Addr) (offset : Nat) (src : Bytes) (n : Nat) :
    (writePage m pa offset src n).store pa =
      Page.ofBytes (memmove (Page.bytes (m.store pa)) offset src n) :=
  update_self ..

theorem bytes_writePage (m : Memory) (pa : Addr) (offset : Nat) (src : Bytes) (n : Nat) {i : Nat}
    (inside : i < PGSIZE) :
    Page.bytes ((writePage m pa offset src n).store pa) i =
      if offset ≤ i ∧ i < offset + n then src (i - offset) else Page.bytes (m.store pa) i := by
  rw [store_writePage, Page.bytes_ofBytes _ inside]
  rfl

theorem store_writePage_of_ne (m : Memory) {pa a : Addr} (different : a ≠ pa) (offset : Nat)
    (src : Bytes) (n : Nat) : (writePage m pa offset src n).store a = m.store a :=
  update_of_ne different ..

/-! ## The pages of the user -/

/-- A page that the user may access, with its entry. -/
structure UserPage (m : Memory) (pagetable : Addr) (page : Nat) (pte : Pte) : Prop where
  inSpace : page < VPAGES
  isEntry : entries m pagetable page = some pte
  forUser : pte &&& PTE_U ≠ 0

def IsUser (m : Memory) (pagetable : Addr) (va : Nat) : Prop :=
  ∃ pte, UserPage m pagetable (va / PGSIZE) pte

/-- No page of the user is at the physical address 0, which `walkaddr` returns for "not mapped". -/
def NonNull (m : Memory) (pagetable : Addr) : Prop :=
  ∀ page pte, UserPage m pagetable page pte → PTE2PA pte ≠ 0

def Apart (m : Memory) (pagetable : Addr) : Prop :=
  ∀ page pte, UserPage m pagetable page pte → PTE2PA pte ∉ tableNodes m pagetable

def userByte (m : Memory) (pagetable : Addr) (va : Nat) : Option Byte :=
  (entries m pagetable (va / PGSIZE)).map fun pte => Page.bytes (m.store (PTE2PA pte)) (va % PGSIZE)

theorem userByte_eq {pte : Pte} (isEntry : entries m pagetable (va / PGSIZE) = some pte) :
    userByte m pagetable va = some (Page.bytes (m.store (PTE2PA pte)) (va % PGSIZE)) := by
  rw [userByte, isEntry]
  rfl

theorem UserPage.unique {page : Nat} {pte pte' : Pte} (isPage : UserPage m pagetable page pte)
    (isPage' : UserPage m pagetable page pte') : pte = pte' :=
  Option.some.inj (isPage.isEntry.symm.trans isPage'.isEntry)

theorem UserPage.congr {page : Nat} {pte : Pte} (same : entries m' pagetable = entries m pagetable)
    (isPage : UserPage m pagetable page pte) : UserPage m' pagetable page pte :=
  ⟨isPage.inSpace, by rw [same]; exact isPage.isEntry, isPage.forUser⟩

theorem isUser_congr (same : entries m' pagetable = entries m pagetable) (va : Nat) :
    IsUser m' pagetable va ↔ IsUser m pagetable va :=
  ⟨fun ⟨pte, isPage⟩ => ⟨pte, isPage.congr same.symm⟩, fun ⟨pte, isPage⟩ =>
    ⟨pte, isPage.congr same⟩⟩

theorem PGROUNDDOWN_div (va : Nat) : PGROUNDDOWN va / PGSIZE = va / PGSIZE := mul_PGSIZE_div _

theorem inSpace_iff (va : Nat) : va / PGSIZE < VPAGES ↔ PGROUNDDOWN va < MAXVA := by
  have whole : MAXVA = VPAGES * PGSIZE := by decide
  rw [whole, PGROUNDDOWN]
  exact (Nat.mul_lt_mul_right (by decide)).symm

theorem walkaddr_user (nonNull : NonNull m pagetable) (va : Nat) :
    (∃ pte, UserPage m pagetable (va / PGSIZE) pte ∧ PTE2PA pte ≠ 0 ∧
        walkaddr m pagetable (PGROUNDDOWN va) = .ok (PTE2PA pte)) ∨
      (¬ IsUser m pagetable va ∧ walkaddr m pagetable (PGROUNDDOWN va) = .ok 0) := by
  by_cases inSpace : PGROUNDDOWN va < MAXVA
  · have found := walkaddr_spec m pagetable inSpace
    rw [PGROUNDDOWN_div] at found
    cases isEntry : entries m pagetable (va / PGSIZE) with
    | none =>
        rw [isEntry] at found
        refine .inr ⟨fun ⟨pte, isPage⟩ => ?_, found⟩
        rw [isPage.isEntry] at isEntry
        cases isEntry
    | some pte =>
        rw [isEntry] at found
        dsimp only at found
        by_cases notForUser : pte &&& PTE_U = 0
        · rw [if_pos notForUser] at found
          refine .inr ⟨fun ⟨pte', isPage⟩ => ?_, found⟩
          rw [isPage.isEntry] at isEntry
          cases isEntry
          exact isPage.forUser notForUser
        · rw [if_neg notForUser] at found
          have isPage : UserPage m pagetable (va / PGSIZE) pte :=
            ⟨(inSpace_iff va).mpr inSpace, isEntry, notForUser⟩
          exact .inl ⟨pte, isPage, nonNull _ pte isPage, found⟩
  · exact .inr ⟨fun ⟨pte, isPage⟩ => inSpace ((inSpace_iff va).mp isPage.inSpace),
      if_pos (Nat.le_of_not_lt inSpace)⟩

/-! ## One round -/

/-- The bytes of one round are in one page. -/
structure Round (va len n : Nat) : Prop where
  positive : 0 < len → 0 < n
  le : n ≤ len
  page : ∀ i, i < n → (va + i) / PGSIZE = va / PGSIZE
  offset : ∀ i, i < n → (va + i) % PGSIZE = va - PGROUNDDOWN va + i
  fits : va - PGROUNDDOWN va + n ≤ PGSIZE
  next : n < len → PGROUNDDOWN va + PGSIZE = va + n

theorem round_spec (va len : Nat) : Round va len (min (PGSIZE - (va - PGROUNDDOWN va)) len) := by
  have isDown : PGROUNDDOWN va = va / PGSIZE * PGSIZE := rfl
  have isSize : PGSIZE = 4096 := rfl
  rw [isSize] at isDown
  constructor
  all_goals rw [isSize]; omega

/-! ## copyout -/

/-- The physical byte at a virtual address of the user. -/
def IsAt (m : Memory) (pagetable : Addr) (va : Nat) (pa : Addr) (offset : Nat) : Prop :=
  va % PGSIZE = offset ∧ ∃ pte, UserPage m pagetable (va / PGSIZE) pte ∧ PTE2PA pte = pa

theorem isAt_congr (same : entries m' pagetable = entries m pagetable) {va : Nat} {pa : Addr}
    {offset : Nat} : IsAt m' pagetable va pa offset ↔ IsAt m pagetable va pa offset :=
  ⟨fun ⟨isOffset, pte, isPage, isPa⟩ => ⟨isOffset, pte, isPage.congr same.symm, isPa⟩,
    fun ⟨isOffset, pte, isPage, isPa⟩ => ⟨isOffset, pte, isPage.congr same, isPa⟩⟩

/-- The first `t` bytes of the source are in memory from `dstva` on, and no other byte has
changed. If several addresses are at one physical byte, it has the byte for one of them. -/
structure CopiedOut (m m' : Memory) (pagetable : Addr) (dstva : Nat) (src : Bytes) (t : Nat) :
    Prop where
  nodes : tableNodes m' pagetable = tableNodes m pagetable
  entries : entries m' pagetable = entries m pagetable
  kept : ∀ pa offset, offset < PGSIZE → (∀ i, i < t → ¬ IsAt m pagetable (dstva + i) pa offset) →
    Page.bytes (m'.store pa) offset = Page.bytes (m.store pa) offset
  written : ∀ i pa offset, i < t → IsAt m pagetable (dstva + i) pa offset →
    ∃ j, j < t ∧ IsAt m pagetable (dstva + j) pa offset ∧ Page.bytes (m'.store pa) offset = src j

theorem CopiedOut.refl (m : Memory) (pagetable : Addr) (dstva : Nat) (src : Bytes) :
    CopiedOut m m pagetable dstva src 0 :=
  ⟨rfl, rfl, fun _ _ _ _ => rfl, fun _ _ _ none => absurd none (Nat.not_lt_zero _)⟩

variable {dstva t : Nat} {src : Bytes}

theorem CopiedOut.trans {n : Nat} (first : CopiedOut m m₁ pagetable dstva src n)
    (second : CopiedOut m₁ m' pagetable (dstva + n) (fun i => src (n + i)) t) :
    CopiedOut m m' pagetable dstva src (n + t) := by
  have later : ∀ {i pa offset}, IsAt m₁ pagetable (dstva + n + i) pa offset ↔
      IsAt m pagetable (dstva + (n + i)) pa offset := by
    intro i pa offset
    rw [isAt_congr first.entries, Nat.add_assoc]
  refine ⟨second.nodes.trans first.nodes, second.entries.trans first.entries,
    fun pa offset inside notAt => ?_, fun i pa offset below isAt => ?_⟩
  · rw [second.kept pa offset inside fun i below isAt => notAt (n + i) (by omega) (later.mp isAt),
      first.kept pa offset inside fun i below => notAt i (by omega)]
  · by_cases again : ∃ k, k < t ∧ IsAt m₁ pagetable (dstva + n + k) pa offset
    · obtain ⟨k, inSecond, isAtSecond⟩ := again
      obtain ⟨j, below', isAt', isByte⟩ := second.written k pa offset inSecond isAtSecond
      exact ⟨n + j, by omega, later.mp isAt', isByte⟩
    · have inFirst : i < n := by
        by_contra inSecond
        refine again ⟨i - n, by omega, later.mpr ?_⟩
        rwa [Nat.add_sub_cancel' (by omega)]
      obtain ⟨j, below', isAt', isByte⟩ := first.written i pa offset inFirst isAt
      refine ⟨j, by omega, isAt', ?_⟩
      rw [← isByte]
      refine second.kept pa offset (isAt.1 ▸ Nat.mod_lt _ (by decide)) fun k inSecond isAt => ?_
      exact again ⟨k, inSecond, isAt⟩

theorem copiedOut_page (src : Bytes) (apart : Apart m pagetable) {pte : Pte}
    (isPage : UserPage m pagetable (dstva / PGSIZE) pte) {len n : Nat} (round : Round dstva len n) :
    CopiedOut m (writePage m (PTE2PA pte) (dstva - PGROUNDDOWN dstva) src n) pagetable
      dstva src n := by
  have sameNodes : ∀ b ∈ tableNodes m pagetable,
      (writePage m (PTE2PA pte) (dstva - PGROUNDDOWN dstva) src n).store b = m.store b := by
    intro b isNode
    refine store_writePage_of_ne m ?_ _ _ _
    rintro rfl
    exact apart _ pte isPage isNode
  obtain ⟨nodes, sameEntries⟩ := table_congr sameNodes
  have isAt_iff : ∀ {i pa offset}, i < n → (IsAt m pagetable (dstva + i) pa offset ↔
      dstva - PGROUNDDOWN dstva + i = offset ∧ PTE2PA pte = pa) := by
    intro i pa offset below
    rw [IsAt, round.offset i below, round.page i below]
    constructor
    · rintro ⟨isOffset, pte', isPage', rfl⟩
      rw [isPage.unique isPage']
      exact ⟨isOffset, rfl⟩
    · rintro ⟨isOffset, rfl⟩
      exact ⟨isOffset, pte, isPage, rfl⟩
  refine ⟨nodes, sameEntries, fun pa offset inside notAt => ?_, fun i pa offset below isAt => ?_⟩
  · by_cases isSame : pa = PTE2PA pte
    · subst isSame
      rw [bytes_writePage m _ _ _ _ inside, if_neg]
      rintro ⟨low, high⟩
      refine notAt (offset - (dstva - PGROUNDDOWN dstva)) (by omega) ((isAt_iff (by omega)).mpr ?_)
      exact ⟨by omega, rfl⟩
    · rw [store_writePage_of_ne m isSame]
  · obtain ⟨isOffset, rfl⟩ := (isAt_iff below).mp isAt
    have fits := round.fits
    refine ⟨i, below, isAt, ?_⟩
    rw [bytes_writePage m _ _ _ _ (by omega), if_pos (by omega)]
    congr 1
    omega

theorem Apart.congr (apart : Apart m pagetable)
    (nodes : tableNodes m' pagetable = tableNodes m pagetable)
    (same : entries m' pagetable = entries m pagetable) : Apart m' pagetable := by
  intro page pte isPage
  rw [nodes]
  exact apart page pte (isPage.congr same.symm)

theorem NonNull.congr (nonNull : NonNull m pagetable)
    (same : entries m' pagetable = entries m pagetable) : NonNull m' pagetable :=
  fun page pte isPage => nonNull page pte (isPage.congr same.symm)

/-- `t` is the number of bytes, of at most `len`, up to the first that is not the user's. -/
structure Extent (m : Memory) (pagetable : Addr) (va len t : Nat) : Prop where
  le : t ≤ len
  user : ∀ i, i < t → IsUser m pagetable (va + i)
  ends : t < len → ¬ IsUser m pagetable (va + t)

theorem Extent.cons {len n : Nat} {pte : Pte} (isPage : UserPage m pagetable (va / PGSIZE) pte)
    (round : Round va len n) (rest : Extent m pagetable (va + n) (len - n) t) :
    Extent m pagetable va len (n + t) := by
  have le := round.le
  have restLe := rest.le
  refine ⟨by omega, fun i below => ?_, fun short => ?_⟩
  · by_cases inRound : i < n
    · rw [IsUser, round.page i inRound]
      exact ⟨pte, isPage⟩
    · have isUser := rest.user (i - n) (by omega)
      rwa [show va + n + (i - n) = va + i by omega] at isUser
  · have ends := rest.ends (by omega)
    rwa [Nat.add_assoc] at ends

theorem Extent.stopped (notUser : ¬ IsUser m pagetable va) (len : Nat) :
    Extent m pagetable va len 0 :=
  ⟨Nat.zero_le _, fun _ none => absurd none (Nat.not_lt_zero _), fun _ => notUser⟩

theorem Extent.nothing (m : Memory) (pagetable : Addr) (va : Nat) : Extent m pagetable va 0 0 :=
  ⟨Nat.le_refl 0, fun _ none => absurd none (Nat.not_lt_zero _),
    fun none => absurd none (Nat.lt_irrefl 0)⟩

theorem Extent.all_iff {len : Nat} (extent : Extent m pagetable va len t) :
    t = len ↔ ∀ i, i < len → IsUser m pagetable (va + i) := by
  constructor
  · rintro rfl
    exact extent.user
  · intro all
    by_contra short
    have less : t < len := Nat.lt_of_le_of_ne extent.le short
    exact extent.ends less (all t less)

theorem Extent.congr {len : Nat} (same : entries m' pagetable = entries m pagetable)
    (extent : Extent m' pagetable va len t) : Extent m pagetable va len t :=
  ⟨extent.le, fun i below => (isUser_congr same _).mp (extent.user i below),
    fun short isUser => extent.ends short ((isUser_congr same _).mpr isUser)⟩

/-- Where the next round starts: the address has not wrapped. -/
theorem Round.next_eq {len n : Nat} {pte : Pte} (round : Round va len n)
    (isPage : UserPage m pagetable (va / PGSIZE) pte) (more : n < len) :
    (PGROUNDDOWN va + PGSIZE) % 2 ^ 64 = va + n := by
  have inSpace := (inSpace_iff va).mp isPage.inSpace
  have isSize : PGSIZE = 4096 := rfl
  have isMax : MAXVA = 0x4000000000 := rfl
  rw [round.next more, Nat.mod_eq_of_lt]
  have next := round.next more
  omega

theorem copyoutLoop_zero (rounds : Nat) (m : Memory) (pagetable : Addr) (dstva : Nat)
    (src : Bytes) :
    copyoutLoop pagetable rounds m dstva src 0 = .ok (true, m) := by
  cases rounds with
  | zero => rfl
  | succ rounds => exact if_pos rfl

/-- **Rounds of `copyout`.** It copies the user's bytes up to the first that is not the user's. -/
theorem copyoutLoop_copies {rounds len : Nat} (enough : len ≤ rounds)
    (nonNull : NonNull m pagetable)
    (apart : Apart m pagetable) :
    ∃ m' t, copyoutLoop pagetable rounds m dstva src len = .ok (decide (t = len), m') ∧
      Extent m pagetable dstva len t ∧ CopiedOut m m' pagetable dstva src t := by
  induction rounds generalizing m dstva src len with
  | zero =>
      obtain rfl := Nat.le_zero.mp enough
      exact ⟨m, 0, rfl, .nothing m pagetable dstva, .refl m pagetable dstva src⟩
  | succ rounds ih =>
      rw [copyoutLoop]
      by_cases isDone : len = 0
      · subst isDone
        exact ⟨m, 0, rfl, .nothing m pagetable dstva, .refl m pagetable dstva src⟩
      · rw [if_neg isDone]
        rcases walkaddr_user nonNull dstva with ⟨pte, isPage, notNull, found⟩ | ⟨notUser, found⟩
        · simp only [found, if_neg notNull]
          have round := round_spec dstva len
          generalize min (PGSIZE - (dstva - PGROUNDDOWN dstva)) len = n at round ⊢
          have copied := copiedOut_page src apart isPage round
          have positive := round.positive (by omega)
          have le := round.le
          by_cases more : n < len
          · rw [round.next_eq isPage more]
            obtain ⟨m', t, ran, extent, rest⟩ := @ih _ (dstva + n)
              (fun i => src (n + i)) (len - n) (by omega) (nonNull.congr copied.entries)
              (apart.congr copied.nodes copied.entries)
            refine ⟨m', n + t, ?_, (extent.congr copied.entries).cons isPage round,
              copied.trans rest⟩
            have same : t = len - n ↔ n + t = len := by omega
            simp only [ran, same]
          · obtain rfl : n = len := by omega
            rw [Nat.sub_self, copyoutLoop_zero]
            refine ⟨_, n, by rw [decide_eq_true rfl], ?_, copied⟩
            have rest : Extent m pagetable (dstva + n) (n - n) 0 := by
              rw [Nat.sub_self]
              exact .nothing m pagetable _
            exact rest.cons isPage round
        · simp only [found, if_true]
          refine ⟨m, 0, ?_, .stopped notUser len, .refl m pagetable dstva src⟩
          rw [decide_eq_false (by omega)]

theorem copyout_copies (dstva : Nat) (src : Bytes) (len : Nat) (nonNull : NonNull m pagetable)
    (apart : Apart m pagetable) :
    ∃ m' t, copyout m pagetable dstva src len = .ok (decide (t = len), m') ∧
      Extent m pagetable dstva len t ∧ CopiedOut m m' pagetable dstva src t :=
  copyoutLoop_copies (Nat.le_refl len) nonNull apart

/-! ## copyin -/

theorem Round.userByte {len n : Nat} (round : Round va len n) {pte : Pte}
    (isPage : UserPage m pagetable (va / PGSIZE) pte) {i : Nat} (below : i < n) :
    userByte m pagetable (va + i) =
      some (Page.bytes (m.store (PTE2PA pte)) (va - PGROUNDDOWN va + i)) := by
  rw [← round.offset i below]
  exact userByte_eq (by rw [round.page i below]; exact isPage.isEntry)

/-- `t` of the user's bytes are in `dst` from `pos` on, and no other byte has changed. -/
structure CopiedIn (m : Memory) (pagetable : Addr) (dst dst' : Bytes) (pos srcva t : Nat) :
    Prop where
  copied : ∀ i, i < t → userByte m pagetable (srcva + i) = some (dst' (pos + i))
  kept : ∀ i, i < pos ∨ pos + t ≤ i → dst' i = dst i

variable {dst dst' dst₁ : Bytes} {pos srcva : Nat}

theorem copyinLoop_zero (rounds : Nat) (m : Memory) (pagetable : Addr) (dst : Bytes)
    (pos srcva : Nat) :
    copyinLoop m pagetable rounds dst pos srcva 0 = .ok (true, dst) := by
  cases rounds with
  | zero => rfl
  | succ rounds => exact if_pos rfl

def Distinct (m : Memory) (pagetable : Addr) : Prop :=
  ∀ page page' pte pte', UserPage m pagetable page pte → UserPage m pagetable page' pte' →
    PTE2PA pte = PTE2PA pte' → page = page'

theorem Distinct.congr (distinct : Distinct m pagetable)
    (same : entries m' pagetable = entries m pagetable) : Distinct m' pagetable :=
  fun page page' pte pte' isPage isPage' =>
    distinct page page' pte pte' (isPage.congr same.symm) (isPage'.congr same.symm)

theorem Distinct.isAt (distinct : Distinct m pagetable) {va va' : Nat} {pa : Addr} {offset : Nat}
    (isAt : IsAt m pagetable va pa offset) (isAt' : IsAt m pagetable va' pa offset) : va = va' := by
  obtain ⟨isOffset, pte, isPage, isPa⟩ := isAt
  obtain ⟨isOffset', pte', isPage', isPa'⟩ := isAt'
  have samePage := distinct _ _ pte pte' isPage isPage' (isPa.trans isPa'.symm)
  rw [← Nat.div_add_mod va PGSIZE, ← Nat.div_add_mod va' PGSIZE, samePage, isOffset, isOffset']

theorem CopiedOut.userByte (distinct : Distinct m pagetable)
    (copied : CopiedOut m m' pagetable dstva src t) {va : Nat} (isUser : IsUser m pagetable va) :
    userByte m' pagetable va =
      if dstva ≤ va ∧ va < dstva + t then some (src (va - dstva)) else userByte m pagetable va := by
  obtain ⟨pte, isPage⟩ := isUser
  have isAt : IsAt m pagetable va (PTE2PA pte) (va % PGSIZE) := ⟨rfl, pte, isPage, rfl⟩
  have inside : va % PGSIZE < PGSIZE := Nat.mod_lt va (by decide)
  rw [userByte_eq (by rw [copied.entries]; exact isPage.isEntry), userByte_eq isPage.isEntry]
  split
  · rename_i inRange
    have isSum : dstva + (va - dstva) = va := by omega
    obtain ⟨j, below, isAt', isByte⟩ := copied.written (va - dstva) (PTE2PA pte) (va % PGSIZE)
      (by omega) (by rwa [isSum])
    have same := distinct.isAt isAt isAt'
    rw [isByte, show j = va - dstva by omega]
  · rename_i outside
    rw [copied.kept _ _ inside fun i below isAt' => ?_]
    have same := distinct.isAt isAt isAt'
    omega

/-! ## Address spaces without page tables -/

/-- What `Kernel.Copy` has of the memory of a process: which pages are the user's, and the bytes
there. -/
structure Shows (m : Memory) (pagetable : Addr) (space : Kernel.Space) : Prop where
  mapped : ∀ va, space.mapped (PGROUNDDOWN va) = true ↔ IsUser m pagetable va
  bytes : ∀ va, IsUser m pagetable va → userByte m pagetable va = some (space.bytes va)

def shown (m : Memory) (pagetable : Addr) : Kernel.Space where
  mapped := fun va => walkaddr m pagetable va ≠ .ok 0
  bytes := fun va => (userByte m pagetable va).getD 0

theorem shows_shown (nonNull : NonNull m pagetable) : Shows m pagetable (shown m pagetable) := by
  refine ⟨fun va => ?_, fun va isUser => ?_⟩
  · rcases walkaddr_user nonNull va with ⟨pte, isPage, notNull, found⟩ | ⟨notUser, found⟩
    · refine iff_of_true (decide_eq_true ?_) ⟨pte, isPage⟩
      rw [found]
      exact fun same => notNull (Except.ok.inj same)
    · exact iff_of_false (by simp [shown, found]) notUser
  · obtain ⟨pte, isPage⟩ := isUser
    simp [shown, userByte_eq isPage.isEntry]

/-- **`copyin`** from the pages of a process is that of `Kernel.Copy` from its address space. -/
theorem Shows.copyinLoop {space : Kernel.Space} (shows : Shows m pagetable space)
    (nonNull : NonNull m pagetable) {rounds len : Nat} (enough : len ≤ rounds) :
    copyinLoop m pagetable rounds dst pos srcva len =
      .ok ((Kernel.copyinLoop space rounds dst pos srcva len).2,
        (Kernel.copyinLoop space rounds dst pos srcva len).1) := by
  induction rounds generalizing dst pos srcva len with
  | zero => rfl
  | succ rounds ih =>
      rw [Vm.copyinLoop, Kernel.copyinLoop]
      by_cases isDone : len = 0
      · rw [if_pos isDone, if_pos isDone]
      · rw [if_neg isDone, if_neg isDone]
        rcases walkaddr_user nonNull srcva with ⟨pte, isPage, notNull, found⟩ | ⟨notUser, found⟩
        · have isMapped := (shows.mapped srcva).mpr ⟨pte, isPage⟩
          simp only [found, if_neg notNull, if_pos isMapped]
          have round := round_spec srcva len
          generalize min (PGSIZE - (srcva - PGROUNDDOWN srcva)) len = n at round ⊢
          have sameBytes : memmove dst pos
              (fun i => Page.bytes (m.store (PTE2PA pte)) (srcva - PGROUNDDOWN srcva + i)) n =
                memmove dst pos (fun i => space.bytes (srcva + i)) n := by
            funext i
            rw [memmove, memmove]
            split
            · rename_i inside
              have isByte := round.userByte isPage (show i - pos < n by omega)
              rw [shows.bytes _ ⟨pte, by rw [round.page _ (by omega)]; exact isPage⟩] at isByte
              exact (Option.some.inj isByte).symm
            · rfl
          have positive := round.positive (by omega)
          have le := round.le
          rw [sameBytes]
          by_cases more : n < len
          · rw [round.next_eq isPage more, round.next more]
            exact ih (by omega)
          · obtain rfl : n = len := by omega
            rw [Nat.sub_self, copyinLoop_zero]
            cases rounds <;> rfl
        · have notMapped := mt (shows.mapped srcva).mp notUser
          simp only [found, if_true, if_neg notMapped]

/-- **Rounds of `copyin`.** -/
theorem copyinLoop_copies {rounds len : Nat} (enough : len ≤ rounds)
    (nonNull : NonNull m pagetable) :
    ∃ dst' t, copyinLoop m pagetable rounds dst pos srcva len = .ok (decide (t = len), dst') ∧
      Extent m pagetable srcva len t ∧ CopiedIn m pagetable dst dst' pos srcva t := by
  have shows := shows_shown nonNull
  generalize shown m pagetable = space at shows
  obtain ⟨le, covers, stops⟩ := space.available_spec true srcva len
  have extent : Extent m pagetable srcva len (space.available true srcva len) := by
    refine ⟨le, fun i below => (shows.mapped _).mp (covers rfl i below), fun short isUser => ?_⟩
    have isMapped := (shows.mapped _).mpr isUser
    rw [(stops short).2] at isMapped
    cases isMapped
  refine ⟨memmove dst pos (fun i => space.bytes (srcva + i)) (space.available true srcva len), _,
    by rw [shows.copyinLoop nonNull enough, copyinLoop_eq enough], extent, fun i below => ?_,
    fun i outside => ?_⟩
  · rw [shows.bytes _ (extent.user i below), memmove, if_pos (by omega), Nat.add_sub_cancel_left]
  · rw [memmove, if_neg (by omega)]

/-- **`copyout`** to the pages of a process is that of `Kernel.Copy` to its address space. -/
theorem Shows.copyoutLoop {space : Kernel.Space} (shows : Shows m pagetable space)
    (nonNull : NonNull m pagetable) (apart : Apart m pagetable) (distinct : Distinct m pagetable)
    {rounds len : Nat} (enough : len ≤ rounds) :
    ∃ m', copyoutLoop pagetable rounds m dstva src len =
        .ok ((Kernel.copyoutLoop rounds space dstva src len).2, m') ∧
      Shows m' pagetable (Kernel.copyoutLoop rounds space dstva src len).1 := by
  induction rounds generalizing m space dstva src len with
  | zero => exact ⟨m, rfl, shows⟩
  | succ rounds ih =>
      rw [Vm.copyoutLoop, Kernel.copyoutLoop]
      by_cases isDone : len = 0
      · rw [if_pos isDone, if_pos isDone]
        exact ⟨m, rfl, shows⟩
      · rw [if_neg isDone, if_neg isDone]
        rcases walkaddr_user nonNull dstva with ⟨pte, isPage, notNull, found⟩ | ⟨notUser, found⟩
        · have isMapped := (shows.mapped dstva).mpr ⟨pte, isPage⟩
          simp only [found, if_neg notNull, if_pos isMapped]
          have round := round_spec dstva len
          generalize min (PGSIZE - (dstva - PGROUNDDOWN dstva)) len = n at round ⊢
          have copied := copiedOut_page src apart isPage round
          have shows' : Shows (writePage m (PTE2PA pte) (dstva - PGROUNDDOWN dstva) src n) pagetable
              { space with bytes := memmove space.bytes dstva src n } := by
            refine ⟨fun va => ?_, fun va isUser => ?_⟩
            · rw [isUser_congr copied.entries]
              exact shows.mapped va
            · rw [isUser_congr copied.entries] at isUser
              rw [copied.userByte distinct isUser, shows.bytes va isUser]
              dsimp only [memmove]
              split <;> rfl
          have positive := round.positive (by omega)
          have le := round.le
          by_cases more : n < len
          · rw [round.next_eq isPage more, round.next more]
            exact ih shows' (nonNull.congr copied.entries)
              (apart.congr copied.nodes copied.entries) (distinct.congr copied.entries) (by omega)
          · obtain rfl : n = len := by omega
            rw [Nat.sub_self, copyoutLoop_zero]
            cases rounds with
            | zero => exact ⟨_, rfl, shows'⟩
            | succ rounds => exact ⟨_, rfl, shows'⟩
        · have notMapped := mt (shows.mapped dstva).mp notUser
          simp only [found, if_true, if_neg notMapped]
          exact ⟨m, rfl, shows⟩

/-- **`copyin` undoes `copyout`.** `copyout` succeeds exactly if all bytes of the range are the
user's; then `copyin` finds the source, and the user's other bytes are as before. -/
theorem copyin_undoes_copyout (nonNull : NonNull m pagetable) (apart : Apart m pagetable)
    (distinct : Distinct m pagetable) (dstva len : BitVec 64) (src : Bytes) :
    ∃ ok m', copyout m pagetable dstva.toNat src len.toNat = .ok (ok, m') ∧
      (ok = true ↔ ∀ va, dstva.toNat ≤ va → va < dstva.toNat + len.toNat → IsUser m pagetable va) ∧
      (ok = true →
        (∀ dst, ∃ dst', copyin m' pagetable dst dstva.toNat len.toNat = .ok (true, dst') ∧
          ∀ i, i < len.toNat → dst' i = src i) ∧
        ∀ va, IsUser m pagetable va → ¬ (dstva.toNat ≤ va ∧ va < dstva.toNat + len.toNat) →
          userByte m' pagetable va = userByte m pagetable va) := by
  obtain ⟨m', t, ran, extent, copied⟩ := copyout_copies dstva.toNat src len.toNat nonNull apart
  refine ⟨decide (t = len.toNat), m', ran, ?_, fun isOk => ?_⟩
  · rw [decide_eq_true_iff, extent.all_iff]
    constructor
    · intro all va low high
      have isUser := all (va - dstva.toNat) (by omega)
      rwa [Nat.add_sub_cancel' low] at isUser
    · exact fun all i below => all _ (by omega) (by omega)
  · obtain rfl := of_decide_eq_true isOk
    refine ⟨fun dst => ?_, fun va isUser outside => ?_⟩
    · obtain ⟨dst', t', ran', extent', copied'⟩ := @copyinLoop_copies m' pagetable dst 0 dstva.toNat
        len.toNat len.toNat (Nat.le_refl _) (nonNull.congr copied.entries)
      have all : t' = len.toNat := extent'.all_iff.mpr fun i below =>
        (isUser_congr copied.entries _).mpr (extent.user i below)
      subst all
      refine ⟨dst', ?_, fun i below => ?_⟩
      · rw [copyin, ran', decide_eq_true rfl]
      · have isByte := copied'.copied i below
        rw [copied.userByte distinct (extent.user i below), if_pos (by omega),
          Nat.add_sub_cancel_left, Nat.zero_add] at isByte
        exact (Option.some.inj isByte).symm
    · rw [copied.userByte distinct isUser, if_neg outside]

/-! ## copyinstr -/

/-- What the inner loop has done when it stops after `k` bytes, at a NUL or not. -/
structure Scanned (page : Bytes) (n p : Nat) (dst : Bytes) (pos k : Nat) (gotNull : Bool)
    (dst' : Bytes) : Prop where
  string : ∀ j, j < k → page (p + j) ≠ 0
  copied : ∀ j, j < k → dst' (pos + j) = page (p + j)
  null : gotNull = true → k < n ∧ page (p + k) = 0 ∧ dst' (pos + k) = 0
  whole : gotNull = false → k = n
  before : ∀ i, i < pos → dst' i = dst i
  after : ∀ i, pos + n ≤ i → dst' i = dst i

/-- **Rounds of the inner loop of `copyinstr`.** -/
theorem copyinstrPage_spec (page : Bytes) (n p : Nat) (dst : Bytes) (pos max : Nat) :
    ∃ gotNull dst' k, copyinstrPage page n p dst pos max = (gotNull, dst', pos + k, max - k) ∧
      Scanned page n p dst pos k gotNull dst' := by
  induction n generalizing p dst pos max with
  | zero =>
      exact ⟨false, dst, 0, rfl, fun _ none => absurd none (Nat.not_lt_zero _),
        fun _ none => absurd none (Nat.not_lt_zero _), nofun, fun _ => rfl, fun _ _ => rfl,
        fun _ _ => rfl⟩
  | succ n ih =>
      rw [copyinstrPage]
      by_cases isNull : page p = 0
      · rw [if_pos isNull]
        refine ⟨true, _, 0, rfl, fun _ none => absurd none (Nat.not_lt_zero _),
          fun _ none => absurd none (Nat.not_lt_zero _),
          fun _ => ⟨Nat.succ_pos n, isNull, update_self ..⟩, nofun, fun i low => ?_,
          fun i high => ?_⟩
        · exact update_of_ne (by omega) ..
        · exact update_of_ne (by omega) ..
      · rw [if_neg isNull]
        obtain ⟨gotNull, dst', k, ran, scanned⟩ := ih (p + 1)
          (update dst pos (page p)) (pos + 1) (max - 1)
        refine ⟨gotNull, dst', k + 1, ?_, fun j below => ?_, fun j below => ?_, fun isEnd => ?_,
          fun goesOn => ?_, fun i low => ?_, fun i high => ?_⟩
        · rw [ran, show pos + 1 + k = pos + (k + 1) by omega,
            show max - 1 - k = max - (k + 1) by omega]
        · cases j with
          | zero => exact isNull
          | succ j =>
              have notNull := scanned.string j (by omega)
              rwa [show p + 1 + j = p + (j + 1) by omega] at notNull
        · cases j with
          | zero =>
              rw [scanned.before (pos + 0) (by omega)]
              exact update_self ..
          | succ j =>
              have isByte := scanned.copied j (by omega)
              rwa [show p + 1 + j = p + (j + 1) by omega,
                show pos + 1 + j = pos + (j + 1) by omega] at isByte
        · obtain ⟨inside, atEnd, isZero⟩ := scanned.null isEnd
          rw [show p + 1 + k = p + (k + 1) by omega] at atEnd
          rw [show pos + 1 + k = pos + (k + 1) by omega] at isZero
          exact ⟨by omega, atEnd, isZero⟩
        · rw [scanned.whole goesOn]
        · rw [scanned.before i (by omega)]
          exact update_of_ne (by omega) ..
        · rw [scanned.after i (by omega)]
          exact update_of_ne (by omega) ..

/-- A string of the user with its NUL at byte `k`. -/
structure StringAt (m : Memory) (pagetable : Addr) (srcva k : Nat) : Prop where
  user : ∀ i, i ≤ k → IsUser m pagetable (srcva + i)
  null : userByte m pagetable (srcva + k) = some 0
  string : ∀ i, i < k → userByte m pagetable (srcva + i) ≠ some 0

theorem StringAt.unique {k k' : Nat} (first : StringAt m pagetable srcva k)
    (second : StringAt m pagetable srcva k') : k = k' := by
  rcases Nat.lt_trichotomy k k' with earlier | same | later
  · exact absurd first.null (second.string k earlier)
  · exact same
  · exact absurd second.null (first.string k' later)

theorem StringAt.cons_iff {len n k : Nat} {pte : Pte} (round : Round srcva len n)
    (isPage : UserPage m pagetable (srcva / PGSIZE) pte)
    (string : ∀ i, i < n → userByte m pagetable (srcva + i) ≠ some 0) :
    StringAt m pagetable srcva k ↔ n ≤ k ∧ StringAt m pagetable (srcva + n) (k - n) := by
  constructor
  · intro isString
    have notEarlier : n ≤ k := by
      by_contra earlier
      exact string k (by omega) isString.null
    refine ⟨notEarlier, fun i below => ?_, ?_, fun i below => ?_⟩
    · rw [Nat.add_assoc]
      exact isString.user (n + i) (by omega)
    · rw [Nat.add_assoc, Nat.add_sub_cancel' notEarlier]
      exact isString.null
    · rw [Nat.add_assoc]
      exact isString.string (n + i) (by omega)
  · rintro ⟨notEarlier, rest⟩
    have later : ∀ i, n ≤ i → srcva + i = srcva + n + (i - n) := fun i _ => by omega
    refine ⟨fun i below => ?_, ?_, fun i below => ?_⟩
    · by_cases inRound : i < n
      · rw [IsUser, round.page i inRound]
        exact ⟨pte, isPage⟩
      · rw [later i (by omega)]
        exact rest.user (i - n) (by omega)
    · rw [later k notEarlier]
      exact rest.null
    · by_cases inRound : i < n
      · exact string i inRound
      · rw [later i (by omega)]
        exact rest.string (i - n) (by omega)

/-- What `copyinstr` has done: it has found the NUL if there is one among the first `max` bytes. -/
structure CopiedString (m : Memory) (pagetable : Addr) (dst dst' : Bytes) (pos srcva max : Nat)
    (ok : Bool) : Prop where
  found_iff : ok = true ↔ ∃ k, k < max ∧ StringAt m pagetable srcva k
  copied : ∀ k, k < max → StringAt m pagetable srcva k →
    ∀ i, i ≤ k → userByte m pagetable (srcva + i) = some (dst' (pos + i))
  kept : ∀ i, i < pos ∨ pos + max ≤ i → dst' i = dst i

/-- There is no string at an address that is not the user's. -/
theorem CopiedString.failed (dst : Bytes) (pos max : Nat)
    (noString : ∀ k, k < max → ¬ StringAt m pagetable srcva k) :
    CopiedString m pagetable dst dst pos srcva max false :=
  ⟨⟨nofun, fun ⟨k, below, isString⟩ => absurd isString (noString k below)⟩,
    fun k below isString => absurd isString (noString k below), fun _ _ => rfl⟩

variable {len n k : Nat} {pte : Pte}

theorem CopiedString.found (round : Round srcva len n)
    (isPage : UserPage m pagetable (srcva / PGSIZE) pte)
    (scanned : Scanned (Page.bytes (m.store (PTE2PA pte))) n (srcva - PGROUNDDOWN srcva)
    dst pos k true dst') : CopiedString m pagetable dst dst' pos srcva len true := by
  obtain ⟨inside, atEnd, isZero⟩ := scanned.null rfl
  have le := round.le
  have isString : StringAt m pagetable srcva k := by
    refine ⟨fun i below => ?_, ?_, fun i below => ?_⟩
    · rw [IsUser, round.page i (by omega)]
      exact ⟨pte, isPage⟩
    · rw [round.userByte isPage inside, atEnd]
    · rw [round.userByte isPage (by omega)]
      exact fun isNull => scanned.string i below (Option.some.inj isNull)
  refine ⟨⟨fun _ => ⟨k, by omega, isString⟩, fun _ => rfl⟩, fun k' _ isString' i below => ?_,
    fun i outside => ?_⟩
  · obtain rfl := isString'.unique isString
    rw [round.userByte isPage (by omega)]
    by_cases isEnd : i = k'
    · rw [isEnd, atEnd, isZero]
    · rw [scanned.copied i (by omega)]
  · rcases outside with low | high
    · exact scanned.before i low
    · exact scanned.after i (by omega)

theorem CopiedString.cons {ok : Bool} (round : Round srcva len n)
    (isPage : UserPage m pagetable (srcva / PGSIZE) pte)
    (scanned : Scanned (Page.bytes (m.store (PTE2PA pte))) n (srcva - PGROUNDDOWN srcva) dst pos n
      false dst₁) (rest : CopiedString m pagetable dst₁ dst' (pos + n) (srcva + n) (len - n) ok) :
    CopiedString m pagetable dst dst' pos srcva len ok := by
  have le := round.le
  have string : ∀ i, i < n → userByte m pagetable (srcva + i) ≠ some 0 := by
    intro i below
    rw [round.userByte isPage below]
    exact fun isNull => scanned.string i below (Option.some.inj isNull)
  refine ⟨?_, fun k below isString i inString => ?_, fun i outside => ?_⟩
  · rw [rest.found_iff]
    constructor
    · rintro ⟨k, below, isString⟩
      refine ⟨n + k, by omega, (StringAt.cons_iff round isPage string).mpr ⟨by omega, ?_⟩⟩
      rwa [Nat.add_sub_cancel_left]
    · rintro ⟨k, below, isString⟩
      obtain ⟨notEarlier, isRest⟩ := (StringAt.cons_iff round isPage string).mp isString
      exact ⟨k - n, by omega, isRest⟩
  · obtain ⟨notEarlier, isRest⟩ := (StringAt.cons_iff round isPage string).mp isString
    by_cases inRound : i < n
    · rw [round.userByte isPage inRound, rest.kept (pos + i) (by omega), scanned.copied i inRound]
    · have isByte := rest.copied (k - n) (by omega) isRest (i - n) (by omega)
      rwa [show srcva + n + (i - n) = srcva + i by omega,
        show pos + n + (i - n) = pos + i by omega] at isByte
  · rw [rest.kept i (by omega)]
    rcases outside with low | high
    · exact scanned.before i low
    · exact scanned.after i (by omega)

theorem copyinstrLoop_zero (rounds : Nat) (m : Memory) (pagetable : Addr) (dst : Bytes)
    (pos srcva : Nat) : copyinstrLoop m pagetable rounds dst pos srcva 0 = .ok (false, dst) := by
  cases rounds with
  | zero => rfl
  | succ rounds => exact if_pos rfl

theorem copyinstrLoop_spec {rounds max : Nat} (enough : max < rounds)
    (nonNull : NonNull m pagetable) :
    ∃ ok dst', copyinstrLoop m pagetable rounds dst pos srcva max = .ok (ok, dst') ∧
      CopiedString m pagetable dst dst' pos srcva max ok := by
  induction rounds generalizing dst pos srcva max with
  | zero => exact absurd enough (Nat.not_lt_zero _)
  | succ rounds ih =>
      rw [copyinstrLoop]
      by_cases isDone : max = 0
      · subst isDone
        exact ⟨false, dst, rfl, .failed dst pos 0 fun _ none => absurd none (Nat.not_lt_zero _)⟩
      rw [if_neg isDone]
      rcases walkaddr_user nonNull srcva with ⟨pte, isPage, notNull, found⟩ | ⟨notUser, found⟩
      · simp only [found, if_neg notNull]
        have round := round_spec srcva max
        generalize min (PGSIZE - (srcva - PGROUNDDOWN srcva)) max = n at round ⊢
        have positive := round.positive (by omega)
        have le := round.le
        obtain ⟨gotNull, dst₁, k, ran, scanned⟩ := copyinstrPage_spec
          (Page.bytes (m.store (PTE2PA pte))) n (srcva - PGROUNDDOWN srcva) dst pos max
        rw [ran]
        cases gotNull with
        | true => exact ⟨true, dst₁, rfl, .found round isPage scanned⟩
        | false =>
            obtain rfl := scanned.whole rfl
            by_cases more : k < max
            · dsimp only
              rw [round.next_eq isPage more]
              obtain ⟨ok, dst', ran', rest⟩ := @ih dst₁ (pos + k) (srcva + k) (max - k)
                (by omega)
              exact ⟨ok, dst', ran', rest.cons round isPage scanned⟩
            · have isLast : max - k = 0 := by omega
              dsimp only
              rw [isLast, copyinstrLoop_zero]
              have rest : CopiedString m pagetable dst₁ dst₁ (pos + k) (srcva + k)
                  (max - k) false :=
                .failed dst₁ _ _ fun i below => by omega
              exact ⟨false, dst₁, rfl, rest.cons round isPage scanned⟩
      · simp only [found, if_true]
        refine ⟨false, dst, rfl, .failed dst pos max fun k below isString => notUser ?_⟩
        exact isString.user 0 (Nat.zero_le k)

/-- **`copyinstr`** finds the NUL among the first `max` bytes if they are the user's up to it, and
then has copied the string; it never writes more than `max` bytes. -/
theorem copyinstr_copies_string (nonNull : NonNull m pagetable) (srcva max : BitVec 64)
    (dst : Bytes) :
    ∃ ok dst', copyinstr m pagetable dst srcva.toNat max.toNat = .ok (ok, dst') ∧
      (ok = true ↔ ∃ k, k < max.toNat ∧ StringAt m pagetable srcva.toNat k) ∧
      (∀ k, k < max.toNat → StringAt m pagetable srcva.toNat k →
        ∀ i, i ≤ k → userByte m pagetable (srcva.toNat + i) = some (dst' i)) ∧
      ∀ i, max.toNat ≤ i → dst' i = dst i := by
  obtain ⟨ok, dst', ran, copied⟩ := @copyinstrLoop_spec m pagetable dst 0 srcva.toNat
    (max.toNat + 1) max.toNat (Nat.lt_succ_self _) nonNull
  refine ⟨ok, dst', ran, copied.found_iff, fun k below isString i inString => ?_,
    fun i outside => copied.kept i (.inr (by omega))⟩
  have isByte := copied.copied k below isString i inString
  rwa [Nat.zero_add] at isByte

/-! ## Pages without PTE_W -/

def IsWritable (m : Memory) (pagetable : Addr) (va : Nat) : Prop :=
  ∃ pte, entries m pagetable (va / PGSIZE) = some pte ∧ pte &&& PTE_U ≠ 0 ∧ pte &&& PTE_W ≠ 0

/-- `copyout` respects the permissions: only bytes at addresses that the user may write change,
and a range with another address is refused. -/
def Respects (m : Memory) (pagetable : Addr) (dstva : Nat) (src : Bytes) (len : Nat) : Prop :=
  ∃ ok m', copyout m pagetable dstva src len = .ok (ok, m') ∧
    (∀ va, userByte m' pagetable va ≠ userByte m pagetable va → IsWritable m pagetable va) ∧
    ((∃ i, i < len ∧ ¬ IsWritable m pagetable (dstva + i)) → ok = false)

/-- The addresses of the range, as far as they are the user's, have `PTE_W`, under each virtual
address of the physical byte. -/
def ReachedWritable (m : Memory) (pagetable : Addr) (dstva len : Nat) : Prop :=
  ∀ i, i < len → (∀ j, j ≤ i → IsUser m pagetable (dstva + j)) → ∀ pa offset,
    IsAt m pagetable (dstva + i) pa offset → ∀ va pte, va % PGSIZE = offset →
      entries m pagetable (va / PGSIZE) = some pte → PTE2PA pte = pa → IsWritable m pagetable va

/-- **`copyout` and `PTE_W`.** For all sources, `copyout` respects the permissions exactly if the
pages it comes to have `PTE_W`: it does not look at the flag. -/
theorem copyout_respects_iff (nonNull : NonNull m pagetable) (apart : Apart m pagetable)
    (dstva len : Nat) :
    (∀ src, Respects m pagetable dstva src len) ↔ ReachedWritable m pagetable dstva len := by
  constructor
  · intro respects i below reached pa offset isAt va pte isOffset isEntry isPa
    -- The source has at each address another byte than the memory.
    obtain ⟨ok, m', ran, onlyWritable, _⟩ :=
      respects fun k => ~~~((userByte m pagetable (dstva + k)).getD 0)
    obtain ⟨m'', t, ran', extent, copied⟩ := copyout_copies dstva
      (fun k => ~~~((userByte m pagetable (dstva + k)).getD 0)) len nonNull apart
    rw [ran'] at ran
    cases ran
    have inExtent : i < t := by
      by_contra beyond
      exact extent.ends (by omega) (reached t (by omega))
    obtain ⟨j, _, ⟨isOffset', pte', isPage', isPa'⟩, isByte⟩ :=
      copied.written i pa offset inExtent isAt
    apply onlyWritable
    rw [userByte_eq isEntry, userByte_eq (by rw [copied.entries]; exact isEntry), isPa, isOffset,
      isByte, userByte_eq isPage'.isEntry, isPa', isOffset', Option.getD_some]
    intro same
    have bit := congrArg (fun byte => byte.getLsbD 0) (Option.some.inj same)
    simp at bit
  · intro writable src
    obtain ⟨m', t, ran, extent, copied⟩ := copyout_copies dstva src len nonNull apart
    refine ⟨_, m', ran, fun va changed => ?_, fun ⟨i, below, notWritable⟩ => ?_⟩
    · cases isEntry : entries m pagetable (va / PGSIZE) with
      | none =>
          have isEntry' : entries m' pagetable (va / PGSIZE) = none := by
            rw [copied.entries, isEntry]
          rw [userByte, userByte, isEntry, isEntry'] at changed
          exact absurd rfl changed
      | some pte =>
          by_contra notWritable
          refine changed ?_
          rw [userByte_eq isEntry, userByte_eq (by rw [copied.entries]; exact isEntry)]
          rw [copied.kept _ _ (Nat.mod_lt va (by decide)) fun i below isAt => notWritable ?_]
          have le := extent.le
          exact writable i (by omega) (fun j earlier => extent.user j (by omega)) _ _
            isAt va pte rfl
            isEntry rfl
    · refine decide_eq_false fun all => notWritable ?_
      obtain ⟨pte, isPage⟩ := extent.user i (by omega)
      exact writable i below (fun j earlier => extent.user j (by omega)) (PTE2PA pte) _
        ⟨rfl, pte, isPage, rfl⟩ _ pte rfl isPage.isEntry rfl

/-! ## Spaces -/

section Space

variable {layout : Layout} {top : Nat → Option Pte} {n : Nat} {xperm : Pte}

theorem userPage_lt {page : Nat} {pte : Pte} (space : Space m pagetable top n)
    (notForUser : NotForUser top) (isPage : UserPage m pagetable page pte) : page < n := by
  by_contra isAbove
  have isEntry := isPage.isEntry
  rw [space.above page (Nat.le_of_not_lt isAbove)] at isEntry
  exact isPage.forUser (notForUser page pte isEntry)

theorem Space.nonNull (space : Space m pagetable top n)
    (owned : Owned layout m (spacePages m pagetable n)) (notForUser : NotForUser top) :
    NonNull m pagetable := by
  intro page pte isPage
  have isLeaf := mem_leafPages (userPage_lt space notForUser isPage) isPage.isEntry
  exact isPage_ne_zero (owned.pages _
    (Multiset.mem_add.mpr (.inr (Multiset.mem_add.mpr (.inl isLeaf)))))

theorem Space.apart (space : Space m pagetable top n)
    (owned : Owned layout m (spacePages m pagetable n)) (notForUser : NotForUser top) :
    Apart m pagetable := by
  intro page pte isPage isNode
  have isLeaf := mem_leafPages (userPage_lt space notForUser isPage) isPage.isEntry
  have once := (Multiset.nodup_add.mp owned.nodup).2.1
  exact Multiset.disjoint_left.mp (Multiset.nodup_add.mp once).2.2 isLeaf isNode

theorem Space.distinct (space : Space m pagetable top n)
    (owned : Owned layout m (spacePages m pagetable n)) (notForUser : NotForUser top) :
    Distinct m pagetable := by
  intro page page' pte pte' isPage isPage' same
  have leavesOnce := (Multiset.nodup_add.mp (Multiset.nodup_add.mp owned.nodup).2.1).1
  have inside := userPage_lt space notForUser isPage
  have inside' := userPage_lt space notForUser isPage'
  rcases Nat.lt_trichotomy page page' with before | isSame | after
  · exact absurd same (leafPages_ne leavesOnce before inside' isPage.isEntry isPage'.isEntry)
  · exact isSame
  · exact absurd same.symm (leafPages_ne leavesOnce after inside isPage'.isEntry isPage.isEntry)

/-- A table in which the first two pages are mapped for the user, with this permission. -/
structure TwoPages (m : Memory) (pagetable : Addr) (xperm : Pte) : Prop where
  nonNull : NonNull m pagetable
  apart : Apart m pagetable
  distinct : Distinct m pagetable
  mapped : ∀ page, page < 2 → ∃ pte, entries m pagetable page = some pte ∧
    PTE_FLAGS pte = userPerm xperm ||| PTE_V
  above : ∀ page, 2 ≤ page → entries m pagetable page = none

theorem twoPages_exist (small : xperm.toNat < 2 ^ 10)
    (isOk : (uvmalloc megabyteKernel blankTable 0x80200000 0 (2 * PGSIZE) xperm).map Prod.fst =
      .ok (2 * PGSIZE)) : ∃ m, TwoPages m 0x80200000 xperm := by
  have notForUser : NotForUser fun _ => none := by simp [NotForUser]
  have isBlank : Space blankTable 0x80200000 (fun _ => none) (npages 0) := by
    refine ⟨?_, fun page inside => absurd inside (Nat.not_lt_zero page), fun page _ => ?_⟩
    · exact pointers_blank fun _ => child_zero
    · rw [entries, lookup, validAt_blank rfl]
      exact ite_self _
  have isOwned : Owned megabyteKernel blankTable (spacePages blankTable 0x80200000 (npages 0)) := by
    rw [spacePages, npages_zero, leafPages_zero, zero_add]
    exact blankTable_wellFormed
  obtain ⟨size, m, ran, outcome⟩ :=
    uvmalloc_spec (2 * PGSIZE) small isBlank isOwned fun _ _ => rfl
  rw [ran] at isOk
  cases isOk
  rcases outcome with ⟨-, grown⟩ | ⟨isZero, -⟩
  · have isTwo : npages (max 0 (2 * PGSIZE)) = 2 := by decide
    have isNone : npages 0 = 0 := by decide
    rw [isTwo, isNone] at grown
    rw [isNone] at isOwned
    have owned := isOwned.moved grown.transfer
    refine ⟨m, grown.space.nonNull owned notForUser, grown.space.apart owned notForUser,
      grown.space.distinct owned notForUser, fun page inside => ?_, grown.space.above⟩
    obtain ⟨pte, isEntry, isFlags, -⟩ := grown.new page (Nat.zero_le page) inside
    exact ⟨pte, isEntry, isFlags⟩
  · cases isZero

theorem TwoPages.isUser (two : TwoPages m pagetable xperm) {va : Nat} (inside : va < 2 * PGSIZE) :
    IsUser m pagetable va := by
  have isPage : va / PGSIZE < 2 := (Nat.div_lt_iff_lt_mul (by decide)).mpr inside
  obtain ⟨pte, isEntry, isFlags⟩ := two.mapped _ isPage
  refine ⟨pte, isPage.trans (by decide), isEntry, ?_⟩
  rw [and_flag rfl, isFlags, user_iff]
  simp [PTE_U]

end Space

/-- Four bytes go to the end of one page and the beginning of the next, and come back. -/
theorem copyin_undoes_copyout_acrossPages : ∃ m, NonNull m 0x80200000 ∧ Apart m 0x80200000 ∧
    Distinct m 0x80200000 ∧ ∃ m',
      copyout m 0x80200000 4094 (fun i => [7, 8, 9, 10].getD i 0) 4 = .ok (true, m') ∧
      (∃ dst', copyin m' 0x80200000 (fun _ => 0) 4094 4 = .ok (true, dst') ∧
        dst' 0 = 7 ∧ dst' 1 = 8 ∧ dst' 2 = 9 ∧ dst' 3 = 10) ∧
      userByte m' 0x80200000 4098 = userByte m 0x80200000 4098 := by
  obtain ⟨m, two⟩ := twoPages_exist (show PTE_W.toNat < 2 ^ 10 by decide) (by decide +kernel)
  obtain ⟨ok, m', ran, ok_iff, done⟩ := copyin_undoes_copyout two.nonNull two.apart two.distinct
    4094 4 fun i => [7, 8, 9, 10].getD i 0
  have isOk : ok = true := ok_iff.mpr fun va low high => two.isUser (Nat.lt_trans high (by decide))
  subst isOk
  obtain ⟨reads, others⟩ := done rfl
  obtain ⟨dst', ran', isSource⟩ := reads fun _ => 0
  exact ⟨m, two.nonNull, two.apart, two.distinct, m', ran, ⟨dst', ran', isSource 0 (by decide),
    isSource 1 (by decide), isSource 2 (by decide), isSource 3 (by decide)⟩,
    others 4098 (two.isUser (by decide)) (by decide)⟩

/-- The string "ab" crosses the end of a page. -/
theorem copyinstr_copies_string_acrossPages : ∃ m, NonNull m 0x80200000 ∧
    StringAt m 0x80200000 4095 2 ∧
    ∃ dst', copyinstr m 0x80200000 (fun _ => 1) 4095 16 = .ok (true, dst') ∧
      dst' 0 = 0x61 ∧ dst' 1 = 0x62 ∧ dst' 2 = 0 ∧ dst' 16 = 1 := by
  obtain ⟨m₀, two⟩ := twoPages_exist (show PTE_W.toNat < 2 ^ 10 by decide) (by decide +kernel)
  obtain ⟨m, t, ran, extent, copied⟩ := copyout_copies 4095 (cstring [0x61, 0x62]) 3 two.nonNull
    two.apart
  have isAll : t = 3 := extent.all_iff.mpr fun i below => two.isUser (by unfold PGSIZE; omega)
  subst isAll
  have isUser : ∀ i, i ≤ 2 → IsUser m 0x80200000 (4095 + i) := fun i below =>
    (isUser_congr copied.entries _).mpr (extent.user i (by omega))
  have isByte : ∀ i, i ≤ 2 → userByte m 0x80200000 (4095 + i) = some (cstring [0x61, 0x62] i) := by
    intro i below
    rw [copied.userByte two.distinct (extent.user i (by omega)), if_pos (by omega),
      Nat.add_sub_cancel_left]
  have isString : StringAt m 0x80200000 4095 2 := by
    refine ⟨isUser, isByte 2 (by decide), fun i below => ?_⟩
    rw [isByte i (by omega)]
    interval_cases i <;> decide
  have nonNull := two.nonNull.congr copied.entries
  obtain ⟨ok, dst', ran', ok_iff, reads, rest⟩ := copyinstr_copies_string nonNull 4095 16 fun _ => 1
  obtain rfl : ok = true := ok_iff.mpr ⟨2, by decide, isString⟩
  have isCopied : ∀ i, i ≤ 2 → dst' i = cstring [0x61, 0x62] i := fun i below =>
    (Option.some.inj ((isByte i below).symm.trans (reads 2 (by decide) isString i below))).symm
  exact ⟨m, nonNull, isString, dst', ran', isCopied 0 (by decide), isCopied 1 (by decide),
    isCopied 2 (by decide), rest 16 (by decide)⟩

/-- A byte goes to a page that is not writable, such as one with the text of a program. -/
theorem copyout_overwrites_text : ∃ m src, NonNull m 0x80200000 ∧ Apart m 0x80200000 ∧
    ¬ Respects m 0x80200000 0 src 1 := by
  obtain ⟨m, two⟩ := twoPages_exist (show PTE_X.toNat < 2 ^ 10 by decide) (by decide +kernel)
  refine ⟨m, fun _ => 1, two.nonNull, two.apart, ?_⟩
  rintro ⟨ok, m', ran, _, refused⟩
  obtain ⟨m'', t, ran', extent, _⟩ := copyout_copies 0 (fun _ => 1) 1 two.nonNull two.apart
  have isAll : t = 1 := extent.all_iff.mpr fun i below => two.isUser (by unfold PGSIZE; omega)
  rw [ran', isAll] at ran
  cases ran
  have notOk := refused ⟨0, Nat.one_pos, ?_⟩
  · cases notOk
  · rintro ⟨pte, isEntry, _, writable⟩
    obtain ⟨pte', isEntry', isFlags⟩ := two.mapped 0 (by decide)
    obtain rfl : pte = pte' := Option.some.inj (isEntry.symm.trans isEntry')
    rw [and_flag rfl, isFlags] at writable
    exact writable (by decide)

/-- A page with `PTE_W` is written for the user. -/
theorem copyout_respects_iff_writable : ∃ m, NonNull m 0x80200000 ∧ Apart m 0x80200000 ∧
    ∀ src, Respects m 0x80200000 4094 src 4 := by
  obtain ⟨m, two⟩ := twoPages_exist (show PTE_W.toNat < 2 ^ 10 by decide) (by decide +kernel)
  refine ⟨m, two.nonNull, two.apart, (copyout_respects_iff two.nonNull two.apart 4094 4).mpr ?_⟩
  intro _ _ _ _ _ _ va pte _ isEntry _
  by_cases isMapped : va / PGSIZE < 2
  · obtain ⟨pte', isEntry', isFlags⟩ := two.mapped _ isMapped
    obtain rfl : pte = pte' := Option.some.inj (isEntry.symm.trans isEntry')
    refine ⟨pte, isEntry, ?_, ?_⟩
    · rw [and_flag rfl, isFlags]
      decide
    · rw [and_flag rfl, isFlags]
      decide
  · rw [two.above _ (Nat.le_of_not_lt isMapped)] at isEntry
    cases isEntry

end Xv6.Vm
