import EmuCore.Lib.Align
import EmuCore.Memory.RangeLock

namespace EmuCore.Memory

open Nat

def sub64 (a b : Nat) : Nat := (a + 2 ^ 64 - b) % 2 ^ 64

def lockAddr (slot : BitVec 64) : Nat := (slot.truncate 32).toNat

def lockSize (slot : BitVec 64) : Nat := (slot >>> 32).toNat

namespace RangeLocks

variable (locks : RangeLocks)

def translate (addr hi : Nat) : Nat := (sharedAddress (.ofNat 64 addr) (locks.shmem hi)).toNat

-- The pages from `hi` on, of which `left` are left.
def meets (point : Nat) : Nat -> Nat -> Nat -> Nat -> Bool
  | 0, _, _, _ => false
  | left + 1, hi, addr2, size2 =>
    let size3 := min (addr2 + size2) (Align.up 64 addr2 (2 ^ 16)) - addr2
    let addr3 := locks.translate addr2 hi
    if sub64 point (addr3 / 128) ≤ sub64 (sub64 (addr3 + size3) 1 / 128) (addr3 / 128) then true
    else meets point left (hi + 1) (addr2 + size3) (size2 - size3)

variable (addr : BitVec 32) (slot : BitVec 64)

-- The test that writer_lock hands to for_all_range_locks, with the slot it is called for.
def blocksWriter : Bool :=
  let addr2 := lockAddr slot
  let size2 := lockSize slot
  if size2 = 0 ∨ size2 >>> 29 = 2 then false
  else
    let hi := addr2 / 65536
    let max := (addr2 + size2 - 1) / 65536
    locks.meets (locks.translate addr.toNat (addr.toNat / 65536) / 128) (max + 1 - hi) hi addr2 size2

def Touches : Prop :=
  ∃ x, lockAddr slot ≤ x ∧ x < lockAddr slot + lockSize slot ∧
    locks.translate x (x / 65536) / 128 = locks.translate addr.toNat (addr.toNat / 65536) / 128

end RangeLocks

open RangeLocks

-- Addresses in memory that is mapped several times start at a page.
def Paged (locks : RangeLocks) : Prop := ∀ hi, 65536 ∣ (locks.shmem hi).toNat

variable {locks : RangeLocks} {point hi addr2 size2 : Nat}

lemma translate_page (paged : Paged locks) (low : hi < 65536) :
    ∃ base, 65536 ∣ base ∧ base + 65536 ≤ 2 ^ 64 ∧ ∀ a, a / 65536 = hi ->
      locks.translate a hi = base + a % 65536 := by
  have exact_ (a : Nat) (page : a / 65536 = hi) : (BitVec.ofNat 64 a).toNat = a :=
    Nat.mod_eq_of_lt (by omega)
  by_cases mapped : locks.shmem hi = 0
  · refine ⟨hi * 65536, ⟨hi, mul_comm _ _⟩, by omega, fun a page => ?_⟩
    rw [RangeLocks.translate, sharedAddress, if_neg (not_not.mpr mapped), exact_ a page]
    omega
  obtain ⟨m, same⟩ := paged hi
  refine ⟨65536 * m, ⟨m, rfl⟩, by omega, fun a page => ?_⟩
  have inside : (BitVec.ofNat 64 a &&& 0xffff).toNat = a % 2 ^ 16 := by
    rw [BitVec.toNat_and, exact_ a page]
    exact Nat.and_two_pow_sub_one_eq_mod a 16
  rw [RangeLocks.translate, sharedAddress, if_pos mapped, BitVec.toNat_or, inside, Nat.or_comm, same]
  exact (Nat.two_pow_add_eq_or_of_lt (Nat.mod_lt a (Nat.two_pow_pos 16)) m).symm

lemma meets_boundary (paged : Paged locks) (low : hi < 65536) (page : addr2 / 65536 = hi)
    (boundary : addr2 % 65536 = 0) (small : point < 2 ^ 57) (left : Nat) :
    locks.meets point (left + 1) hi addr2 size2 = true := by
  obtain ⟨base, whole, _, places⟩ := translate_page paged low
  have up : Align.up 64 addr2 (2 ^ 16) = addr2 :=
    Align.up_of_dvd (by omega) (by decide) (dvd_of_mod_eq_zero boundary)
  rw [meets, places addr2 page, up, if_pos]
  unfold sub64
  omega

lemma up_inside (low : hi < 65536) (page : addr2 / 65536 = hi) (inside : addr2 % 65536 ≠ 0) :
    Align.up 64 addr2 (2 ^ 16) = (hi + 1) * 65536 := by
  rw [Align.up_two_pow (by omega) (by decide)]
  omega

lemma meets_next (paged : Paged locks) (next : hi + 1 < 65536) (page : addr2 / 65536 = hi)
    (inside : addr2 % 65536 ≠ 0) (small : point < 2 ^ 57) (beyond : (hi + 1) * 65536 < addr2 + size2) (left : Nat) :
    locks.meets point (left + 2) hi addr2 size2 = true := by
  rw [meets, up_inside (by omega) page inside]
  split
  next => rfl
  next => exact meets_boundary paged next (by omega) (by omega) small left

lemma meets_page (paged : Paged locks) (low : hi < 65536) (page : addr2 / 65536 = hi)
    (inside : addr2 % 65536 ≠ 0) (small : point < 2 ^ 57) (some : 0 < size2) (last : addr2 + size2 ≤ (hi + 1) * 65536) :
    locks.meets point 1 hi addr2 size2 = true ↔
      ∃ x, addr2 ≤ x ∧ x < addr2 + size2 ∧ locks.translate x (x / 65536) / 128 = point := by
  obtain ⟨base, whole, high, places⟩ := translate_page paged low
  have lines : locks.meets point 1 hi addr2 size2 = true ↔
      (base + addr2 % 65536) / 128 ≤ point ∧ point ≤ (base + addr2 % 65536 + size2 - 1) / 128 := by
    rw [meets, places addr2 page, up_inside low page inside, min_eq_left last, Nat.add_sub_cancel_left, meets]
    unfold sub64
    split <;> simp <;> omega
  rw [lines]
  constructor
  · rintro ⟨first, final⟩
    refine ⟨max addr2 (addr2 + (point * 128 - (base + addr2 % 65536))), by omega, by omega, ?_⟩
    rw [show _ / 65536 = hi by omega, places _ (by omega)]
    omega
  · rintro ⟨x, first, final, rfl⟩
    rw [show x / 65536 = hi by omega, places x (by omega)]
    omega

-- A range inside one page that does not start where the page starts.
def Inside (slot : BitVec 64) : Prop :=
  lockAddr slot % 65536 ≠ 0 ∧ lockAddr slot % 65536 + lockSize slot ≤ 65536

lemma blocksWriter_iff (paged : Paged locks) (addr : BitVec 32) {slot : BitVec 64} (some : 0 < lockSize slot)
    (reader : lockSize slot < 2 ^ 29) (fits : lockAddr slot + lockSize slot ≤ 2 ^ 32) :
    locks.blocksWriter addr slot = true ↔ locks.Touches addr slot ∨ ¬Inside slot := by
  have small : locks.translate addr.toNat (addr.toNat / 65536) / 128 < 2 ^ 57 := by
    have := (sharedAddress (.ofNat 64 addr.toNat) (locks.shmem (addr.toNat / 65536))).isLt
    unfold RangeLocks.translate
    omega
  have kind : ¬(lockSize slot = 0 ∨ lockSize slot >>> 29 = 2) := by
    rw [shiftRight_eq_div_pow]
    omega
  rw [blocksWriter, if_neg kind, Inside]
  dsimp only
  by_cases boundary : lockAddr slot % 65536 = 0
  · rw [succ_sub (by omega), meets_boundary paged (by omega) rfl boundary small]
    simp [boundary]
  by_cases last : lockAddr slot % 65536 + lockSize slot ≤ 65536
  · rw [show (lockAddr slot + lockSize slot - 1) / 65536 = lockAddr slot / 65536 by omega, Nat.add_sub_cancel_left,
      meets_page paged (by omega) rfl boundary small some (by omega)]
    simp [boundary, last, Touches]
  · obtain ⟨left, pages⟩ : ∃ left,
        (lockAddr slot + lockSize slot - 1) / 65536 + 1 - lockAddr slot / 65536 = left + 2 :=
      Nat.exists_eq_add_of_le' (by omega)
    rw [pages, meets_next paged (by omega) rfl boundary small (by omega)]
    simp [last]

theorem writer_lock_exact_iff (locks : RangeLocks) (paged : Paged locks) (addr : BitVec 32) (slot : BitVec 64)
    (some : 0 < lockSize slot) (reader : lockSize slot < 2 ^ 29) (fits : lockAddr slot + lockSize slot ≤ 2 ^ 32) :
    (locks.blocksWriter addr slot = true ↔ locks.Touches addr slot) ↔ locks.Touches addr slot ∨ Inside slot := by
  rw [blocksWriter_iff paged addr some reader fits]
  tauto

def unshared : RangeLocks := ⟨0, fun _ => 0, fun _ => 0⟩

theorem writer_lock_exact_reader :
    unshared.blocksWriter 0x20000080 0x10020000040 = true ↔ unshared.Touches 0x20000080 0x10020000040 :=
  (writer_lock_exact_iff unshared (fun _ => dvd_zero _) 0x20000080 0x10020000040 (by decide) (by decide)
    (by decide)).mpr (.inr (by unfold Inside; decide))

-- A reader of one line at a page boundary, 256 MiB from the locked line.
theorem writer_lock_blocked : unshared.blocksWriter 0x20000000 0x8030000000 = true ∧
    ¬unshared.Touches 0x20000000 0x8030000000 := by
  refine ⟨by decide, ?_⟩
  rintro ⟨x, first, last, same⟩
  simp [RangeLocks.translate, sharedAddress, unshared, lockAddr, lockSize] at first last same
  omega

end EmuCore.Memory
