import EmuCore.Memory.CheckAddr

namespace EmuCore.Memory

open PageFlags

def localMemBase : BitVec 32 := 0xC0000000

def rawSpuBaseAddr : BitVec 32 := 0xE0000000

-- g_range_lock_bits[1], g_range_lock_set and g_shmem.
structure RangeLocks where
  exclusive : BitVec 64
  slots : Nat -> BitVec 64
  shmem : Nat -> BitVec 64

-- An address inside memory that is mapped several times is replaced by its place in that memory.
def sharedAddress (addr shared : BitVec 64) : BitVec 64 :=
  if shared ≠ 0 then (addr &&& 0xffff) ||| shared else addr

variable (locks : RangeLocks) (begin size : BitVec 32)

-- The test that range_lock_internal hands to for_all_range_locks, with the slot it is called for.
def RangeLocks.blocks (slot : BitVec 64) : Bool :=
  let addrExec := (slot.truncate 32).zeroExtend 64
  let sizeExec : BitVec 32 := (slot >>> 32).truncate 32
  if sizeExec = 0 then false
  else
    let locked := decide (sizeExec &&& 0xe0000000 = 0x80000000)
    let addr := if locked then sharedAddress (begin.zeroExtend 64) (locks.shmem (begin.toNat / 65536))
      else begin.zeroExtend 64
    let sizeExec : BitVec 32 := ((if locked then 128 else sizeExec) <<< 3) >>> 3
    let addrExec := sharedAddress addrExec (locks.shmem (addrExec.toNat / 65536))
    decide (addr ≤ addrExec + sizeExec.zeroExtend 64 - 1) &&
      decide (addrExec ≤ addr + size.zeroExtend 64 - 1)

def RangeLocks.busy : Bool :=
  (List.range 64).any fun id => locks.exclusive.getLsbD id && locks.blocks begin size (locks.slots id)

inductive Round
  | leave
  | fault (addr : Nat)
  | wait
deriving DecidableEq

def rangeLockRound (pages : Pages) (locks : RangeLocks) (begin size : BitVec 32) : Round :=
  if locks.busy begin size then .wait
  else if rawSpuBaseAddr ≤ begin ∨ checkAddr pages begin.toNat readable size.toNat then .leave
  else
    let first := begin.toNat / 4096
    let last := (begin + size - 1).toNat / 4096
    match (List.range' first (last + 1 - first)).find? fun i => pages i &&& readable = 0 with
    | some i => .fault (if i = first then begin.toNat else i * 4096)
    | none => .wait

def checkPage (pages : Pages) (addr : Nat) (flags : PageFlags) : Bool :=
  ~~~pages (addr / 4096) &&& (flags ||| allocated) = 0

inductive LockExit
  | localMemory
  | optimistic
  | slow
deriving DecidableEq

-- The test of range_lock for a range that is taken to lie in one page.
def Shortcut (begin size : BitVec 32) : Prop := (begin.toNat % 4096 + size.toNat % 4096) / 4096 = 0

instance instDecidableShortcut (begin size : BitVec 32) : Decidable (Shortcut begin size) :=
  inferInstanceAs (Decidable (_ = _))

def rangeLock (pages : Pages) (locks : RangeLocks) (begin size : BitVec 32) : LockExit :=
  if begin >>> 28 = localMemBase >>> 28 then .localMemory
  else
    let failed := if Shortcut begin size then !checkPage pages begin.toNat readable
      else !checkAddr pages begin.toNat readable size.toNat
    if failed then .slow
    else if locks.exclusive = 0 then .optimistic
    else .slow

def Readable (pages : Pages) (begin size : BitVec 32) : Prop :=
  ∀ x, begin.toNat ≤ x -> x < begin.toNat + size.toNat -> Has (pages (x / 4096)) (readable ||| allocated)

section Lock

variable {pages : Pages} {locks : RangeLocks} {begin size : BitVec 32}

lemma checkPage_iff {addr : Nat} {flags : PageFlags} :
    checkPage pages addr flags = true ↔ Has (pages (addr / 4096)) (flags ||| allocated) := by
  rw [checkPage, decide_eq_true_eq, has_iff]

lemma rangeLock_optimistic (outside : begin >>> 28 ≠ localMemBase >>> 28) :
    rangeLock pages locks begin size = .optimistic ↔ locks.exclusive = 0 ∧
      (if Shortcut begin size then Has (pages (begin.toNat / 4096)) (readable ||| allocated)
        else checkAddr pages begin.toNat readable size.toNat = true) := by
  rw [rangeLock, if_neg outside]
  by_cases short : Shortcut begin size
  · rw [if_pos short, if_pos short, ← checkPage_iff]
    by_cases free : locks.exclusive = 0 <;> cases checkPage pages begin.toNat readable <;> simp [free]
  · rw [if_neg short, if_neg short]
    by_cases free : locks.exclusive = 0 <;>
      cases checkAddr pages begin.toNat readable size.toNat <;> simp [free]

lemma busy_none (free : locks.exclusive = 0) : locks.busy begin size = false := by
  simp [RangeLocks.busy, free]

lemma rangeLockRound_leaves (free : locks.exclusive = 0) :
    rangeLockRound pages locks begin size = .leave ↔
      rawSpuBaseAddr ≤ begin ∨ checkAddr pages begin.toNat readable size.toNat = true := by
  rw [rangeLockRound, busy_none free, if_neg (by decide)]
  split
  next leaves => exact ⟨fun _ => leaves, fun _ => rfl⟩
  next stays =>
    dsimp only
    split <;> simp [stays]

lemma checkAddr_one_page {addr count : Nat} {flags : PageFlags} (small : addr < 2 ^ 32)
    (fits : addr % 4096 + count ≤ 4096) (has : Has (pages (addr / 4096)) (flags ||| allocated)) :
    checkAddr pages addr flags count = true := by
  unfold checkAddr
  split
  next => rfl
  next filled =>
    have last : (addr + count - 1) / 4096 = addr / 4096 := by omega
    rw [if_neg (by omega), last, Nat.add_sub_cancel_left, checkLoop, if_pos le_rfl,
      if_neg (not_not.mpr ((has_iff _ _).mpr has))]
    rfl

end Lock

def onePage (begin : BitVec 32) : Pages := fun i =>
  if i = begin.toNat / 4096 then readable ||| allocated else 0

section OnePage

variable {begin size : BitVec 32}

lemma onePage_has : Has (onePage begin (begin.toNat / 4096)) (readable ||| allocated) := by
  rw [onePage, if_pos rfl]
  exact BitVec.and_self

lemma onePage_other {i : Nat} (other : i ≠ begin.toNat / 4096) : onePage begin i = 0 := if_neg other

lemma onePage_bounded : Bounded (onePage begin) := by
  intro i high
  have small := begin.isLt
  rw [onePage_other (by omega)]
  decide

lemma onePage_forward : Forward (onePage begin) := by
  intro i j from_ before used
  by_cases here : i = begin.toNat / 4096
  · have value : onePage begin i = readable ||| allocated := if_pos here
    have small : i < 2 ^ 32 := by
      have limit := begin.isLt
      omega
    rw [nextPage_eq small, value, show granule (readable ||| allocated) = 1 by decide] at before
    obtain rfl : j = i := by omega
    exact BitVec.and_self
  · rw [onePage_other here] at used
    exact absurd (by decide) used

lemma onePage_unreadable (long : 4096 < begin.toNat % 4096 + size.toNat) :
    ¬ Readable (onePage begin) begin size := by
  intro all
  have next := all ((begin.toNat / 4096 + 1) * 4096) (by omega) (by omega)
  rw [Nat.mul_div_cancel _ (by decide), onePage_other (by omega)] at next
  exact absurd next (by unfold Has; decide)

end OnePage

end EmuCore.Memory
