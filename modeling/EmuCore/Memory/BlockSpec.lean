import EmuCore.Memory.PagesSpec
import EmuCore.Memory.Vm

namespace EmuCore.Memory

open PageFlags BlockFlags Nat Except Prod

variable {align : Nat}

lemma power_of_two (small : align < 2 ^ 32) (positive : 0 < align) (power : align = 0x80000000 >>> countlZero align) :
    ∃ k < 32, align = 2 ^ k := by
  have bits : align.log2 < 32 := (log2_lt (by omega)).mpr small
  refine ⟨align.log2, bits, ?_⟩
  rw [countlZero, if_neg (by omega), shiftRight_eq_div_pow] at power
  have whole : (0x80000000 : Nat) = 2 ^ align.log2 * 2 ^ (31 - align.log2) := by
    rw [← Nat.pow_add, show align.log2 + (31 - align.log2) = 31 by omega]
  rw [whole, Nat.mul_div_cancel _ (Nat.two_pow_pos _)] at power
  exact power

lemma minPageSize_cases (flags : BlockFlags) :
    minPageSize flags = 2 ^ 12 ∨ minPageSize flags = 2 ^ 16 := by
  unfold minPageSize
  split <;> simp

variable (bflags : BlockFlags)

def pageStart (addr : Nat) : Nat := addr - addr % minPageSize bflags

def paddedSize (size : Nat) : Nat := Align.up 32 size (minPageSize bflags)

def fallocSize (addr size : Nat) : Nat :=
  paddedSize bflags (u32 (size + addr % minPageSize bflags))

lemma minPageSize_dvd {bflags : BlockFlags} {k : Nat} (large : minPageSize bflags ≤ 2 ^ k) :
    minPageSize bflags ∣ 2 ^ k := by
  rcases minPageSize_cases bflags with unit | unit <;> rw [unit] at large ⊢ <;>
    exact Nat.pow_dvd_pow 2 ((Nat.pow_le_pow_iff_right one_lt_two).mp large)

lemma dvd_pageStart (bflags : BlockFlags) (addr : Nat) : minPageSize bflags ∣ pageStart bflags addr :=
  dvd_sub_mod addr

lemma dvd_paddedSize (bflags : BlockFlags) (size : Nat) :
    minPageSize bflags ∣ paddedSize bflags size := by
  unfold paddedSize
  rcases minPageSize_cases bflags with unit | unit <;> rw [unit] <;> exact Align.dvd_up _ (by decide)

variable {pages : Pages}

lemma anyMapped_false {first count : Nat} (free : ¬anyMapped pages first count = true) {i : Nat} (from_ : first ≤ i)
    (before : i < first + count) : pages i = 0 := by
  simp only [anyMapped, List.any_eq_true, not_exists, not_and] at free
  simpa using free i (List.mem_range'_1.mpr ⟨from_, before⟩)

structure Placed (b : Block) (pages : Pages) (addr size : Nat) (bflags : BlockFlags) (next : Block)
    (mapped : Pages) : Prop where
  filled : 0 < size
  paged : addr % 4096 = 0 ∧ size % 4096 = 0
  whole : minPageSize bflags ∣ addr ∧ minPageSize bflags ∣ size
  free : ∀ i, addr / 4096 ≤ i -> i < addr / 4096 + size / 4096 -> pages i = 0
  mapped : mapped = fill pages (addr / 4096) (size / 4096) (allocFlags bflags ||| allocated)
  bounded : addr + size ≤ b.area.addr + b.area.size
  next : ∃ shm, next = b.record addr size shm

variable {mapped : Pages} {b : Block} {addr size : Nat}

lemma tryAlloc_placed {bflags : BlockFlags} (shm : Option Nat) (bounded : addr + size ≤ b.area.addr + b.area.size)
    (whole : minPageSize bflags ∣ addr ∧ minPageSize bflags ∣ size) :
    b.area.tryAlloc pages addr bflags size = .ok (some mapped) ->
    Placed b pages addr size bflags (b.record addr size shm) mapped := by
  fun_cases Area.tryAlloc b.area pages addr bflags size with
  | case5 filled =>
    fun_cases pageMap pages addr (allocFlags bflags) size with
    | case3 valid free =>
      rintro ⟨⟩
      simp only [not_or, not_not] at valid
      obtain ⟨sizePaged, addrPaged⟩ := or_paged valid.2.1
      exact ⟨pos_of_ne_zero filled, ⟨addrPaged, sizePaged⟩, whole, fun i => anyMapped_false free, rfl, bounded, shm, rfl⟩
    | _ => rintro ⟨⟩
  | _ => rintro ⟨⟩

variable {flags : BlockFlags} {found : Nat}

lemma search_found {b : Area} {max fuel : Nat} (small : max < 2 ^ 32) (positive : 0 < align)
    (lastEven : align ∣ max) (even : align ∣ addr) (before : addr ≤ max)
    (ran : b.search pages flags size align max fuel addr = .ok (some (found, mapped))) :
    addr ≤ found ∧ found ≤ max ∧ align ∣ found ∧
      b.tryAlloc pages found flags size = .ok (some mapped) := by
  fun_induction Area.search b pages flags size align max fuel addr with
  | case3 fuel addr _ placed =>
    cases ran
    exact ⟨le_rfl, before, even, placed⟩
  | case5 fuel addr _ notLast ih =>
    have gap : align ≤ max - addr := le_of_dvd (by omega) (dvd_sub lastEven even)
    have noWrap : u32 (addr + align) = addr + align := mod_eq_of_lt (by omega)
    rw [noWrap] at ih ran
    obtain ⟨from_, rest⟩ := ih (Dvd.dvd.add even dvd_rfl) (by omega) ran
    exact ⟨by omega, rest⟩
  | _ => cases ran

lemma end_sub {part : Nat} (bounded : addr + size ≤ 2 ^ 32) (filled : 0 < part) (fits : part ≤ size) :
    sub32 (u32 (addr + size)) part = addr + size - part := by
  simp only [sub32, u32]
  omega

lemma place_placed {next : Block} {k : Nat} {shm : Option Nat} (bits : k < 32) (filled : 0 < size)
    (fits : size ≤ b.area.size) (large : minPageSize flags ∣ 2 ^ k) (whole : minPageSize flags ∣ size)
    (ran : b.place pages flags size (2 ^ k) shm = .ok (found, mapped, next)) :
    (found, mapped, next) = (0, pages, b) ∨
      2 ^ k ∣ found ∧ b.area.addr ≤ found ∧ Placed b pages found size flags next mapped := by
  have bounded := b.area.bounded
  have last := end_sub bounded filled fits
  have small : b.area.addr + b.area.size - size < 2 ^ 32 := by omega
  simp only [Block.place, last] at ran
  have below := Align.down_le small bits
  have even := Align.dvd_down small bits
  generalize Align.down 32 (b.area.addr + b.area.size - size) (2 ^ k) = max at ran below even
  split at ran
  next => exact .inl (ok.inj ran).symm
  next inside =>
    -- a multiple of the alignment is left above the start of the block, so rounding up cannot wrap
    have room : 2 ^ k ≤ 2 ^ 32 - max :=
      le_of_dvd (by omega) (dvd_sub (pow_dvd_pow 2 bits.le) even)
    have positive := Nat.two_pow_pos k
    obtain ⟨from_, _, first⟩ := Align.up_spec (w := 32) (x := b.area.addr) (k := k) (by omega) bits
    split at ran
    next => cases ran
    next => exact .inl (ok.inj ran).symm
    next searched =>
      cases ran
      obtain ⟨after, before, multiple, placed⟩ :=
        search_found (by omega) positive even first (by omega) searched
      exact .inr ⟨multiple, by omega, tryAlloc_placed shm (by omega) ⟨large.trans multiple, whole⟩ placed⟩

section

variable {next : Block} {origSize fresh : Nat} {src : Option Nat}

lemma alloc_placed (small : align < 2 ^ 32)
    (ran : b.alloc pages origSize src align flags fresh = .ok (found, mapped, next)) :
    (found, mapped, next) = (0, pages, b) ∨
      align ∣ found ∧ b.area.addr ≤ found ∧ origSize ≤ paddedSize (b.area.callFlags src flags) origSize ∧
        Placed b pages found (paddedSize (b.area.callFlags src flags) origSize)
          (b.area.callFlags src flags) next mapped := by
  simp only [Block.alloc] at ran
  rw [← paddedSize] at ran
  split at ran
  next => cases ran
  next valid =>
    simp only [not_or, not_lt, not_not] at valid
    split at ran
    next => exact .inl (ok.inj ran).symm
    next sizes =>
      have unit := minPageSize_cases (b.area.callFlags src flags)
      obtain ⟨k, bits, rfl⟩ := power_of_two small (by omega) valid.2
      split at ran
      next => cases ran
      have placed := place_placed bits (by omega) (by omega) (minPageSize_dvd valid.1)
        (dvd_paddedSize _ _) ran
      refine placed.imp_right ?_
      rintro ⟨multiple, from_, placed⟩
      exact ⟨multiple, from_, by omega, placed⟩

lemma falloc_placed {success : Bool}
    (ran : b.falloc pages addr origSize src flags fresh = .ok (success, mapped, next)) :
    (success, mapped, next) = (false, pages, b) ∨
      success = true ∧ b.area.addr ≤ addr ∧ (src = none ∨ b.area.isCommon = false) ∧
        origSize ≤ fallocSize (b.area.callFlags src flags) addr origSize ∧
        Placed b pages (pageStart (b.area.callFlags src flags) addr)
          (fallocSize (b.area.callFlags src flags) addr origSize) (b.area.callFlags src flags) next
          mapped := by
  simp only [Block.falloc] at ran
  split at ran
  next => exact .inl (ok.inj ran).symm
  next valid =>
    simp only [not_or, not_lt] at valid
    split at ran
    next => cases ran
    next shared =>
      split at ran
      next => cases ran
      next => exact .inl (ok.inj ran).symm
      next tried =>
        cases ran
        refine .inr ⟨rfl, valid.2.1, ?_, valid.2.2.2.1, tryAlloc_placed _ valid.2.2.2.2.1
          ⟨dvd_pageStart _ addr, dvd_paddedSize _ _⟩ tried⟩
        unfold Area.shmFor at shared
        cases common : b.area.isCommon with
        | false => exact .inr rfl
        | true =>
          rw [common, if_pos rfl] at shared
          split at shared
          next none => exact .inl none
          next => cases shared

end

end EmuCore.Memory
