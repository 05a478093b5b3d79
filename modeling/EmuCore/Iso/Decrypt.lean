import EmuCore.Iso.ReadSectors

namespace EmuCore.Iso

open List Nat

open Slice (slice)

def previousBlock (content : Nat -> UInt8) (address : Nat) : Bytes :=
  if address % sectorSize < 16 then resetIv (u32 (address / sectorSize)) else slice content (address / 16 * 16 - 16) 16

def plainByte (cipher : Cipher) (content : Nat -> UInt8) (address : Nat) : UInt8 :=
  cipher (previousBlock content address) (slice content (address / 16 * 16) 16) (address % 16)

lemma sixteen_dvd_sectorSize : 16 ∣ sectorSize := ⟨128, rfl⟩

variable (cipher : Cipher) (content : Nat -> UInt8)

variable {start : Nat}

lemma decryptBlock_slice (aligned : 16 ∣ start) :
    decryptBlock cipher (previousBlock content start) (slice content start 16) =
      slice (plainByte cipher content) start 16 := by
  refine map_congr_left fun i inside => ?_
  rw [mem_range] at inside
  have block : (start + i) / 16 * 16 = start := by omega
  have index : (start + i) % 16 = i := by omega
  have previous : previousBlock content (start + i) = previousBlock content start := by
    have sector : (start + i) / sectorSize = start / sectorSize := by
      simp only [sectorSize]
      omega
    have first : (start + i) % sectorSize < 16 ↔ start % sectorSize < 16 := by
      simp only [sectorSize]
      omega
    have whole : start / 16 * 16 = start := by omega
    simp only [previousBlock, block, sector, first, whole]
  rw [plainByte, previous, block, index]

lemma cbcBlocks_slice {count : Nat} (aligned : 16 ∣ start) (inside : start % sectorSize + 16 * count ≤ sectorSize) :
    cbcBlocks cipher count (previousBlock content start) (slice content start (16 * count)) =
      slice (plainByte cipher content) start (16 * count) := by
  induction count generalizing start with
  | zero => rfl
  | succ count ih =>
    have split : 16 * (count + 1) = 16 + 16 * count := by omega
    rw [cbcBlocks, split, Slice.take_slice _ (le_add_right 16 _), Slice.drop_slice _ (le_add_right 16 _),
      Nat.add_sub_cancel_left, decryptBlock_slice cipher content aligned, Slice.slice_add]
    congr 1
    cases count with
    | zero => rfl
    | succ count =>
      have next : slice content start 16 = previousBlock content (start + 16) := by
        have back : (start + 16) / 16 * 16 - 16 = start := by omega
        rw [previousBlock, if_neg (by simp only [sectorSize] at *; omega), back]
      rw [next]
      exact ih (by omega) (by simp only [sectorSize] at *; omega)

lemma aesCryptCbc_slice {size : Nat} (aligned : 16 ∣ start) (whole : 16 ∣ size)
    (inside : start % sectorSize + size ≤ sectorSize) :
    aesCryptCbc cipher (previousBlock content start) (slice content start size) =
      slice (plainByte cipher content) start size := by
  obtain ⟨count, rfl⟩ := whole
  rw [aesCryptCbc, Slice.length_slice, if_pos (mul_mod_right 16 count), Nat.mul_div_cancel_left count (by omega)]
  exact cbcBlocks_slice cipher content aligned inside

lemma previousBlock_sector (aligned : sectorSize ∣ start) :
    previousBlock content start = resetIv (u32 (start / sectorSize)) := by
  rw [previousBlock, if_pos]
  rw [mod_eq_zero_of_dvd aligned]
  omega

lemma u32_succ (n : Nat) : u32 (u32 n + 1) = u32 (n + 1) := by
  simp only [u32]
  omega

lemma decryptRest_slice (inner sector : Nat) {last : Nat} (short : last ≤ sectorSize) (whole : 16 ∣ last) :
    decryptRest cipher inner (u32 sector) (slice content ((sector + 1) * sectorSize) (inner * sectorSize + last)) =
      slice (plainByte cipher content) ((sector + 1) * sectorSize) (inner * sectorSize + last) := by
  have crypt : ∀ {size : Nat} (sector : Nat), 16 ∣ size -> size ≤ sectorSize ->
      aesCryptCbc cipher (resetIv (u32 (u32 sector + 1))) (slice content ((sector + 1) * sectorSize) size) =
        slice (plainByte cipher content) ((sector + 1) * sectorSize) size := by
    intro size sector whole short
    have aligned : sectorSize ∣ (sector + 1) * sectorSize := dvd_mul_left _ _
    have iv := previousBlock_sector content aligned
    rw [Nat.mul_div_cancel _ (by decide)] at iv
    rw [u32_succ, ← iv]
    refine aesCryptCbc_slice cipher content (dvd_trans sixteen_dvd_sectorSize aligned) whole ?_
    rw [mod_eq_zero_of_dvd aligned]
    omega
  induction inner generalizing sector with
  | zero =>
    rw [decryptRest, zero_mul, zero_add]
    exact crypt sector whole short
  | succ inner ih =>
    have split : (inner + 1) * sectorSize + last = sectorSize + (inner * sectorSize + last) := by
      rw [succ_mul]
      omega
    have next : (sector + 1) * sectorSize + sectorSize = (sector + 1 + 1) * sectorSize := (succ_mul _ _).symm
    rw [decryptRest, split, Slice.take_slice _ (le_add_right _ _), Slice.drop_slice _ (le_add_right _ _),
      Nat.add_sub_cancel_left, crypt sector sixteen_dvd_sectorSize le_rfl, u32_succ, next, ih,
      Slice.slice_add _ _ sectorSize, next]

lemma sectorCount_eq {first last : Nat} (order : first ≤ last) (few : last - first + 1 < 2 ^ 32) :
    u32 (u32 last + (2 ^ 32 - u32 first) + 1) = last - first + 1 := by
  simp only [u32]
  omega

section Data

variable {start size : Nat} (some : 0 < size) (aligned : 16 ∣ start) (whole : 16 ∣ size) (few : size < 2 ^ 42)

def inFirst (start size : Nat) : Nat :=
  if start % sectorSize + size ≤ sectorSize then size else sectorSize - start % sectorSize

include some in
lemma inFirst_cases (start : Nat) :
    (start + size - 1) / sectorSize = start / sectorSize ∧ inFirst start size = size ∨
      start / sectorSize < (start + size - 1) / sectorSize ∧
        start + inFirst start size = (start / sectorSize + 1) * sectorSize ∧ inFirst start size ≤ size := by
  rcases lt_or_ge sectorSize (start % sectorSize + size) with more | less
  · have value : inFirst start size = sectorSize - start % sectorSize := if_neg (not_le.mpr more)
    rw [value]
    simp only [sectorSize] at *
    omega
  · refine .inl ⟨?_, if_pos less⟩
    simp only [sectorSize] at *
    omega

include some whole aligned in
lemma decryptRest_tail :
    let count := (start + size - 1) / sectorSize - start / sectorSize + 1
    let rest := slice content (start + inFirst start size) (size - inFirst start size)
    (if count < 2 then rest else decryptRest cipher (count - 2) (u32 (start / sectorSize)) rest) =
      slice (plainByte cipher content) (start + inFirst start size) (size - inFirst start size) := by
  intro count rest
  rcases inFirst_cases some start with ⟨single, all⟩ | ⟨many, place, inside⟩
  · have one : count < 2 := by omega
    rw [if_pos one]
    simp only [rest, all, Nat.sub_self, Slice.slice_zero]
  have more : ¬count < 2 := by omega
  have divides := sixteen_dvd_sectorSize
  have total : size - inFirst start size =
      (count - 2) * sectorSize + (size - inFirst start size - (count - 2) * sectorSize) := by
    simp only [count, sectorSize] at *
    omega
  rw [if_neg more]
  simp only [rest]
  rw [place, total]
  refine decryptRest_slice cipher content (count - 2) (start / sectorSize) ?_ ?_
  · simp only [count, sectorSize] at *
    omega
  · refine dvd_sub (dvd_sub whole ?_) (dvd_trans divides (dvd_mul_left _ _))
    have : 16 ∣ start + inFirst start size := place ▸ dvd_trans divides (dvd_mul_left _ _)
    exact (Nat.dvd_add_right aligned).mp this

include some whole aligned few in
lemma decryptData_slice :
    decryptData cipher start (slice content start size) =
      if start % sectorSize ≠ 0 then slice content start 16 ++ slice (plainByte cipher content) (start + 16) (size - 16)
      else slice (plainByte cipher content) start size := by
  have count : u32 (u32 ((start + size - 1) / sectorSize) + (2 ^ 32 - u32 (start / sectorSize)) + 1) =
      (start + size - 1) / sectorSize - start / sectorSize + 1 := by
    refine sectorCount_eq ?_ ?_ <;> simp only [sectorSize] <;> omega
  have tail := decryptRest_tail cipher content some aligned whole
  have first := inFirst_cases some start
  have sixteen : 16 ∣ inFirst start size := by
    rcases first with ⟨-, all⟩ | ⟨-, place, -⟩
    · rwa [all]
    · have : 16 ∣ start + inFirst start size :=
        place ▸ dvd_trans sixteen_dvd_sectorSize (dvd_mul_left _ _)
      exact (Nat.dvd_add_right aligned).mp this
  have fits : start % sectorSize + inFirst start size ≤ sectorSize ∧ 0 < inFirst start size ∧
      inFirst start size ≤ size := by
    simp only [sectorSize] at *
    omega
  have value : (if start % sectorSize + size ≤ sectorSize then size else sectorSize - start % sectorSize) =
      inFirst start size := rfl
  rw [decryptData, Slice.length_slice, count, value]
  generalize inFirst start size = n at *
  by_cases inside : start % sectorSize ≠ 0
  · have long : 16 ≤ n := le_of_dvd fits.2.1 sixteen
    have chained : aesCryptCbc cipher (slice content start 16) (slice content (start + 16) (n - 16)) =
        slice (plainByte cipher content) (start + 16) (n - 16) := by
      by_cases ends : n = 16
      · subst ends
        simp [aesCryptCbc, cbcBlocks]
      have next : (start + 16) % sectorSize = start % sectorSize + 16 := by
        simp only [sectorSize] at *
        omega
      have chain : slice content start 16 = previousBlock content (start + 16) := by
        have back : (start + 16) / 16 * 16 - 16 = start := by omega
        rw [previousBlock, back, if_neg (by omega)]
      rw [chain]
      exact aesCryptCbc_slice cipher content (by omega) (dvd_sub sixteen dvd_rfl) (by omega)
    have cut : 16 + (n - 16) = n := Nat.add_sub_cancel' long
    simp only [if_pos inside, ← apply_ite, Slice.take_slice _ (long.trans fits.2.2),
      Slice.drop_slice _ (long.trans fits.2.2), Slice.take_slice _ (Nat.sub_le_sub_right fits.2.2 16), chained, cut,
      Slice.drop_slice _ fits.2.2, tail]
    have total : size - 16 = (n - 16) + (size - n) := by omega
    have place : start + 16 + (n - 16) = start + n := by omega
    rw [append_assoc, total, Slice.slice_add, place]
  · have zero : sectorSize ∣ start := dvd_of_mod_eq_zero (not_not.mp inside)
    have chained : aesCryptCbc cipher (resetIv (u32 (start / sectorSize))) (slice content start n) =
        slice (plainByte cipher content) start n := by
      rw [← previousBlock_sector content zero]
      exact aesCryptCbc_slice cipher content aligned sixteen fits.1
    have total : size = n + (size - n) := by omega
    simp only [if_neg inside, ← apply_ite, take_zero, nil_append, drop_zero, Nat.sub_zero,
      zero_add, Slice.take_slice _ fits.2.2, chained, Slice.drop_slice _ fits.2.2, tail]
    rw [← Slice.slice_add, ← total]

end Data

def zeroed (content : Nat -> UInt8) : Nat -> UInt8 := fun x => if rangeStart ≤ x ∧ x < rangeEnd then 0 else content x

def masked (offset : Nat) (bytes : Bytes) : Bytes :=
  bytes.mapIdx fun i b => if rangeStart ≤ offset + i ∧ offset + i < rangeEnd then 0 else b

def Masks (offset size : Nat) : Prop := offset + size < rangeEnd ∨ rangeEnd ≤ offset ∨ offset = rangeStart

variable {offset : Nat}

lemma masked_outside {bytes : Bytes} (outside : offset + bytes.length ≤ rangeStart ∨ rangeEnd ≤ offset) :
    masked offset bytes = bytes := by
  refine ext_getElem (by simp [masked]) fun i _ inside => ?_
  simp only [masked, getElem_mapIdx]
  rw [if_neg (by omega)]

lemma zeroRange_masks {bytes : Bytes} (masks : Masks offset bytes.length) :
    zeroRange offset bytes = .ok (masked offset bytes) := by
  unfold Masks at masks
  rw [zeroRange]
  by_cases overlaps : rangeStart < offset + bytes.length ∧ offset < rangeEnd
  · have same : ∀ i < bytes.length, ((if offset < rangeStart then rangeStart - offset else 0) ≤ i ∧
        i < (if offset + bytes.length < rangeEnd then bytes.length else rangeEnd - rangeStart)) ↔
        rangeStart ≤ offset + i ∧ offset + i < rangeEnd := by
      intro i inside
      split_ifs <;> simp only [rangeStart, rangeEnd] at * <;> omega
    rw [if_pos overlaps]
    rw [if_neg (by split_ifs <;> simp only [rangeStart, rangeEnd] at * <;> omega)]
    congr 1
    refine ext_getElem (by simp [masked]) fun i inside _ => ?_
    rw [length_mapIdx] at inside
    simp only [masked, getElem_mapIdx, same i inside]
  · rw [if_neg overlaps, masked_outside (by omega)]

lemma zeroRange_differs {size : Nat} (differs : ¬Masks offset size) :
    zeroRange offset (replicate size 1) ≠ .ok (masked offset (replicate size 1)) := by
  have range : rangeStart = 0xF70 ∧ rangeEnd = 0x1070 := ⟨rfl, rfl⟩
  unfold Masks at differs
  intro same
  rw [zeroRange, length_replicate] at same
  rw [if_pos (by omega), if_neg (by omega : ¬offset + size < rangeEnd)] at same
  by_cases before : offset < rangeStart
  · simp only [if_pos before] at same
    split at same
    · cases same
    · have last := congrArg (·[rangeEnd - 1 - offset]?) (Except.ok.inj same)
      simp (disch := omega) [masked, getElem?_mapIdx, if_pos, if_neg] at last
  · simp only [if_neg before] at same
    split at same
    · cases same
    · have next := congrArg (·[rangeEnd - offset]?) (Except.ok.inj same)
      simp (disch := omega) [masked, getElem?_mapIdx, if_pos] at next

theorem decrypt_masks_iff (offset size : Nat) (regions : List RegionInfo) (cipher : Cipher) :
    (∀ bytes : Bytes, bytes.length = size -> decrypt .dec3k3y regions cipher offset bytes = .ok (masked offset bytes)) ↔
      Masks offset size := by
  have run : ∀ bytes : Bytes, decrypt .dec3k3y regions cipher offset bytes = zeroRange offset bytes := by
    intro bytes
    cases done : zeroRange offset bytes <;>
      simp [decrypt, EncryptionType.is3k3y, EncryptionType.isEncrypted, done, Except.map]
  simp only [run]
  refine ⟨fun all => ?_, fun masks bytes length => zeroRange_masks (length ▸ masks)⟩
  by_contra differs
  exact zeroRange_differs differs (all _ length_replicate)

theorem decrypt_overmasks : ((decrypt .dec3k3y [] (fun _ _ _ => 0) 0x1000 (replicate 256 1)).toOption.map (·[0x70]?)) =
    some (some 0) ∧ (masked 0x1000 (replicate 256 1))[0x70]? = some 1 := by
  decide +kernel

lemma zeroRange_above (above : rangeEnd ≤ start) (bytes : Bytes) :
    zeroRange start bytes = .ok bytes := by
  rw [zeroRange_masks (.inr (.inl above)), masked_outside (.inr above)]

lemma zeroRange_below {size : Nat} (below : start + size < rangeEnd) :
    zeroRange start (slice content start size) = .ok (slice (zeroed content) start size) := by
  rw [zeroRange_masks (.inl (by rwa [Slice.length_slice]))]
  congr 1
  refine ext_getElem (by simp [masked]) fun i _ inside => ?_
  simp [masked, slice, zeroed]

lemma plainByte_congr {other : Nat -> UInt8} {address : Nat}
    (same : ∀ x < (address / 16 + 1) * 16, other x = content x) :
    plainByte cipher other address = plainByte cipher content address := by
  have block : slice other (address / 16 * 16) 16 = slice content (address / 16 * 16) 16 :=
    Slice.slice_congr _ fun i inside => same _ (by omega)
  have previous : previousBlock other address = previousBlock content address := by
    rw [previousBlock, previousBlock]
    split
    · rfl
    · exact Slice.slice_congr _ fun i inside => same _ (by omega)
  rw [plainByte, plainByte, block, previous]

def plainImage (type : EncryptionType) (regions : List RegionInfo) (cipher : Cipher) (content : Nat -> UInt8) :
    Nat -> UInt8 := fun address =>
  if type.isEncrypted && ((findRegion regions address).map (·.encrypted)).getD false then
    plainByte cipher content address
  else content address

end EmuCore.Iso
