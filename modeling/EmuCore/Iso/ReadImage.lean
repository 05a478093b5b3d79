import EmuCore.Iso.Decrypt

namespace EmuCore.Iso

open Slice (slice Fills)

variable {type : EncryptionType} {regions : List RegionInfo} {cipher : Cipher} {content : Nat -> UInt8}

lemma zero_step (content : Nat -> UInt8) {wanted : Nat -> Prop} {start count : Nat}
    (clear : type.is3k3y = true ->
      rangeEnd ≤ start ∨ start + count < rangeEnd ∧ ∀ x, wanted x -> x < rangeStart) :
    ∃ other, (if type.is3k3y then zeroRange start (slice content start count) else .ok (slice content start count)) =
        .ok (slice other start count) ∧
      ∀ x, wanted x -> ∀ y < (x / 16 + 1) * 16, other y = content y := by
  split
  next marked =>
    rcases clear marked with above | ⟨below, first⟩
    · exact ⟨content, zeroRange_above above _, fun _ _ _ _ => rfl⟩
    refine ⟨zeroed content, zeroRange_below content below, fun x inside y near => ?_⟩
    have := first x inside
    rw [zeroed, if_neg]
    simp only [rangeStart] at *
    omega
  next => exact ⟨content, rfl, fun _ _ _ _ => rfl⟩

lemma decrypt_yields {wanted : Nat -> Prop} {start count : Nat} (some : 0 < count) (aligned : 16 ∣ start)
    (whole : 16 ∣ count) (few : count < 2 ^ 42)
    (region : ∀ x, wanted x -> findRegion regions x = findRegion regions start)
    (chain : start % sectorSize ≠ 0 -> ∀ x, wanted x -> start + 16 ≤ x)
    (clear : type.is3k3y = true ->
      rangeEnd ≤ start ∨ start + count < rangeEnd ∧ ∀ x, wanted x -> x < rangeStart) :
    Yields (decrypt type regions cipher) content (plainImage type regions cipher content) wanted start count := by
  obtain ⟨other, zero, same⟩ := zero_step content clear
  rw [Yields, decrypt, zero, Except.map]
  by_cases encrypted : (type.isEncrypted && ((findRegion regions start).map (·.encrypted)).getD false) = true
  · have value : ∀ x, wanted x -> plainImage type regions cipher content x = plainByte cipher other x := by
      intro x inside
      rw [plainImage, region x inside, if_pos encrypted, plainByte_congr cipher content (same x inside)]
    rw [if_pos encrypted, decryptData_slice cipher other some aligned whole few]
    split
    next middle =>
      have long := Nat.le_of_dvd some whole
      refine ⟨_, rfl, by simp; omega, fun i small inside => ?_⟩
      have past := chain middle _ inside
      rw [List.getElem?_append_right (by simp; omega), Slice.length_slice, Slice.getElem?_slice _ (by omega),
        value _ inside]
      congr 2
      omega
    next =>
      refine ⟨_, rfl, Slice.length_slice _ _ _, fun i small inside => ?_⟩
      rw [Slice.getElem?_slice _ small, value _ inside]
  · rw [if_neg encrypted]
    refine ⟨_, rfl, Slice.length_slice _ _ _, fun i small inside => ?_⟩
    rw [Slice.getElem?_slice _ small, plainImage, region _ inside, if_neg encrypted, same _ inside _ (by omega)]

lemma down16_spec (n : Nat) : down16 n ≤ n ∧ n < down16 n + 16 ∧ 16 ∣ down16 n := by
  rw [down16]
  exact ⟨by omega, by omega, dvd_mul_left _ _⟩

lemma up16_spec (n : Nat) : n ≤ up16 n ∧ up16 n < n + 16 ∧ 16 ∣ up16 n := by
  have down := down16_spec n
  rw [up16]
  split
  · exact ⟨by omega, by omega, dvd_add down.2.2 dvd_rfl⟩
  · exact ⟨by omega, by omega, down.2.2⟩

structure Chunk (address maxSize start count : Nat) : Prop where
  some : 0 < count
  aligned : 16 ∣ start
  whole : 16 ∣ count
  above : address / sectorSize * sectorSize ≤ start
  before : start < address + maxSize
  below : start + count ≤ (address + maxSize + (sectorSize - 1)) / sectorSize * sectorSize
  chain : start % sectorSize ≠ 0 -> start + 16 ≤ address

section

variable {source : Source} {decrypt : Decrypt} {image : Nat -> UInt8}

lemma blockExtent_fills (full : Full source content) {address maxSize : Nat} (some : 0 < maxSize)
    (fits : address + maxSize ≤ 2 ^ 64) (buffer : Buffer) (pos : Nat)
    (chunks : ∀ start count, Chunk address maxSize start count ->
      Yields decrypt content image (fun x => address ≤ x ∧ x < address + maxSize) start count) :
    ∃ filled, blockExtent source decrypt address maxSize buffer pos = .ok filled ∧
      Fills image address maxSize buffer pos filled := by
  obtain ⟨place, aligned, offset_lt, first_le, first_in⟩ := sectorsOf_first address maxSize
  have cases := sectorsOf_cases some fits
  have lba : (sectorsOf address maxSize).lba = address / sectorSize * sectorSize := rfl
  have firstSome : 0 < (sectorsOf address maxSize).firstSize := by
    have := firstSize_cases address maxSize
    omega
  have divides := sixteen_dvd_sectorSize
  rw [blockExtent]
  generalize sectorsOf address maxSize = sectors at *
  have down := down16_spec sectors.offset
  have up := up16_spec (sectors.offset + sectors.firstSize)
  generalize offsetAligned : (if down16 sectors.offset ≠ 0 then down16 sectors.offset - 16 else 0) = back
  have backed : 16 ∣ back ∧ back ≤ sectors.offset ∧ (back ≠ 0 -> back + 16 ≤ sectors.offset) := by
    rw [← offsetAligned]
    split
    · exact ⟨Nat.dvd_sub down.2.2 dvd_rfl, by omega, by omega⟩
    · exact ⟨dvd_zero 16, by omega, by omega⟩
  have blocks : 16 ∣ sectors.lba := dvd_trans divides aligned
  have firstChunk : Chunk address maxSize (sectors.lba + back)
      (up16 (sectors.offset + sectors.firstSize) - back) := by
    have moved : (sectors.lba + back) % sectorSize ≠ 0 -> back ≠ 0 := by
      rintro other rfl
      exact other (Nat.mod_eq_zero_of_dvd aligned)
    exact ⟨by omega, dvd_add blocks backed.1, Nat.dvd_sub up.2.2 backed.1, by omega, by omega,
      by simp only [sectorSize] at *; omega, fun middle => by have := backed.2.2 (moved middle); omega⟩
  obtain ⟨first, readFirst, firstBytes⟩ := (chunks _ _ firstChunk).read full
  have head := firstBytes (sectors.offset - back) sectors.firstSize (by omega) fun i above below => by omega
  have located : sectors.lba + back + (sectors.offset - back) = address := by omega
  rw [located] at head
  have filledFirst := Slice.fills_put buffer pos head
  simp only [readFirst, Except.bind]
  generalize Slice.put buffer pos ((first.drop (sectors.offset - back)).take sectors.firstSize) = opened at *
  rcases cases with ⟨one, single⟩ | ⟨more, lastLba, lastSize, lastSome, parts, second⟩
  · rw [single] at filledFirst
    rw [if_pos one]
    exact ⟨opened, rfl, filledFirst⟩
  rw [if_neg (Nat.not_lt.mpr more)]
  have size : (sectors.count - 2) * sectorSize = 0 ↔ ¬2 < sectors.count := by
    simp only [sectorSize]
    omega
  generalize inner : (sectors.count - 2) * sectorSize = n at *
  have whole : sectorSize ∣ n := ⟨_, inner.symm.trans (mul_comm _ _)⟩
  have after : sectorSize ∣ sectors.lba + sectorSize := dvd_add aligned dvd_rfl
  have middle : ∃ filled, (if 2 < sectors.count then
        (readDecrypted source decrypt (sectors.lba + sectorSize) n).map
          (Slice.put opened (pos + sectors.firstSize))
      else .ok opened) = .ok filled ∧
      Fills image (sectors.lba + sectorSize) n opened (pos + sectors.firstSize) filled := by
    by_cases some_inner : 2 < sectors.count
    · have innerChunk : Chunk address maxSize (sectors.lba + sectorSize) n :=
        ⟨by omega, dvd_trans divides after, dvd_trans divides whole, by omega, by omega,
          by simp only [sectorSize] at *; omega, fun inside => absurd (Nat.mod_eq_zero_of_dvd after) inside⟩
      have read := (chunks _ _ innerChunk).whole full fun i small => by omega
      rw [if_pos some_inner, read]
      exact ⟨_, rfl, Slice.fills_put opened _ rfl⟩
    · rw [if_neg some_inner, size.mpr some_inner]
      exact ⟨opened, rfl, rfl, fun _ _ => rfl⟩
  obtain ⟨filled, readMiddle, filledMiddle⟩ := middle
  have upLast := up16_spec sectors.lastSize
  have end_aligned : sectorSize ∣ sectors.lastLba := by
    rw [lastLba]
    exact dvd_add after whole
  have lastChunk : Chunk address maxSize sectors.lastLba (up16 sectors.lastSize) :=
    ⟨by omega, dvd_trans divides end_aligned, upLast.2.2, by omega, by omega,
      by simp only [sectorSize] at *; omega, fun inside => absurd (Nat.mod_eq_zero_of_dvd end_aligned) inside⟩
  obtain ⟨last, readLast, lastBytes⟩ := (chunks _ _ lastChunk).read full
  have tail := lastBytes 0 sectors.lastSize (by omega) fun i above below => by omega
  rw [List.drop_zero, add_zero] at tail
  rw [readMiddle]
  rw [readLast]
  refine ⟨_, rfl, ?_⟩
  have filledLast := Slice.fills_put filled (pos + sectors.firstSize + n) tail
  have placed : pos + (maxSize - sectors.lastSize) = pos + sectors.firstSize + n := by omega
  rw [← second] at filledMiddle
  rw [lastLba, ← second] at filledLast
  rw [placed, parts]
  exact filledFirst.append (filledMiddle.append filledLast)

end

open List Nat

def OneRegion (regions : List RegionInfo) (extent : Extent) : Prop :=
  ∃ info, ∀ x, extent.start * sectorSize ≤ x -> x < extent.start * sectorSize + extent.size ->
    findRegion regions x = some info

def Clear (extent : Extent) : Prop :=
  ∀ x, extent.start * sectorSize ≤ x -> x < extent.start * sectorSize + extent.size ->
    x < rangeStart ∨ rangeEnd ≤ x

lemma Clear.cases {extent : Extent} (clear : Clear extent) (some : 0 < extent.size) :
    rangeEnd ≤ extent.start * sectorSize ∨ extent.start * sectorSize + extent.size ≤ rangeStart := by
  rcases clear _ le_rfl (by omega) with before | after
  · refine .inr (Nat.le_of_not_lt fun beyond => ?_)
    have := clear rangeStart before.le beyond
    simp only [rangeStart, rangeEnd] at this
    omega
  · exact .inl after

section Encrypted

variable {source : Source}

lemma encryptedExtent_reads (raw : Bool) (full : Full source content) {extent : Extent}
    (recorded : extent.start < 2 ^ 32 ∧ extent.size < 2 ^ 32) (inRegion : OneRegion regions extent)
    (clear : type.is3k3y = true -> Clear extent) :
    Reads (encryptedExtent raw source (decrypt type regions cipher)) (plainImage type regions cipher content)
      extent := by
  intro first size buffer pos some inside
  obtain ⟨info, found⟩ := inRegion
  have start : sectorSize ∣ extent.start * sectorSize := dvd_mul_left _ _
  generalize address : extent.start * sectorSize + first = a
  have chunks : ∀ start count, Chunk a size start count ->
      Yields (decrypt type regions cipher) content (plainImage type regions cipher content)
        (fun x => a ≤ x ∧ x < a + size) start count := by
    intro start count chunk
    have above : extent.start * sectorSize ≤ start := by
      refine le_trans ?_ chunk.above
      simp only [sectorSize] at *
      omega
    have near := chunk.before
    have below := chunk.below
    refine decrypt_yields chunk.some chunk.aligned chunk.whole ?_ (fun x wanted => ?_)
      (fun middle x wanted => (chunk.chain middle).trans wanted.1) fun marked => ?_
    · simp only [sectorSize] at *
      omega
    · rw [found x (by omega) (by omega), found start above (by omega)]
    rcases (clear marked).cases (by omega) with after | before
    · exact .inl (after.trans above)
    · refine .inr ⟨?_, fun x wanted => by omega⟩
      simp only [sectorSize, rangeStart, rangeEnd] at *
      omega
  have fits : a + size ≤ 2 ^ 64 := by
    simp only [sectorSize] at *
    omega
  rw [encryptedExtent]
  split
  · refine rawExtent_fills full some fits buffer pos fun start count positive one two after before => ?_
    refine chunks start count ⟨positive, dvd_trans sixteen_dvd_sectorSize one,
      dvd_trans sixteen_dvd_sectorSize two, ?_, ?_, ?_, ?_⟩
    · simp only [sectorSize] at *
      omega
    · simp only [sectorSize] at *
      omega
    · simp only [sectorSize] at *
      omega
    · exact fun middle => absurd (mod_eq_zero_of_dvd one) middle
  · exact blockExtent_fills full some fits buffer pos chunks

end Encrypted

def echo : Cipher := fun _ block i => block.getD i 0

lemma plainByte_echo (content : Nat -> UInt8) (address : Nat) : plainByte echo content address = content address := by
  rw [plainByte, echo, getD_eq_getElem?_getD, Slice.getElem?_slice content (by omega), Option.getD_some]
  congr 1
  omega

lemma plainImage_echo (type : EncryptionType) (regions : List RegionInfo) (content : Nat -> UInt8) :
    plainImage type regions echo content = content := by
  funext address
  rw [plainImage, plainByte_echo, ite_self]

lemma decryptData_echo {start : Nat} {bytes : Bytes} (some : 0 < bytes.length) (aligned : 16 ∣ start)
    (whole : 16 ∣ bytes.length) (few : bytes.length < 2 ^ 42) : decryptData echo start bytes = bytes := by
  have same : bytes = slice (fun x => bytes.getD (x - start) 0) start bytes.length := by
    refine ext_getElem? fun i => ?_
    by_cases inside : i < bytes.length
    · rw [Slice.getElem?_slice _ inside, Nat.add_sub_cancel_left, getD_eq_getElem?_getD,
        getElem?_eq_getElem inside, Option.getD_some]
    · rw [getElem?_eq_none (by omega), getElem?_eq_none (by simpa using inside)]
  have plain : plainByte echo (fun x => bytes.getD (x - start) 0) = fun x => bytes.getD (x - start) 0 :=
    funext (plainByte_echo _)
  have long := le_of_dvd some whole
  have data := decryptData_slice echo (fun x => bytes.getD (x - start) 0) some aligned whole few
  rw [plain, ← same] at data
  rw [data]
  split
  · rw [← Slice.slice_add, Nat.add_sub_cancel' long, ← same]
  · rfl

lemma decrypt_hit (marked : type.is3k3y = true) (regions : List RegionInfo) {start x : Nat} (bytes : Bytes)
    (aligned : 16 ∣ start) (whole : 16 ∣ bytes.length) (sector : start % sectorSize + bytes.length ≤ sectorSize)
    (above : start ≤ x) (below : x < start + bytes.length) (inside : rangeStart ≤ x ∧ x < rangeEnd) :
    decrypt type regions echo start bytes = .error .undefined ∨
      ∃ out, decrypt type regions echo start bytes = .ok out ∧ out[x - start]? = some 0 := by
  have zero : zeroRange start bytes = .error .undefined ∨
      ∃ out, zeroRange start bytes = .ok out ∧ out.length = bytes.length ∧ out[x - start]? = some 0 := by
    have first : (if start < rangeStart then rangeStart - start else 0) ≤ x - start := by split <;> omega
    have last : x - start < if start + bytes.length < rangeEnd then bytes.length else rangeEnd - rangeStart := by
      split
      · omega
      · simp only [rangeStart, rangeEnd, sectorSize] at *
        omega
    rw [zeroRange, if_pos (by omega)]
    dsimp only
    generalize (if start < rangeStart then rangeStart - start else 0) = overlapStart at first ⊢
    generalize (if start + bytes.length < rangeEnd then bytes.length else rangeEnd - rangeStart) = overlapEnd at last ⊢
    split
    · exact .inl rfl
    · refine .inr ⟨_, rfl, length_mapIdx, ?_⟩
      rw [getElem?_mapIdx, getElem?_eq_getElem (by omega), Option.map_some, if_pos ⟨first, last⟩]
  rw [decrypt, marked, if_pos rfl]
  rcases zero with failed | ⟨out, done, length, there⟩
  · rw [failed]
    exact .inl rfl
  refine .inr ⟨out, ?_, there⟩
  rw [done, Except.map]
  split
  · rw [decryptData_echo (by omega) aligned (by omega) (by simp only [sectorSize] at *; omega)]
  · rfl

lemma encryptedExtent_hit (marked : type.is3k3y = true) (regions : List RegionInfo) (raw : Bool) {source : Source}
    {content : Nat -> UInt8} (full : Full source content) {x : Nat} (inside : rangeStart ≤ x ∧ x < rangeEnd)
    (buffer : Buffer) (pos : Nat) :
    encryptedExtent raw source (decrypt type regions echo) x 1 buffer pos = .error .undefined ∨
      ∃ filled, encryptedExtent raw source (decrypt type regions echo) x 1 buffer pos = .ok filled ∧
        filled pos = 0 := by
  obtain ⟨place, aligned, offset_lt, -, -⟩ := sectorsOf_first x 1
  have small : x < 2 ^ 63 := inside.2.trans (by decide)
  have fits : x + 1 ≤ 2 ^ 64 := by omega
  have cases := sectorsOf_cases one_pos fits
  have firstSize : (sectorsOf x 1).firstSize = 1 := by
    have := firstSize_cases x 1
    omega
  have single : (sectorsOf x 1).count < 2 := by
    rcases cases with ⟨one, -⟩ | ⟨-, -, -, lastSome, parts, -⟩
    · exact one
    · omega
  have divides := sixteen_dvd_sectorSize
  have read : ∀ start count, readDecrypted source (decrypt type regions echo) start count =
      decrypt type regions echo start (slice content start count) := by
    intro start count
    rw [readDecrypted, readFile, full, Slice.length_slice, if_pos rfl]
    rfl
  have landed : ∀ {bytes : Bytes} {skip : Nat}, bytes[skip]? = some 0 ->
      Slice.put buffer pos ((bytes.drop skip).take 1) pos = 0 := by
    intro bytes skip there
    rw [Slice.put, if_pos le_rfl, Nat.sub_self, getElem?_take_of_lt one_pos, getElem?_drop,
      add_zero, there]
    rfl
  rw [encryptedExtent]
  split
  · rw [rawExtent]
    generalize sectorsOf x 1 = sectors at *
    have hit := decrypt_hit marked regions (slice content sectors.lba sectorSize)
      (dvd_trans divides aligned) (by rwa [Slice.length_slice])
      (by rw [Slice.length_slice, mod_eq_zero_of_dvd aligned]; omega) (by omega)
      (by rw [Slice.length_slice]; omega) inside
    have index : x - sectors.lba = sectors.offset := by omega
    rcases hit with failed | ⟨out, done, there⟩
    · exact .inl (by rw [read, failed]; rfl)
    rw [read, done]
    simp only [Except.bind, if_pos single, firstSize]
    exact .inr ⟨_, rfl, landed (index ▸ there)⟩
  · rw [blockExtent]
    generalize sectorsOf x 1 = sectors at *
    have down := down16_spec sectors.offset
    have up := up16_spec (sectors.offset + sectors.firstSize)
    generalize offsetAligned : (if down16 sectors.offset ≠ 0 then down16 sectors.offset - 16 else 0) = back
    have backed : 16 ∣ back ∧ back ≤ sectors.offset := by
      rw [← offsetAligned]
      split
      · exact ⟨dvd_sub down.2.2 dvd_rfl, by omega⟩
      · exact ⟨dvd_zero 16, by omega⟩
    generalize size : up16 (sectors.offset + sectors.firstSize) - back = count
    have hit := decrypt_hit marked regions (slice content (sectors.lba + back) count)
      (dvd_add (dvd_trans divides aligned) backed.1)
      (by rw [Slice.length_slice, ← size]; exact dvd_sub up.2.2 backed.1)
      (by rw [Slice.length_slice]; simp only [sectorSize] at *; omega) (by omega)
      (by rw [Slice.length_slice]; omega) inside
    have index : x - (sectors.lba + back) = sectors.offset - back := by omega
    rcases hit with failed | ⟨out, done, there⟩
    · exact .inl (by rw [read, failed]; rfl)
    simp only [read, done, Except.bind, if_pos single, firstSize]
    exact .inr ⟨_, rfl, landed (index ▸ there)⟩

lemma getExtentPos_append (before after : List Extent) (extent : Extent) {first : Nat} (inside : first < extent.size) :
    getExtentPos (before ++ extent :: after) ((before.map (·.size)).sum + first) = (first, extent) := by
  induction before with
  | nil =>
    rw [nil_append, map_nil, sum_nil, zero_add]
    cases after with
    | nil => rfl
    | cons next rest => rw [getExtentPos, if_neg (not_le.mpr inside)]
  | cons other before ih =>
    have skip : (other.size + (before.map (·.size)).sum + first) - other.size = (before.map (·.size)).sum + first := by
      omega
    rw [cons_append, map_cons, sum_cons]
    cases rest : before ++ extent :: after with
    | nil => simp at rest
    | cons next more => rw [getExtentPos, if_pos (by omega), skip, ← rest, ih]

lemma clear_of_delivers (member : Member) (marked : type.is3k3y = true)
    (regions : List RegionInfo) (raw : Bool)
    (delivers : ∀ content source cipher offset size buffer, Full source content ->
      Delivers (readAt (encryptedExtent raw source (decrypt type regions cipher)) member offset size buffer 0) buffer 0
        (((contents (plainImage type regions cipher content) member.extents).drop offset).take size)) :
    ∀ extent ∈ member.extents, Clear extent := by
  intro extent present x above below
  by_contra hit
  push Not at hit
  obtain ⟨before, after, parts⟩ := append_of_mem present
  generalize place : (before.map (·.size)).sum + (x - extent.start * sectorSize) = offset
  have found : getExtentPos member.extents offset = (x - extent.start * sectorSize, extent) := by
    rw [parts, ← place]
    exact getExtentPos_append before after extent (by omega)
  have full : Full (fun address size => slice (fun _ => 1) address size) (fun _ => (1 : UInt8)) := fun _ _ => rfl
  have reached := encryptedExtent_hit marked regions raw full hit (fun _ => 1) 0
  obtain ⟨final, result, there, -⟩ := delivers _ _ echo offset 1 (fun _ => 1) full
  have remaining : localExtentRemaining member offset = extent.size - (x - extent.start * sectorSize) := by
    rw [localExtentRemaining, found]
  have some : 0 < localExtentRemaining member offset := by omega
  have located := fileOffset_eq member some
  have address : extent.start * sectorSize + (x - extent.start * sectorSize) = x := by omega
  have one : min 1 (localExtentRemaining member offset) = 1 := by omega
  rw [found, address] at located
  rw [readAt, one, located] at result
  rcases reached with failed | ⟨filled, read, value⟩
  · simp [failed] at result
  rw [read] at result
  simp only [one_ne_zero, if_false, lt_irrefl, false_and] at result
  injection result with same
  rw [Prod.mk.injEq] at same
  rw [← same.1, ← same.2, plainImage_echo] at there
  have zero : (0 : UInt8) ∈ ((contents (fun _ => 1) member.extents).drop offset).take 1 := by
    rw [← there, ← value]
    simp [slice]
  have inside := mem_of_mem_drop (mem_of_mem_take zero)
  simp [contents, slice] at inside

theorem read_at_iff (member : DirectoryMember) (raw : Bool) (type : EncryptionType) (regions : List RegionInfo)
    (inRegion : ∀ extent ∈ member.extents, OneRegion regions extent) :
    (∀ (plain : Member) content source offset size buffer, Full source content ->
      Delivers (readAt (plainExtent raw source) plain offset size buffer 0) buffer 0
        (((contents content plain.extents).drop offset).take size)) ∧
    ((∀ content source cipher offset size buffer, Full source content ->
      Delivers (readAt (encryptedExtent raw source (decrypt type regions cipher)) member.toMember offset size buffer 0)
        buffer 0 (((contents (plainImage type regions cipher content) member.extents).drop offset).take size)) ↔
      (type.is3k3y = true -> ∀ extent ∈ member.extents, Clear extent)) := by
  refine ⟨fun plain content source offset size buffer full => ?_, fun delivers marked => ?_,
    fun clear content source cipher offset size buffer full => ?_⟩
  · exact readAt_delivers plain (fun extent present => plainExtent_reads raw full (plain.addressed extent present))
      offset size buffer 0
  · exact clear_of_delivers member.toMember marked regions raw delivers
  · refine readAt_delivers member.toMember (fun extent present => ?_) offset size buffer 0
    exact encryptedExtent_reads raw full (member.recorded extent present) (inRegion extent present)
      fun marked => clear marked extent present

def exampleMember : DirectoryMember where
  extents := [⟨2, 2048⟩]
  nonempty := by decide
  addressed := by decide
  counted := by decide
  recorded := by decide

def exampleRegions : List RegionInfo := [⟨false, 0, 0xfffff⟩]

lemma exampleMember_inRegion : ∀ extent ∈ exampleMember.extents, OneRegion exampleRegions extent := by
  intro extent present
  rw [mem_singleton.mp present]
  refine ⟨⟨false, 0, 0xfffff⟩, fun x above below => ?_⟩
  have inside : x ≤ 0xfffff := le_of_lt_succ (below.trans (by decide))
  simp [findRegion, exampleRegions, inside]

theorem read_at_iff_redump :
    Delivers (readAt (encryptedExtent false (slice UInt8.ofNat) (decrypt .redump exampleRegions echo))
        exampleMember.toMember 100 5000 (fun _ => 0) 0) (fun _ => 0) 0
      (((contents (plainImage .redump exampleRegions echo UInt8.ofNat) exampleMember.extents).drop 100).take 5000) :=
  (read_at_iff exampleMember false .redump exampleRegions exampleMember_inRegion).2.mpr
    (fun marked => absurd marked (by decide)) UInt8.ofNat (slice UInt8.ofNat) echo 100 5000 (fun _ => 0)
    fun _ _ => rfl

-- The range ends at 0x1070, but the byte at 0x1070 is zeroed too.
theorem read_at_zeroes : (plainImage .enc3k3y exampleRegions echo (fun _ => 1) 0x1070 = 1) ∧
    ((readAt (encryptedExtent false (slice fun _ => 1) (decrypt .enc3k3y exampleRegions echo)) exampleMember.toMember
      0 256 (fun _ => 1) 0).toOption.map fun result => (result.1, result.2 0x70)) = some (256, 0) := by
  decide +kernel

end EmuCore.Iso
