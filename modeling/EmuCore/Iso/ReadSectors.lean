import EmuCore.Iso.Read

namespace EmuCore.Iso

open List Nat

open Slice (slice Fills)

def contents (image : Nat -> UInt8) (extents : List Extent) : Bytes :=
  extents.flatMap fun extent => slice image (extent.start * sectorSize) extent.size

lemma length_contents (image : Nat -> UInt8) (extents : List Extent) :
    (contents image extents).length = (extents.map (·.size)).sum := by
  simp [contents, length_flatMap]

variable {extents : List Extent}

lemma getExtentPos_mem (nonempty : extents ≠ []) (pos : Nat) :
    (getExtentPos extents pos).2 ∈ extents := by
  fun_induction getExtentPos extents pos with
  | case1 => contradiction
  | case2 last pos => exact mem_cons_self
  | case3 extent next rest pos above ih => exact mem_cons_of_mem _ (ih (cons_ne_nil next rest))
  | case4 extent next rest pos below => exact mem_cons_self

lemma getExtentPos_end (nonempty : extents ≠ []) {pos : Nat} (beyond : (extents.map (·.size)).sum ≤ pos) :
    (getExtentPos extents pos).2.size ≤ (getExtentPos extents pos).1 := by
  fun_induction getExtentPos extents pos with
  | case1 => contradiction
  | case2 last pos => simpa using beyond
  | case3 extent next rest pos above ih =>
    refine ih (cons_ne_nil next rest) ?_
    rw [map_cons, sum_cons] at beyond
    omega
  | case4 extent next rest pos below =>
    rw [map_cons, sum_cons] at beyond
    omega

lemma getExtentPos_inside (image : Nat -> UInt8) {pos : Nat} (inside : pos < (extents.map (·.size)).sum) :
    let place := getExtentPos extents pos
    place.1 < place.2.size ∧
      (contents image extents).drop pos =
        slice image (place.2.start * sectorSize + place.1) (place.2.size - place.1) ++
          (contents image extents).drop (pos + (place.2.size - place.1)) := by
  have here : ∀ (extent : Extent) (rest : List Extent) (pos : Nat), pos < extent.size ->
      (contents image (extent :: rest)).drop pos =
        slice image (extent.start * sectorSize + pos) (extent.size - pos) ++
          (contents image (extent :: rest)).drop (pos + (extent.size - pos)) := by
    intro extent rest pos below
    have whole : pos + (extent.size - pos) = extent.size := Nat.add_sub_cancel' below.le
    rw [whole, contents, flatMap_cons, drop_append_of_le_length (by simp; omega),
      Slice.drop_slice _ below.le, drop_left' (Slice.length_slice _ _ _)]
  fun_induction getExtentPos extents pos with
  | case1 => simp at inside
  | case2 last pos =>
    have below : pos < last.size := by simpa using inside
    exact ⟨below, here last [] pos below⟩
  | case3 extent next rest pos above ih =>
    have later : pos - extent.size < ((next :: rest).map (·.size)).sum := by
      rw [map_cons, sum_cons] at inside
      omega
    obtain ⟨below, same⟩ := ih later
    have skip : ∀ n, (contents image (extent :: next :: rest)).drop (extent.size + n) =
        (contents image (next :: rest)).drop n := by
      intro n
      rw [contents, flatMap_cons, ← drop_drop, drop_left' (Slice.length_slice _ _ _)]
      rfl
    have split : pos = extent.size + (pos - extent.size) := by omega
    refine ⟨below, ?_⟩
    rw [split, skip, add_assoc, skip, Nat.add_sub_cancel_left]
    exact same
  | case4 extent next rest pos below =>
    exact ⟨not_le.mp below, here extent (next :: rest) pos (not_le.mp below)⟩

def Reads (readExtent : ExtentReader) (image : Nat -> UInt8) (extent : Extent) : Prop :=
  ∀ first size buffer pos, 0 < size -> first + size ≤ extent.size ->
    ∃ filled, readExtent (extent.start * sectorSize + first) size buffer pos = .ok filled ∧
      Fills image (extent.start * sectorSize + first) size buffer pos filled

def Delivers (result : Except Failure (Nat × Buffer)) (buffer : Buffer) (pos : Nat) (wanted : Bytes) : Prop :=
  ∃ filled, result = .ok (wanted.length, filled) ∧ slice filled pos wanted.length = wanted ∧
    ∀ x, x < pos ∨ pos + wanted.length ≤ x -> filled x = buffer x

lemma u64_of_lt {n : Nat} (small : n < 2 ^ 64) : u64 n = n := mod_eq_of_lt small

lemma fileOffset_eq (member : Member) {pos : Nat} (inside : 0 < localExtentRemaining member pos) :
    fileOffset member pos =
      (getExtentPos member.extents pos).2.start * sectorSize + (getExtentPos member.extents pos).1 := by
  have fits := member.addressed _ (getExtentPos_mem member.nonempty pos)
  simp only [localExtentRemaining] at inside
  have inner : u64 ((getExtentPos member.extents pos).2.start * sectorSize) =
      (getExtentPos member.extents pos).2.start * sectorSize := u64_of_lt (by omega)
  rw [fileOffset, inner, u64_of_lt (by omega)]

lemma readAt_delivers {readExtent : ExtentReader} {image : Nat -> UInt8} (member : Member)
    (reads : ∀ extent ∈ member.extents, Reads readExtent image extent) (offset size : Nat) (buffer : Buffer)
    (pos : Nat) :
    Delivers (readAt readExtent member offset size buffer pos) buffer pos
      (((contents image member.extents).drop offset).take size) := by
  induction size using Nat.strong_induction_on generalizing offset buffer pos with
  | _ size ih =>
    rw [readAt]
    split
    next none =>
      have empty : ((contents image member.extents).drop offset).take size = [] := by
        by_cases beyond : (member.extents.map (·.size)).sum ≤ offset
        · rw [drop_of_length_le (by rwa [length_contents]), take_nil]
        have inside := (getExtentPos_inside image (not_le.mp beyond)).1
        rw [localExtentRemaining] at none
        have : size = 0 := by omega
        rw [this, take_zero]
      rw [empty]
      exact ⟨buffer, rfl, rfl, fun _ _ => rfl⟩
    next some =>
      have remaining : 0 < localExtentRemaining member offset := by omega
      have within : offset < (member.extents.map (·.size)).sum := by
        by_contra beyond
        have := getExtentPos_end member.nonempty (not_lt.mp beyond)
        rw [localExtentRemaining] at remaining
        omega
      obtain ⟨below, parts⟩ := getExtentPos_inside image within
      have extent := reads _ (getExtentPos_mem member.nonempty offset)
      have located := fileOffset_eq member remaining
      have remains : localExtentRemaining member offset =
          (getExtentPos member.extents offset).2.size - (getExtentPos member.extents offset).1 := rfl
      rw [← located] at parts
      generalize fileOffset member offset = address at *
      obtain ⟨filled, done, fills⟩ := extent (getExtentPos member.extents offset).1 (min size (localExtentRemaining member offset)) buffer pos
        (by omega) (by omega)
      rw [← located] at done fills
      rw [← remains] at parts
      generalize localExtentRemaining member offset = rest at *
      rw [done]
      have total : member.size = (contents image member.extents).length := by
        rw [length_contents, Member.size, u64_of_lt member.counted]
      dsimp only
      split
      next more =>
        have cut : min size rest = rest := by omega
        rw [cut] at fills more ⊢
        obtain ⟨final, next, there, kept⟩ := ih (size - rest) (by omega) (offset + rest) filled (pos + rest)
        have wanted : ((contents image member.extents).drop offset).take size =
            slice image address rest ++ ((contents image member.extents).drop (offset + rest)).take (size - rest) := by
          rw [parts, take_append, Slice.length_slice, take_of_length_le (by simp; omega)]
        rw [wanted, next]
        refine ⟨final, by simp [Except.map], ?_, fun x outside => ?_⟩
        · have first : slice final pos rest = slice image address rest := by
            rw [← fills.1]
            exact Slice.slice_congr _ fun i inside => kept (pos + i) (by omega)
          rw [length_append, Slice.length_slice, Slice.slice_add, first, there]
        · rw [length_append, Slice.length_slice] at outside
          rw [kept x (by omega), fills.2 x (by omega)]
      next last =>
        have wanted : ((contents image member.extents).drop offset).take size =
            slice image address (min size rest) := by
          rw [parts, take_append, Slice.length_slice]
          by_cases enough : size ≤ rest
          · rw [Slice.take_slice _ enough, Nat.sub_eq_zero_of_le enough, take_zero, append_nil,
              min_eq_left enough]
          have cut : min size rest = rest := by omega
          rw [cut] at last ⊢
          have small : offset + rest < 2 ^ 64 := by
            have := congrArg List.length parts
            have := member.counted
            simp only [length_drop, length_append, Slice.length_slice, length_contents] at *
            omega
          rw [u64_of_lt small, total] at last
          rw [take_of_length_le (by simp; omega), drop_of_length_le (by omega), take_nil,
            append_nil]
        rw [wanted]
        refine ⟨filled, by simp, ?_, ?_⟩
        · rw [Slice.length_slice, fills.1]
        · rw [Slice.length_slice]
          exact fills.2

section Layout

variable {address maxSize : Nat}

lemma firstSize_cases (address maxSize : Nat) :
    address % 2048 + maxSize ≤ 2048 ∧ (sectorsOf address maxSize).firstSize = maxSize ∨
      2048 < address % 2048 + maxSize ∧ (sectorsOf address maxSize).firstSize = 2048 - address % 2048 := by
  rcases lt_or_ge 2048 (address % 2048 + maxSize) with more | less
  · exact .inr ⟨more, if_neg (Nat.not_le.mpr more)⟩
  · exact .inl ⟨less, if_pos less⟩

lemma sectorsOf_first (address maxSize : Nat) :
    let sectors := sectorsOf address maxSize
    sectors.lba + sectors.offset = address ∧ sectorSize ∣ sectors.lba ∧ sectors.offset < sectorSize ∧
      sectors.firstSize ≤ maxSize ∧ sectors.offset + sectors.firstSize ≤ sectorSize := by
  intro sectors
  have first := firstSize_cases address maxSize
  rw [show sectorsOf address maxSize = sectors from rfl] at first
  have offset : sectors.offset = address % 2048 := rfl
  have lba : sectors.lba = address / 2048 * 2048 := rfl
  rw [lba, offset, sectorSize]
  refine ⟨by omega, ⟨_, mul_comm _ _⟩, by omega, by omega, by omega⟩

lemma sectorsOf_cases (some : 0 < maxSize) (fits : address + maxSize ≤ 2 ^ 64) :
    let sectors := sectorsOf address maxSize
    let inner := (sectors.count - 2) * sectorSize
    sectors.count < 2 ∧ sectors.firstSize = maxSize ∨
      2 ≤ sectors.count ∧ sectors.lastLba = sectors.lba + sectorSize + inner ∧
        sectors.lastSize ≤ sectorSize ∧ 0 < sectors.lastSize ∧
        maxSize = sectors.firstSize + (inner + sectors.lastSize) ∧
        address + sectors.firstSize = sectors.lba + sectorSize := by
  have last : u64 (address + maxSize - 1) = address + maxSize - 1 := u64_of_lt (by omega)
  intro sectors inner
  have first := firstSize_cases address maxSize
  rw [show sectorsOf address maxSize = sectors from rfl] at first
  have lba : sectors.lba = address / 2048 * 2048 := rfl
  have lastLba : sectors.lastLba = (address + maxSize - 1) / 2048 * 2048 := by rw [← last]; rfl
  have lastSize : sectors.lastSize = (address + maxSize - 1) % 2048 + 1 := by rw [← last]; rfl
  have count : sectors.count = (sectors.lastLba - sectors.lba) / 2048 + 1 := rfl
  have size : inner = (sectors.count - 2) * 2048 := rfl
  rw [sectorSize]
  omega

end Layout

def Yields (decrypt : Decrypt) (content image : Nat -> UInt8) (wanted : Nat -> Prop) (address size : Nat) : Prop :=
  ∃ out, decrypt address (slice content address size) = .ok out ∧ out.length = size ∧
    ∀ i < size, wanted (address + i) -> out[i]? = some (image (address + i))

def Full (source : Source) (content : Nat -> UInt8) : Prop := ∀ address size, source address size = slice content address size

variable {source : Source} {decrypt : Decrypt} {content image : Nat -> UInt8} {wanted : Nat -> Prop}

variable (full : Full source content)

include full

section

variable {address size : Nat} (yields : Yields decrypt content image wanted address size)

include yields

lemma Yields.read :
    ∃ out, readDecrypted source decrypt address size = .ok out ∧
      ∀ skip count, skip + count ≤ size ->
        (∀ i, skip ≤ i -> i < skip + count -> wanted (address + i)) ->
        (out.drop skip).take count = slice image (address + skip) count := by
  obtain ⟨out, done, length, same⟩ := yields
  refine ⟨out, ?_, fun skip count inside all => ?_⟩
  · rw [readDecrypted, readFile, full, Slice.length_slice, if_pos rfl]
    exact done
  · exact Slice.take_drop_eq_slice out address skip count fun i above below => same i (by omega) (all i above below)

lemma Yields.whole (all : ∀ i < size, wanted (address + i)) :
    readDecrypted source decrypt address size = .ok (slice image address size) := by
  obtain ⟨out, done, length, same⟩ := yields
  have equal : out = slice image address size := by
    have := Slice.take_drop_eq_slice out address 0 size
      fun i _ below => same i (by omega) (all i (by omega))
    rwa [List.drop_zero, List.take_of_length_le (by omega)] at this
  rw [readDecrypted, readFile, full, Slice.length_slice, if_pos rfl, ← equal]
  exact done

end

lemma rawInner_fills {high : Nat} {size : Nat} (address : Nat) (buffer : Buffer)
    (pos : Nat) (aligned : sectorSize ∣ address) (whole : sectorSize ∣ size) (below : address + size ≤ high)
    (chunks : ∀ start count, address ≤ start -> 0 < count -> sectorSize ∣ start -> sectorSize ∣ count ->
      start + count ≤ high -> Yields decrypt content image wanted start count)
    (all : ∀ x, address ≤ x -> x < address + size -> wanted x) :
    ∃ filled, rawInner source decrypt address size buffer pos = .ok filled ∧
      Fills image address size buffer pos filled := by
  induction size using Nat.strong_induction_on generalizing address buffer pos with
  | _ size ih =>
    rw [rawInner]
    split
    next none =>
      subst none
      exact ⟨buffer, rfl, rfl, fun _ _ => rfl⟩
    next some =>
      have positive := rawReadSize_pos
      have multiple : sectorSize ∣ rawReadSize := dvd_mul_right _ _
      have block : sectorSize ∣ min size rawReadSize := by
        rcases le_total size rawReadSize with less | more
        · rwa [min_eq_left less]
        · rwa [min_eq_right more]
      generalize count : min size rawReadSize = n at *
      have read := (chunks address n le_rfl (by omega) aligned block (by omega)).whole full
        fun i inside => all (address + i) (by omega) (by omega)
      have first := Slice.fills_put buffer pos (rfl : slice image address n = _)
      obtain ⟨filled, done, rest⟩ := ih (size - n) (by omega) (address + n)
        (Slice.put buffer pos (slice image address n)) (pos + n) (dvd_add aligned block)
        (Nat.dvd_sub whole block) (by omega)
        (fun start count above => chunks start count (by omega))
        fun x above less => all x (by omega) (by omega)
      refine ⟨filled, ?_, ?_⟩
      · dsimp only
        rw [read]
        exact done
      · have total : n + (size - n) = size := by omega
        rw [← total]
        exact first.append rest

lemma rawExtent_fills {address maxSize : Nat} (some : 0 < maxSize)
    (fits : address + maxSize ≤ 2 ^ 64) (buffer : Buffer) (pos : Nat)
    (chunks : ∀ start count, 0 < count -> sectorSize ∣ start -> sectorSize ∣ count ->
      address < start + sectorSize -> start + count < address + maxSize + sectorSize ->
      Yields decrypt content image (fun x => address ≤ x ∧ x < address + maxSize) start count) :
    ∃ filled, rawExtent source decrypt address maxSize buffer pos = .ok filled ∧
      Fills image address maxSize buffer pos filled := by
  obtain ⟨place, aligned, offset_lt, first_le, first_in⟩ := sectorsOf_first address maxSize
  have cases := sectorsOf_cases some fits
  have start : sectorSize ∣ sectorSize := dvd_rfl
  rw [rawExtent]
  generalize sectorsOf address maxSize = sectors at *
  obtain ⟨first, readFirst, firstBytes⟩ := (chunks sectors.lba sectorSize (by omega) aligned start
    (by omega) (by omega)).read full
  have head := firstBytes sectors.offset sectors.firstSize first_in fun i above below => by omega
  rw [place] at head
  have filledFirst := Slice.fills_put buffer pos head
  rw [readFirst]
  simp only [Except.bind]
  rcases cases with ⟨one, single⟩ | ⟨more, lastLba, lastSize, lastSome, parts, second⟩
  · rw [single] at filledFirst ⊢
    rw [if_pos one]
    exact ⟨_, rfl, filledFirst⟩
  rw [if_neg (Nat.not_lt.mpr more)]
  generalize inner : (sectors.count - 2) * sectorSize = size at *
  have whole : sectorSize ∣ size := ⟨_, inner.symm.trans (mul_comm _ _)⟩
  obtain ⟨middle, readMiddle, filledMiddle⟩ := rawInner_fills full (sectors.lba + sectorSize)
    (Slice.put buffer pos ((first.drop sectors.offset).take sectors.firstSize)) (pos + sectors.firstSize)
    (dvd_add aligned start) whole (le_refl (sectors.lba + sectorSize + size))
    (fun start count above some one two below => chunks start count some one two (by omega) (by omega))
    (fun x above below => by omega)
  obtain ⟨last, readLast, lastBytes⟩ := (chunks sectors.lastLba sectorSize (by omega)
    (by rw [lastLba]; exact dvd_add (dvd_add aligned start) whole) start (by omega) (by omega)).read full
  have tail := lastBytes 0 sectors.lastSize (by omega) fun i above below => by omega
  rw [List.drop_zero, add_zero] at tail
  rw [readMiddle]
  rw [readLast]
  refine ⟨_, rfl, ?_⟩
  have filledLast := Slice.fills_put middle (pos + sectors.firstSize + size) tail
  have placed : pos + (maxSize - sectors.lastSize) = pos + sectors.firstSize + size := by omega
  rw [← second] at filledMiddle
  rw [lastLba, ← second] at filledLast
  rw [placed, parts]
  exact filledFirst.append (filledMiddle.append filledLast)

omit full

lemma plainExtent_reads (raw : Bool) (full : Full source content) {extent : Extent}
    (fits : extent.start * sectorSize + extent.size < 2 ^ 63) : Reads (plainExtent raw source) content extent := by
  intro first size buffer pos some inside
  rw [plainExtent]
  split
  · refine rawExtent_fills full some (by omega) buffer pos fun start count _ _ _ _ _ => ?_
    exact ⟨_, rfl, Slice.length_slice _ _ _, fun i small _ => Slice.getElem?_slice content small⟩
  · rw [readFile, full, Slice.length_slice, if_pos rfl]
    exact ⟨_, rfl, Slice.fills_put buffer pos rfl⟩

end EmuCore.Iso
