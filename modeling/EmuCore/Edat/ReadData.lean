import Mathlib.Tactic

namespace EmuCore.Edat

open List Nat Option

abbrev Bytes := List UInt8

def alignedDiv (value align : Nat) : Nat := value / align + if value % align ≠ 0 then 1 else 0

-- narrow<u32> throws when the value does not fit.
def narrow (value : Nat) : Option Nat := if value < 2 ^ 32 then some value else none

/-- An EDAT whose header was read. `decryptBlock` gives what is in `data_buf`, or none for an error. -/
structure Decrypter where
  blockSize : Nat
  fileSize : Nat
  totalBlocks : Nat
  decryptBlock : Nat -> Option Bytes
  opened : (if blockSize = 0 then some 0 else narrow (alignedDiv fileSize blockSize)) = some totalBlocks

namespace Decrypter

variable (d : Decrypter)

-- What is returned, and what was written to `data`.
def readLoop (startOffset size startingBlock endingBlock : Nat) : List Nat -> Bytes -> Nat × Bytes
  | [], data => (data.length, data)
  | i :: rest, data =>
    match d.decryptBlock i with
    | none => (0, data)
    | some block =>
      let skipStart := if i = startingBlock then startOffset else 0
      if skipStart ≥ block.length then (data.length, data)
      else
        let endPos := if i ≠ d.totalBlocks - 1 then d.blockSize else (d.fileSize - 1) % d.blockSize + 1
        let readEnd := min block.length
          (if i = endingBlock - 1 then min endPos ((startOffset + size - 1) % d.blockSize + 1) else endPos)
        readLoop startOffset size startingBlock endingBlock rest
          (data ++ (block.drop skipStart).take (readEnd - skipStart))

def readData (pos size : Nat) : Option (Nat × Bytes) :=
  let size := min size (if pos > d.fileSize then 0 else d.fileSize - pos)
  if size = 0 then some (0, [])
  else do
    let startOffset := pos % d.blockSize
    let numBlocks := alignedDiv (startOffset + size) d.blockSize
    let startingBlock ← narrow (pos / d.blockSize)
    let endingBlock ← narrow (min (startingBlock + numBlocks) d.totalBlocks)
    some (d.readLoop startOffset size startingBlock endingBlock
      (range' startingBlock (endingBlock - startingBlock)) [])

def block (i : Nat) : Bytes := (d.decryptBlock i).getD []

def contents : Bytes := (range d.totalBlocks).flatMap d.block

def Whole : Prop :=
  ∀ i < d.totalBlocks, d.decryptBlock i ≠ none ∧
    (d.block i).length = if i + 1 = d.totalBlocks then d.fileSize - i * d.blockSize else d.blockSize

end Decrypter

section Blocks

variable {b n i pos size : Nat}

lemma alignedDiv_eq (some : 0 < n) : alignedDiv n b = (n - 1) / b + 1 := by
  obtain ⟨less, rfl⟩ := Nat.exists_eq_add_of_lt some
  rw [zero_add, Nat.add_sub_cancel, alignedDiv, Nat.succ_div]
  by_cases divides : b ∣ less + 1
  · rw [if_pos divides, if_neg (not_not.mpr (mod_eq_zero_of_dvd divides))]
  · rw [if_neg divides, if_pos fun zero => divides (dvd_of_mod_eq_zero zero)]

lemma taken_eq {x : Nat} (first : pos < x + b) (inside : size ≤ n) (before : x < size) :
    min (min (min b (n - x)) (min size (x + b) - x) - (max pos x - x)) (b - (max pos x - x)) =
      min size (max pos (x + b)) - max pos x := by
  rw [max_eq_right first.le]
  rcases le_total pos x with behind | ahead
  · rw [max_eq_right behind]
    omega
  · rw [max_eq_left ahead]
    omega

variable (positive : 0 < b)

include positive

lemma skip_eq (behind : pos / b ≤ i) : (if i = pos / b then pos % b else 0) = max pos (i * b) - i * b := by
  have start := div_add_mod' pos b
  split
  next same =>
    rw [same]
    omega
  next other =>
    have beyond : (pos / b + 1) * b ≤ i * b := mul_le_mul_right _ (by omega)
    have below := mod_lt pos positive
    rw [succ_mul] at beyond
    omega

lemma readEnd_eq (some : 0 < size) (inside : pos + size ≤ n) (before : i ≤ (pos + size - 1) / b) :
    (if i = (pos + size - 1) / b then min (min b (n - i * b)) ((pos % b + size - 1) % b + 1)
      else min b (n - i * b)) = min (pos + size) ((i + 1) * b) - i * b := by
  have start := div_add_mod' pos b
  have stop := div_add_mod' (pos + size - 1) b
  have stopMod : (pos % b + size - 1) % b = (pos + size - 1) % b := by
    rw [show pos + size - 1 = pos / b * b + (pos % b + size - 1) by omega, mul_add_mod']
  have below := mod_lt (pos + size - 1) positive
  rw [stopMod, succ_mul]
  split
  next last =>
    rw [← last] at stop
    omega
  next more =>
    have next : (i + 1) * b ≤ (pos + size - 1) / b * b := mul_le_mul_right _ (by omega)
    rw [succ_mul] at next
    omega

end Blocks

lemma take_drop_split (bytes : Bytes) {start middle : Nat} (order : start ≤ middle) {stop : Nat} :
    (bytes.drop start).take (min stop middle - start) ++ (bytes.drop middle).take (stop - middle) =
      (bytes.drop start).take (stop - start) := by
  rcases le_total stop middle with before | behind
  · rw [Nat.min_eq_left before, Nat.sub_eq_zero_of_le before, take_zero, append_nil]
  · rw [min_eq_right behind, show stop - start = middle - start + (stop - middle) by omega, take_add, drop_drop,
      Nat.add_sub_cancel' order]

namespace Decrypter

variable {d : Decrypter} (positive : 0 < d.blockSize)

include positive

lemma totalBlocks_eq : d.totalBlocks = alignedDiv d.fileSize d.blockSize ∧ d.totalBlocks < 2 ^ 32 := by
  have opened := d.opened
  rw [if_neg positive.ne', narrow] at opened
  split at opened
  next small =>
    have total := some.inj opened
    exact ⟨total.symm, total ▸ small⟩
  next => cases opened

variable {i : Nat}

lemma lt_totalBlocks : i < d.totalBlocks ↔ i * d.blockSize < d.fileSize := by
  rw [(totalBlocks_eq positive).1]
  rcases Nat.eq_zero_or_pos d.fileSize with empty | some
  · simp [empty, alignedDiv]
  · rw [alignedDiv_eq some, Nat.lt_succ_iff, Nat.le_div_iff_mul_le positive]
    omega

lemma narrow_block (inside : i ≤ d.totalBlocks) : narrow i = some i :=
  if_pos (lt_of_le_of_lt inside (totalBlocks_eq positive).2)

lemma endPos_eq (inside : i < d.totalBlocks) :
    (if i ≠ d.totalBlocks - 1 then d.blockSize else (d.fileSize - 1) % d.blockSize + 1) =
      min d.blockSize (d.fileSize - i * d.blockSize) := by
  have here := (lt_totalBlocks positive).mp inside
  split
  next other =>
    have next := (lt_totalBlocks positive (i := i + 1)).mp (by omega)
    rw [succ_mul] at next
    omega
  next last =>
    rw [(totalBlocks_eq positive).1, alignedDiv_eq (by omega), Nat.add_sub_cancel, not_not] at last
    have split := div_add_mod' (d.fileSize - 1) d.blockSize
    have below := mod_lt (d.fileSize - 1) positive
    rw [← last] at split
    omega

variable (whole : d.Whole)

include whole

lemma length_block (inside : i < d.totalBlocks) :
    (d.block i).length = min d.blockSize (d.fileSize - i * d.blockSize) := by
  rw [(whole i inside).2]
  have next := lt_totalBlocks positive (i := i + 1)
  have last := (lt_totalBlocks positive).mp inside
  rw [succ_mul] at next
  split <;> omega

lemma prefix_spec {n : Nat} (inside : n ≤ d.totalBlocks) :
    ((range n).flatMap d.block).length = min d.fileSize (n * d.blockSize) ∧
      ∀ i < n, (((range n).flatMap d.block).drop (i * d.blockSize)).take d.blockSize = d.block i := by
  induction n with
  | zero => simp
  | succ n ih =>
    obtain ⟨length, blocks⟩ := ih (by omega)
    have before := (lt_totalBlocks positive).mp inside
    have here := length_block positive whole inside
    rw [min_eq_right before.le] at length
    rw [range_succ, flatMap_append, flatMap_singleton]
    refine ⟨by rw [length_append, length, here, succ_mul]; omega, fun i below => ?_⟩
    rcases Nat.lt_succ_iff_lt_or_eq.mp below with earlier | rfl
    · have fits : (i + 1) * d.blockSize ≤ n * d.blockSize := mul_le_mul_right _ earlier
      rw [succ_mul] at fits
      rw [drop_append_of_le_length (by omega), take_append_of_le_length (by rw [length_drop]; omega),
        blocks i earlier]
    · rw [drop_left' length, take_of_length_le (by omega)]

lemma readLoop_slices {pos size : Nat} (some : 0 < size) (inside : pos + size ≤ d.fileSize) :
    ∀ (count i : Nat) (data : Bytes), i + count = (pos + size - 1) / d.blockSize + 1 -> pos / d.blockSize ≤ i ->
      let start := max pos (i * d.blockSize)
      let read := data ++ (d.contents.drop start).take (pos + size - start)
      d.readLoop (pos % d.blockSize) size (pos / d.blockSize) ((pos + size - 1) / d.blockSize + 1)
        (range' i count) data = (read.length, read) := by
  intro count
  have stop := div_add_mod' (pos + size - 1) d.blockSize
  have stopLt := mod_lt (pos + size - 1) positive
  induction count with
  | zero =>
    intro i data all _
    have none : pos + size - max pos (i * d.blockSize) = 0 := by
      rw [show i = (pos + size - 1) / d.blockSize + 1 from all, succ_mul]
      omega
    simp only [range'_zero, readLoop, none, take_zero, append_nil]
  | succ count ih =>
    intro i data all behind
    have before := mul_le_mul_right d.blockSize (show i ≤ (pos + size - 1) / d.blockSize by omega)
    have known := (lt_totalBlocks positive (i := i)).mpr (by omega)
    obtain ⟨block, decrypted⟩ := ne_none_iff_exists'.mp (whole i known).1
    have length := length_block positive whole known
    have slice := (prefix_spec positive whole le_rfl).2 i known
    rw [Decrypter.block, decrypted, getD_some] at length slice
    have readEnd := readEnd_eq positive some inside (i := i) (by omega)
    rw [← length] at readEnd
    have skipped := mul_le_mul_right d.blockSize behind
    have start := div_add_mod' pos d.blockSize
    have startLt := mod_lt pos positive
    rw [range'_succ, readLoop, decrypted]
    dsimp only
    rw [skip_eq positive behind, endPos_eq positive known, ← length, Nat.add_sub_cancel, readEnd,
      if_neg (by rw [length]; omega), ih (i + 1) _ (by omega) (by omega), append_assoc,
      ← take_drop_split d.contents (max_le_max_left pos (mul_le_mul_right d.blockSize i.le_succ)), ← slice, drop_take,
      drop_drop, take_take, Nat.add_sub_cancel' (le_max_right ..), contents]
    rw [slice, length, succ_mul, taken_eq (by omega) inside (by omega)]

theorem read_data_slices (pos size : Nat) :
    d.contents.length = d.fileSize ∧
      d.readData pos size = some (min size (d.fileSize - pos),
        (d.contents.drop pos).take (min size (d.fileSize - pos))) := by
  have length : d.contents.length = d.fileSize := by
    have all := lt_totalBlocks positive (i := d.totalBlocks)
    rw [contents, (prefix_spec positive whole le_rfl).1]
    omega
  refine ⟨length, ?_⟩
  have limited : min size (if pos > d.fileSize then 0 else d.fileSize - pos) = min size (d.fileSize - pos) := by
    split <;> omega
  rw [readData, limited]
  generalize counted : min size (d.fileSize - pos) = returned
  split
  next none => rw [none, take_zero]
  next some =>
    have start := div_add_mod' pos d.blockSize
    have starting := (lt_totalBlocks positive (i := pos / d.blockSize)).mpr (by omega)
    have ending : pos / d.blockSize + alignedDiv (pos % d.blockSize + returned) d.blockSize =
        (pos + returned - 1) / d.blockSize + 1 := by
      rw [alignedDiv_eq (by omega), ← add_assoc,
        show pos + returned - 1 = pos / d.blockSize * d.blockSize + (pos % d.blockSize + returned - 1) by omega,
        mul_comm, mul_add_div positive]
    have last := (lt_totalBlocks positive (i := (pos + returned - 1) / d.blockSize)).mpr
      (lt_of_le_of_lt (div_mul_le_self ..) (by omega))
    have order := Nat.div_le_div_right (c := d.blockSize) (show pos ≤ pos + returned - 1 by omega)
    have read := readLoop_slices positive whole (pos_of_ne_zero some) (show pos + returned ≤ d.fileSize by omega)
      ((pos + returned - 1) / d.blockSize + 1 - pos / d.blockSize) (pos / d.blockSize) [] (by omega) le_rfl
    dsimp only at read
    rw [max_eq_left (Nat.div_mul_le_self ..), Nat.add_sub_cancel_left, nil_append, length_take, length_drop,
      length, min_eq_left (show returned ≤ d.fileSize - pos by omega)] at read
    simp only [narrow_block positive starting.le, Option.bind_eq_bind, Option.bind_some, ending, Nat.min_eq_left last,
      narrow_block positive last]
    rw [read]

end Decrypter

lemma twoBlocks_opened : (if 2 = 0 then some 0 else narrow (alignedDiv 3 2)) = some 2 := rfl

def twoBlocks : Decrypter where
  blockSize := 2
  fileSize := 3
  totalBlocks := 2
  decryptBlock i := if i = 0 then some [1, 2] else some [3]
  opened := twoBlocks_opened

lemma twoBlocks_whole : twoBlocks.Whole := by
  intro i inside
  obtain rfl | rfl : i = 0 ∨ i = 1 := by
    change i < 2 at inside
    omega
  · exact ⟨some_ne_none _, rfl⟩
  · exact ⟨some_ne_none _, rfl⟩

theorem read_data_two_blocks : twoBlocks.Whole ∧ twoBlocks.readData 1 5 = some (2, [2, 3]) :=
  ⟨twoBlocks_whole, (Decrypter.read_data_slices zero_lt_two twoBlocks_whole 1 5).2⟩

end EmuCore.Edat
