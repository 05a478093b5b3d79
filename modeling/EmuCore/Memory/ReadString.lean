import EmuCore.Memory.RangeLock
import Mathlib.Data.List.TakeWhile

namespace EmuCore.Memory

open PageFlags List

abbrev Bytes := Nat -> UInt8

def readSize (addr maxSize : Nat) : Nat :=
  if sub32 0 maxSize < addr then sub32 0 addr else maxSize

def readEnd (addr size : Nat) : Nat := sub32 (Align.up 32 (u32 (addr + size)) 4096) 1

structure ReadOutcome where
  returned : Option Bool
  outString : List UInt8
deriving DecidableEq

def readLoop (pages : Pages) (memory : Bytes) (checkPages : Bool) (last : Nat) :
    Nat -> Nat -> List UInt8 -> Option ReadOutcome
  | 0, _, _ => none
  | fuel + 1, i, outString =>
    if i ≤ last then
      if checkPages && !checkPage pages i readable then some ⟨some false, outString⟩
      else
        let space := min (u32 (sub32 last i + 1)) (4096 - i % 4096)
        let appended := ((List.range' i space).map memory).takeWhile (· ≠ 0)
        let kept := appended.takeWhile (· ≠ 0)
        if kept.length ≠ appended.length ∨ appended.length ≠ space then
          some ⟨some true, outString ++ kept⟩
        else if u32 (i + space) = 0 then some ⟨none, outString ++ kept⟩
        else readLoop pages memory checkPages last fuel (u32 (i + space)) (outString ++ kept)
    else some ⟨none, outString⟩

def readString (pages : Pages) (memory : Bytes) (addr maxSize : Nat) (outString : List UInt8)
    (checkPages : Bool) : Option (Bool × List UInt8) :=
  if maxSize = 0 then some (true, outString)
  else
    let size := readSize addr maxSize
    (readLoop pages memory checkPages (readEnd addr size) (2 ^ 20 + 1) addr outString).map fun outcome =>
      (outcome.returned.getD (size == maxSize), outcome.outString)

inductive Stop
  | nul
  | unreadable
  | limit
deriving DecidableEq

def scan (pages : Pages) (memory : Bytes) : Nat -> Nat -> List UInt8 × Stop
  | 0, _ => ([], .limit)
  | n + 1, x =>
    if checkPage pages x readable then
      if memory x = 0 then ([], .nul)
      else (memory x :: (scan pages memory n (x + 1)).1, (scan pages memory n (x + 1)).2)
    else ([], .unreadable)

section Scan

variable {pages : Pages} {memory : Bytes}

lemma scan_add (n m x : Nat) : scan pages memory (n + m) x =
    if (scan pages memory n x).2 = .limit then
      ((scan pages memory n x).1 ++ (scan pages memory m (x + n)).1, (scan pages memory m (x + n)).2)
    else scan pages memory n x := by
  induction n generalizing x with
  | zero => simp [scan]
  | succ n ih =>
    rw [add_right_comm, scan, scan, ih (x + 1), add_right_comm x 1 n, add_assoc x n 1]
    split
    next =>
      split
      next => rfl
      next => split <;> rfl
    next => rfl

variable (memory) in
lemma scan_page {n x : Nat} (inside : x % 4096 + n ≤ 4096) (open_ : checkPage pages x readable = true) :
    (scan pages memory n x).1 = ((List.range' x n).map memory).takeWhile (· ≠ 0) ∧
      (scan pages memory n x).2 = if (scan pages memory n x).1.length = n then .limit else .nul := by
  induction n generalizing x with
  | zero => exact ⟨rfl, rfl⟩
  | succ n ih =>
    rw [scan, if_pos open_, range'_succ, map_cons]
    split
    next found => simp [found]
    next other =>
      rcases Nat.eq_zero_or_pos n with rfl | more
      · simp [scan, other]
      have same : (x + 1) / 4096 = x / 4096 := by omega
      obtain ⟨text, stop⟩ := ih (x := x + 1) (by omega) (by rw [checkPage, same]; exact open_)
      rw [takeWhile_cons_of_pos (by simpa using other), ← text]
      refine ⟨rfl, stop.trans ?_⟩
      simp

lemma scan_unreadable {n x : Nat} (some_ : 0 < n) (closed : checkPage pages x readable = false) :
    scan pages memory n x = ([], .unreadable) := by
  obtain ⟨n, rfl⟩ : ∃ k, n = k + 1 := ⟨n - 1, by omega⟩
  rw [scan, if_neg (by simp [closed])]

lemma scan_limit {n x : Nat} (all : (scan pages memory (n + 1) x).2 = .limit) :
    checkPage pages (x + n) readable = true := by
  rw [scan_add] at all
  split at all
  next =>
    by_contra closed
    rw [scan_unreadable one_pos (Bool.eq_false_iff.mpr closed)] at all
    cases all
  next => contradiction

end Scan

def Stop.returned : Stop -> Option Bool
  | .nul => some true
  | .unreadable => some false
  | .limit => none

section Loop

variable {pages : Pages} {memory : Bytes} {last i : Nat}

lemma space_eq (whole : (last + 1) % 4096 = 0) (inside : i ≤ last)
    (part : last + 1 - i < 2 ^ 32) : min (u32 (sub32 last i + 1)) (4096 - i % 4096) = 4096 - i % 4096 := by
  have rest : u32 (sub32 last i + 1) = last + 1 - i := by
    unfold sub32 u32
    omega
  rw [rest]
  omega

lemma readLoop_scan (small : last < 2 ^ 32) (whole : (last + 1) % 4096 = 0) {fuel : Nat}
    (inside : i ≤ last + 1) (positive : 0 < i ∨ last + 1 < 2 ^ 32) (enough : (last + 1 - i + 4095) / 4096 < fuel)
    (outString : List UInt8) :
    readLoop pages memory true last fuel i outString =
      some ⟨(scan pages memory (last + 1 - i) i).2.returned,
        outString ++ (scan pages memory (last + 1 - i) i).1⟩ := by
  induction fuel generalizing i outString with
  | zero => omega
  | succ fuel ih =>
    rw [readLoop]
    by_cases more : i ≤ last
    · rw [if_pos more]
      cases readable_ : checkPage pages i readable with
      | false => simp [scan_unreadable (show 0 < last + 1 - i by omega) readable_, Stop.returned]
      | true =>
        simp only [Bool.not_true, Bool.and_false, Bool.false_eq_true, if_false,
          space_eq whole more (by omega)]
        obtain ⟨text, stop⟩ := scan_page memory (n := 4096 - i % 4096) (by omega) readable_
        have split : last + 1 - i = 4096 - i % 4096 + (last + 1 - (i + (4096 - i % 4096))) := by omega
        have kept : (scan pages memory (4096 - i % 4096) i).1.takeWhile (· ≠ 0) =
            (scan pages memory (4096 - i % 4096) i).1 := by
          simp only [text, takeWhile_takeWhile, and_self, Bool.decide_eq_true]
        rw [← text, kept, split, scan_add]
        generalize scan pages memory (4096 - i % 4096) i = part at stop ⊢
        by_cases full : part.1.length = 4096 - i % 4096
        · rw [if_neg (by simp [full]), stop, if_pos full, if_pos rfl]
          by_cases top : i + (4096 - i % 4096) = 2 ^ 32
          · rw [top, if_pos (by decide), show last + 1 - 2 ^ 32 = 0 by omega]
            simp [scan, Stop.returned]
          · have below : u32 (i + (4096 - i % 4096)) = i + (4096 - i % 4096) := Nat.mod_eq_of_lt (by omega)
            rw [below, if_neg (by omega), ih (by omega) (by omega) (by omega), append_assoc]
        · have found : part.2 = .nul := stop.trans (if_neg full)
          rw [if_pos (.inr full), found, if_neg (by decide), found]
          rfl
    · rw [if_neg more, show last + 1 - i = 0 by omega]
      simp [scan, Stop.returned]

end Loop

section Limits

variable {addr maxSize : Nat}

lemma readSize_eq (small : addr < 2 ^ 32) (some_ : 0 < maxSize) (fits : maxSize < 2 ^ 32) :
    readSize addr maxSize = min maxSize (2 ^ 32 - addr) := by
  unfold readSize sub32 u32
  split <;> omega

lemma readEnd_eq (addr size : Nat) (some_ : 0 < size) (fits : addr + size ≤ 2 ^ 32) :
    readEnd addr size + 1 = (addr + size + 4095) / 4096 * 4096 := by
  rw [readEnd, Align.up, show 4096 = 2 ^ 12 from rfl,
    Align.down_two_pow (Nat.mod_lt _ (by decide)) (by decide)]
  unfold sub32 u32
  omega

end Limits

section Limit

variable (pages : Pages) (memory : Bytes) (addr maxSize : Nat)

def allowed : List UInt8 × Stop := scan pages memory (min maxSize (2 ^ 32 - addr)) addr

def Accepted : Prop :=
  (allowed pages memory addr maxSize).2 = .nul ∨
    (allowed pages memory addr maxSize).2 = .limit ∧ maxSize ≤ 2 ^ 32 - addr

-- The number of bytes left wraps to zero, and the loop ends before it reads one.
def WholeSpace : Prop := addr = 0 ∧ 2 ^ 32 - 4096 < maxSize

/-- Nothing is appended after the size limit: the reader stopped before it, the limit is the end of a page,
or the byte there is a zero. -/
def StopsInTime : Prop :=
  (WholeSpace addr maxSize -> (allowed pages memory addr maxSize).1 = []) ∧
    (¬ WholeSpace addr maxSize -> (allowed pages memory addr maxSize).2 ≠ .limit ∨
      (addr + maxSize) % 4096 = 0 ∨ 2 ^ 32 - addr ≤ maxSize ∨ memory (addr + maxSize) = 0)

variable {addr maxSize}

lemma scan_after {n r : Nat} (all : (scan pages memory n addr).2 = .limit) (some_ : 0 < n) (more : 0 < r)
    (inside : (addr + n) % 4096 + r ≤ 4096) (cut : (addr + n) % 4096 ≠ 0) :
    (scan pages memory r (addr + n)).2 ≠ .unreadable ∧
      ((scan pages memory r (addr + n)).1 = [] ↔ memory (addr + n) = 0) := by
  obtain ⟨n, rfl⟩ : ∃ k, n = k + 1 := ⟨n - 1, by omega⟩
  have open_ : checkPage pages (addr + (n + 1)) readable = true := by
    have before := scan_limit all
    rwa [checkPage, show (addr + n) / 4096 = (addr + (n + 1)) / 4096 by omega] at before
  constructor
  · rw [(scan_page memory inside open_).2]
    split <;> simp
  obtain ⟨r, rfl⟩ : ∃ k, r = k + 1 := ⟨r - 1, by omega⟩
  rw [scan, if_pos open_]
  split
  next found => simp [found]
  next other => simp [other]

lemma readString_scan (small : addr < 2 ^ 32) (some_ : 0 < maxSize) (fits : maxSize < 2 ^ 32)
    (part : ¬ WholeSpace addr maxSize) (outString : List UInt8) :
    ∃ r, addr + min maxSize (2 ^ 32 - addr) + r = (addr + min maxSize (2 ^ 32 - addr) + 4095) / 4096 * 4096 ∧
      readString pages memory addr maxSize outString true =
        some ((scan pages memory (min maxSize (2 ^ 32 - addr) + r) addr).2.returned.getD
            (min maxSize (2 ^ 32 - addr) == maxSize),
          outString ++ (scan pages memory (min maxSize (2 ^ 32 - addr) + r) addr).1) := by
  have last := readEnd_eq addr (min maxSize (2 ^ 32 - addr)) (by omega) (by omega)
  rw [WholeSpace] at part
  refine ⟨readEnd addr (min maxSize (2 ^ 32 - addr)) + 1 - addr - min maxSize (2 ^ 32 - addr), by omega, ?_⟩
  rw [readString, if_neg some_.ne']
  dsimp only
  rw [readSize_eq small some_ fits, readLoop_scan (by omega) (by omega) (by omega) (by omega) (by omega),
    show min maxSize (2 ^ 32 - addr) + (readEnd addr (min maxSize (2 ^ 32 - addr)) + 1 - addr -
      min maxSize (2 ^ 32 - addr)) = readEnd addr (min maxSize (2 ^ 32 - addr)) + 1 - addr by omega]
  rfl

lemma readString_whole (whole : WholeSpace addr maxSize) (fits : maxSize < 2 ^ 32) (outString : List UInt8) :
    readString pages memory addr maxSize outString true =
      some (checkPage pages 0 readable, outString) := by
  obtain ⟨rfl, large⟩ := whole
  have last := readEnd_eq 0 maxSize (by omega) (by omega)
  have top : readEnd 0 maxSize = 2 ^ 32 - 1 := by omega
  rw [readString, if_neg (by omega)]
  dsimp only
  rw [readSize_eq (by decide) (by omega) fits, show min maxSize (2 ^ 32 - 0) = maxSize by omega, top, readLoop,
    if_pos (by decide), show min (u32 (sub32 (2 ^ 32 - 1) 0 + 1)) (4096 - 0 % 4096) = 0 by decide]
  cases checkPage pages 0 readable with
  | false => rfl
  | true => simp [u32]

lemma whole_iff (whole : WholeSpace addr maxSize) (outString : List UInt8) :
    (outString = outString ++ (allowed pages memory addr maxSize).1 ∧
        (checkPage pages 0 readable = true ↔ Accepted pages memory addr maxSize)) ↔
      StopsInTime pages memory addr maxSize := by
  rw [StopsInTime, self_eq_append_right]
  constructor
  · intro correct
    exact ⟨fun _ => correct.1, fun part => absurd whole part⟩
  intro stops
  have empty := stops.1 whole
  refine ⟨empty, ?_⟩
  obtain ⟨rfl, large⟩ := whole
  obtain ⟨n, count⟩ : ∃ n, min maxSize (2 ^ 32 - 0) = n + 1 := ⟨min maxSize (2 ^ 32 - 0) - 1, by omega⟩
  rw [allowed, count, scan] at empty
  rw [Accepted, allowed, count, scan]
  split at empty
  next open_ =>
    split at empty
    next found => simp [open_, found]
    next => cases empty
  next closed => simp [closed]

lemma returned_iff {r : Nat} (small : addr < 2 ^ 32) (some_ : 0 < maxSize) (fits : maxSize < 2 ^ 32)
    (page : addr + min maxSize (2 ^ 32 - addr) + r =
      (addr + min maxSize (2 ^ 32 - addr) + 4095) / 4096 * 4096) :
    (scan pages memory (min maxSize (2 ^ 32 - addr) + r) addr).2.returned.getD
        (min maxSize (2 ^ 32 - addr) == maxSize) = true ↔ Accepted pages memory addr maxSize := by
  have size : maxSize ≤ 2 ^ 32 - addr ↔ min maxSize (2 ^ 32 - addr) = maxSize := by omega
  rw [scan_add, Accepted, allowed, size]
  generalize limit : min maxSize (2 ^ 32 - addr) = n at page ⊢
  cases stop : (scan pages memory n addr).2 with
  | nul | unreadable => simp [stop, Stop.returned]
  | limit =>
    rw [if_pos rfl]
    rcases Nat.eq_zero_or_pos r with rfl | more
    · simp [scan, Stop.returned]
    obtain rfl : n = maxSize := by omega
    have after := (scan_after pages memory stop (by omega) more (by omega) (by omega)).1
    simp only [beq_self_eq_true, and_self, or_true, iff_true]
    cases last : (scan pages memory r (addr + n)).2 with
    | nul => rfl
    | unreadable => exact absurd last after
    | limit => rfl

lemma text_iff {r : Nat} (small : addr < 2 ^ 32) (some_ : 0 < maxSize) (part : ¬ WholeSpace addr maxSize)
    (page : addr + min maxSize (2 ^ 32 - addr) + r =
      (addr + min maxSize (2 ^ 32 - addr) + 4095) / 4096 * 4096) :
    (scan pages memory (min maxSize (2 ^ 32 - addr) + r) addr).1 = (allowed pages memory addr maxSize).1 ↔
      StopsInTime pages memory addr maxSize := by
  have stops : StopsInTime pages memory addr maxSize ↔ (allowed pages memory addr maxSize).2 ≠ .limit ∨
      (addr + maxSize) % 4096 = 0 ∨ 2 ^ 32 - addr ≤ maxSize ∨ memory (addr + maxSize) = 0 := by
    rw [StopsInTime]
    exact ⟨fun both => both.2 part, fun stops => ⟨fun whole => absurd whole part, fun _ => stops⟩⟩
  rw [stops, scan_add, allowed]
  generalize limit : min maxSize (2 ^ 32 - addr) = n at page ⊢
  by_cases stop : (scan pages memory n addr).2 = .limit
  · rw [if_pos stop, append_right_eq_self]
    rcases Nat.eq_zero_or_pos r with rfl | more
    · simp only [scan, stop, ne_eq, not_true_eq_false, false_or, true_iff]
      omega
    obtain rfl : n = maxSize := by omega
    rw [(scan_after pages memory stop (by omega) more (by omega) (by omega)).2]
    simp only [stop, ne_eq, not_true_eq_false, false_or]
    constructor
    · intro found
      exact .inr (.inr found)
    rintro (aligned | short | found)
    · omega
    · omega
    · exact found
  · rw [if_neg stop]
    simp [stop]

end Limit

theorem read_string_iff (pages : Pages) (memory : Bytes) (addr maxSize : Nat) (outString : List UInt8)
    (small : addr < 2 ^ 32) (some_ : 0 < maxSize) (fits : maxSize < 2 ^ 32) :
    ∃ result text, readString pages memory addr maxSize outString true = some (result, text) ∧
      ((text = outString ++ (allowed pages memory addr maxSize).1 ∧
          (result = true ↔ Accepted pages memory addr maxSize)) ↔ StopsInTime pages memory addr maxSize) ∧
      (¬ WholeSpace addr maxSize -> (result = true ↔ Accepted pages memory addr maxSize)) := by
  by_cases whole : WholeSpace addr maxSize
  · refine ⟨_, _, readString_whole pages memory whole fits outString, ?_, fun part => absurd whole part⟩
    exact whole_iff pages memory whole outString
  obtain ⟨r, page, ran⟩ := readString_scan pages memory small some_ fits whole outString
  refine ⟨_, _, ran, ?_⟩
  have accepted := returned_iff pages memory small some_ fits page
  refine ⟨?_, fun _ => accepted⟩
  rw [and_iff_left accepted, append_right_inj]
  exact text_iff pages memory small some_ whole page

def openPages : Pages := fun _ => readable ||| allocated

def letters : Bytes := fun x => if x % 3 = 2 then 0 else 65

theorem read_string_terminated : StopsInTime openPages letters 3 5 ∧
    ∃ result text, readString openPages letters 3 5 [66] true = some (result, text) ∧
      text = [66, 65, 65] ∧ result = true := by
  have stops : StopsInTime openPages letters 3 5 :=
    ⟨fun whole => absurd whole.1 (by decide), fun _ => .inl (by decide)⟩
  obtain ⟨result, text, ran, exact_, _⟩ :=
    read_string_iff openPages letters 3 5 [66] (by decide) (by decide) (by decide)
  obtain ⟨appended, answer⟩ := exact_.mpr stops
  exact ⟨stops, result, text, ran, appended.trans (by decide), answer.mpr (.inl (by decide))⟩

-- Three bytes are asked for, and the page is read up to the zero behind them or to its end; nothing is read
-- when all of memory is asked for.
theorem read_string_exceeds :
    readString openPages (fun x => if x < 8 then 65 else 0) 0 3 [] true =
      some (true, List.replicate 8 65) ∧
    readString openPages (fun _ => 65) 0 0xffffffff [] true = some (true, []) := by
  constructor
  · decide
  · decide

end EmuCore.Memory
