import Mathlib.Tactic

-- Consecutive places of an unbounded store as a list.
namespace Slice

open List Nat

variable {α : Type}

def slice (content : Nat -> α) (start size : Nat) : List α := (List.range size).map fun i => content (start + i)

variable (content : Nat -> α)

@[simp] lemma length_slice (start size : Nat) : (slice content start size).length = size := by
  simp [slice]

@[simp] lemma slice_zero (start : Nat) : slice content start 0 = [] := rfl

variable {size start : Nat}

lemma getElem?_slice {i : Nat} (inside : i < size) :
    (slice content start size)[i]? = some (content (start + i)) := by
  simp [slice, inside]

lemma slice_add (start first second : Nat) :
    slice content start (first + second) = slice content start first ++ slice content (start + first) second := by
  simp only [slice, range_add, map_append, map_map, Function.comp_def, add_assoc]

lemma take_slice {count : Nat} (inside : count ≤ size) :
    (slice content start size).take count = slice content start count := by
  obtain ⟨rest, rfl⟩ := Nat.exists_eq_add_of_le inside
  rw [slice_add, take_left' (length_slice content start count)]

lemma drop_slice {count : Nat} (inside : count ≤ size) :
    (slice content start size).drop count = slice content (start + count) (size - count) := by
  obtain ⟨rest, rfl⟩ := Nat.exists_eq_add_of_le inside
  rw [slice_add, drop_left' (length_slice content start count), Nat.add_sub_cancel_left]

lemma slice_congr {other : Nat -> α} (same : ∀ i < size, content (start + i) = other (start + i)) :
    slice content start size = slice other start size := by
  refine map_congr_left fun i inside => same i (mem_range.mp inside)

variable {content}

lemma take_drop_eq_slice (bytes : List α) (start skip count : Nat)
    (same : ∀ i, skip ≤ i -> i < skip + count -> bytes[i]? = some (content (start + i))) :
    (bytes.drop skip).take count = slice content (start + skip) count := by
  refine ext_getElem? fun i => ?_
  by_cases inside : i < count
  · rw [getElem?_take_of_lt inside, getElem?_drop, same _ (le_add_right skip i) (by omega),
      getElem?_slice content inside, add_assoc]
  · rw [getElem?_eq_none (by simp; omega), getElem?_eq_none (by simp; omega)]

def put (buffer : Nat -> α) (pos : Nat) (values : List α) : Nat -> α := fun x =>
  if pos ≤ x then values[x - pos]?.getD (buffer x) else buffer x

def Fills (content : Nat -> α) (address size : Nat) (buffer : Nat -> α) (pos : Nat) (filled : Nat -> α) : Prop :=
  slice filled pos size = slice content address size ∧
    ∀ x, x < pos ∨ pos + size ≤ x -> filled x = buffer x

lemma fills_put (buffer : Nat -> α) (pos : Nat) {address : Nat} {values : List α}
    (same : values = slice content address size) :
    Fills content address size buffer pos (put buffer pos values) := by
  subst same
  refine ⟨map_congr_left fun i inside => ?_, fun x outside => ?_⟩
  · rw [mem_range] at inside
    rw [put, if_pos (Nat.le_add_right pos i), Nat.add_sub_cancel_left, getElem?_slice content inside]
    rfl
  rw [put]
  split
  next above =>
    rw [getElem?_eq_none (by rw [length_slice]; omega)]
    rfl
  next => rfl

lemma slice_put (buffer : Nat -> α) (pos : Nat) (values : List α) :
    slice (put buffer pos values) pos values.length = values := by
  refine ext_getElem? fun i => ?_
  by_cases inside : i < values.length
  · rw [getElem?_slice _ inside, put, if_pos (Nat.le_add_right pos i), Nat.add_sub_cancel_left,
      getElem?_eq_getElem inside]
    rfl
  · rw [getElem?_eq_none (by simpa using inside), getElem?_eq_none (by simpa using inside)]

lemma put_apart (buffer : Nat -> α) {pos x : Nat} {values : List α} (apart : x < pos ∨ pos + values.length ≤ x) :
    put buffer pos values x = buffer x := by
  rw [put]
  split
  next above =>
    rw [getElem?_eq_none (by omega)]
    rfl
  next => rfl

lemma put_append (buffer : Nat -> α) (pos : Nat) (first second : List α) :
    put (put buffer pos first) (pos + first.length) second = put buffer pos (first ++ second) := by
  funext x
  simp only [put]
  by_cases before : x < pos
  · rw [if_neg (by omega), if_neg (by omega), if_neg (by omega)]
  by_cases inside : x < pos + first.length
  · rw [if_neg (by omega), if_pos (by omega), if_pos (by omega), getElem?_append_left (by omega)]
  · rw [if_pos (by omega), if_pos (by omega), if_pos (by omega), getElem?_append_right (by omega),
      getElem?_eq_none (l := first) (by omega), sub_add_eq]
    rfl

lemma Fills.append {buffer middle filled : Nat -> α} {pos address first second : Nat}
    (one : Fills content address first buffer pos middle)
    (two : Fills content (address + first) second middle (pos + first) filled) :
    Fills content address (first + second) buffer pos filled := by
  refine ⟨?_, fun x outside => ?_⟩
  · have kept : slice filled pos first = slice middle pos first :=
      slice_congr _ fun i inside => two.2 (pos + i) (by omega)
    rw [slice_add, slice_add, kept, one.1, two.1]
  · rw [two.2 x (by omega), one.2 x (by omega)]

end Slice
