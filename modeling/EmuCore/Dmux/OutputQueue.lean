import EmuCore.Lib.Placement

namespace EmuCore.Dmux

open Slice

abbrev Bytes := List UInt8

-- access_unit_chunk: bytes kept from the packet before, then bytes of this one.
structure Chunk where
  cached : Bytes
  data : Bytes
deriving DecidableEq

def Chunk.bytes (chunk : Chunk) : Bytes := chunk.cached ++ chunk.data

def Chunk.size (chunk : Chunk) : Nat := chunk.data.length + chunk.cached.length

lemma Chunk.length_bytes (chunk : Chunk) : chunk.bytes.length = chunk.size := by
  rw [Chunk.bytes, Chunk.size, List.length_append, add_comm]

structure OutputQueue where
  base : Nat
  size : Nat
  fits : size < 2 ^ 32
  memory : Nat -> UInt8
  back : Nat
  front : Nat
  wrapPos : Nat

variable {chunk : Chunk}

namespace OutputQueue

def fresh (base size : Nat) (fits : size < 2 ^ 32) (memory : Nat -> UInt8) : OutputQueue :=
  ⟨base, size, fits, memory, base, base, base⟩

def stop (q : OutputQueue) : Nat := q.base + q.size

def distance (upper lower : Nat) : Nat := (((upper : Int) - lower) % 2 ^ 32).toNat

variable (q : OutputQueue)

def popBack (auSize : Nat) : Option OutputQueue :=
  if q.base + auSize ≤ q.back then some { q with back := q.back - auSize } else none

def popBackAt (auAddr : Nat) : Option OutputQueue :=
  if q.base ≤ auAddr ∧ auAddr < q.stop then
    some { q with wrapPos := if q.back < auAddr then q.base else q.wrapPos, back := auAddr }
  else none

def popFront (auSize : Nat) : Option OutputQueue :=
  if q.front + auSize ≤ q.stop then
    if q.wrapPos ≠ q.base ∧ q.wrapPos ≤ q.front + auSize then
      if q.wrapPos = q.front + auSize then some { q with front := q.base, wrapPos := q.base } else none
    else some { q with front := q.front + auSize }
  else none

def peekBack (auSize : Nat) : Nat := q.back - auSize

def clear : OutputQueue := { q with back := q.base, front := q.base, wrapPos := q.base }

def pushUnchecked (chunk : Chunk) : OutputQueue :=
  { q with
    memory := put (put q.memory q.back chunk.cached) (q.back + chunk.cached.length) chunk.data
    back := q.back + chunk.size }

inductive Pushed
  | pushed
  | full
  | fatal
deriving DecidableEq

variable (q : OutputQueue)

def push (chunk : Chunk) : Pushed × OutputQueue :=
  if q.wrapPos = q.base then
    if chunk.size > distance q.stop q.back then (.fatal, q) else (.pushed, q.pushUnchecked chunk)
  else if chunk.size + 0x10 > distance q.front q.back then (.full, q)
  else (.pushed, q.pushUnchecked chunk)

def prepareNextAu (auMaxSize : Nat) : Bool × OutputQueue :=
  if q.stop < q.back + auMaxSize then
    if q.wrapPos ≠ q.base then (false, q) else (true, { q with wrapPos := q.back, back := q.base })
  else (true, q)

def getFreeSize : Nat :=
  (((if q.wrapPos ≠ q.base then q.front else q.stop : Nat) - (q.back : Int)) % 2 ^ 64).toNat

lemma distance_of_le {upper lower : Nat} (le : lower ≤ upper) (near : upper < lower + 2 ^ 32) :
    distance upper lower = upper - lower := by
  rw [distance, Int.emod_eq_of_lt (by omega) (by omega)]
  omega

lemma pushUnchecked_memory (q : OutputQueue) (chunk : Chunk) :
    (q.pushUnchecked chunk).memory = put q.memory q.back chunk.bytes := put_append _ _ _ _

section Cases

variable {q q' : OutputQueue}

lemma push_pushed : (q.push chunk).1 = .pushed ->
    (q.push chunk).2 = q.pushUnchecked chunk ∧ if q.wrapPos = q.base then chunk.size ≤ distance q.stop q.back
      else chunk.size + 0x10 ≤ distance q.front q.back := by
  fun_cases push q chunk with
  | case2 straight room =>
    rw [if_pos straight]
    exact fun _ => ⟨rfl, not_lt.mp room⟩
  | case4 wrapped room =>
    rw [if_neg wrapped]
    exact fun _ => ⟨rfl, not_lt.mp room⟩
  | _ => rintro ⟨⟩

lemma push_room (low : q.base ≤ q.back) (inside : q.back ≤ q.stop)
    (order : q.wrapPos ≠ q.base -> q.back ≤ q.front ∧ q.front ≤ q.stop) (pushed : (q.push chunk).1 = .pushed) :
    (q.wrapPos = q.base -> q.back + chunk.size ≤ q.stop) ∧ (q.wrapPos ≠ q.base -> q.back + chunk.size ≤ q.front) := by
  have room := (push_pushed pushed).2
  have fits := q.fits
  have stop : q.stop = q.base + q.size := rfl
  split at room
  next unwrapped =>
    rw [distance_of_le inside (by omega)] at room
    exact ⟨fun _ => by omega, fun wrapped => absurd unwrapped wrapped⟩
  next wrapped =>
    obtain ⟨order, last⟩ := order wrapped
    rw [distance_of_le order (by omega)] at room
    exact ⟨fun unwrapped => absurd unwrapped wrapped, fun _ => by omega⟩

lemma push_unchanged (refused : (q.push chunk).1 ≠ .pushed) : (q.push chunk).2 = q := by
  unfold push at refused ⊢
  split_ifs at refused ⊢ <;> first | rfl | exact absurd rfl refused

lemma prepareNextAu_cases (q : OutputQueue) (auMaxSize : Nat) :
    (q.prepareNextAu auMaxSize).2 = q ∨ (q.prepareNextAu auMaxSize).1 = true ∧ q.wrapPos = q.base ∧
      (q.prepareNextAu auMaxSize).2 = { q with wrapPos := q.back, back := q.base } := by
  unfold prepareNextAu
  split
  next =>
    split
    next => exact .inl rfl
    next straight => exact .inr ⟨rfl, not_not.mp straight, rfl⟩
  next => exact .inl rfl

end Cases

end OutputQueue

end EmuCore.Dmux
