import Mathlib.Tactic

namespace Circular

open Nat

variable {depth n a b : Nat}

-- The slot after `n`, and the one `a` places before it, in a ring of `depth` slots.
def advance (depth n : Nat) : Nat := if n + 1 ≠ depth then n + 1 else 0

def back (depth n a : Nat) : Nat := (n + depth - a) % depth

variable (inside : n < depth)

include inside

lemma advance_lt : advance depth n < depth := by
  unfold advance
  split <;> omega

lemma back_eq (low : 1 ≤ a) (high : a ≤ depth) :
    back depth n a = if a ≤ n then n - a else n + depth - a := by
  unfold back
  split
  next before =>
    rw [show n + depth - a = n - a + depth by omega, add_mod_right, mod_eq_of_lt (by omega)]
  next => exact mod_eq_of_lt (by omega)

lemma back_inj (lowA : 1 ≤ a) (highA : a ≤ depth) (lowB : 1 ≤ b)
    (highB : b ≤ depth) (same : back depth n a = back depth n b) : a = b := by
  rw [back_eq inside lowA highA, back_eq inside lowB highB] at same
  split at same <;> split at same <;> omega

lemma back_one : back depth (advance depth n) 1 = n := by
  rw [back_eq (advance_lt inside) le_rfl (by omega), advance]
  split <;> split <;> omega

lemma back_succ (low : 1 ≤ a) (room : a + 1 ≤ depth) :
    back depth (advance depth n) (a + 1) = back depth n a := by
  rw [back_eq (advance_lt inside) (by omega) room, back_eq inside low (by omega), advance]
  split <;> split <;> split <;> omega

omit inside

def ahead (depth lead follow : Nat) : Nat := (lead + depth - follow) % depth

lemma ahead_eq (lead : a < depth) (follow : b < depth) :
    ahead depth a b = if b ≤ a then a - b else a + depth - b := by
  unfold ahead
  split
  next before =>
    rw [show a + depth - b = a - b + depth by omega, add_mod_right, mod_eq_of_lt (by omega)]
  next => exact mod_eq_of_lt (by omega)

lemma add_mod_eq (inside : a < depth) (step : n ≤ depth) :
    (a + n) % depth = if a + n < depth then a + n else a + n - depth := by
  split
  next below => exact mod_eq_of_lt below
  next above =>
    rw [mod_eq_sub_mod (by omega)]
    exact mod_eq_of_lt (by omega)

lemma ahead_lead (lead : a < depth) (follow : b < depth) (room : ahead depth a b + n < depth) :
    ahead depth ((a + n) % depth) b = ahead depth a b + n := by
  rw [ahead_eq lead follow] at room ⊢
  rw [ahead_eq (mod_lt _ (by omega)) follow, add_mod_eq lead (by omega)]
  split_ifs at * <;> omega

lemma ahead_follow (lead : a < depth) (follow : b < depth) (some_ : n ≤ ahead depth a b) :
    ahead depth a ((b + n) % depth) = ahead depth a b - n := by
  rw [ahead_eq lead follow] at some_ ⊢
  have few : n ≤ depth := by split at some_ <;> omega
  rw [ahead_eq lead (mod_lt _ (by omega)), add_mod_eq follow few]
  split_ifs at * <;> omega

end Circular
