import Mathlib.Tactic

namespace Align

open Nat

variable {w : Nat}

-- `x & (0 - align)` and `(x + (align - 1)) & (0 - align)` in an unsigned type of `w` bits.
def down (w x align : Nat) : Nat := x &&& (2 ^ w - align) % 2 ^ w

def up (w x align : Nat) : Nat := down w ((x + (align - 1)) % 2 ^ w) align

variable {k x : Nat}

lemma down_two_pow (small : x < 2 ^ w) (bits : k < w) :
    down w x (2 ^ k) = x / 2 ^ k * 2 ^ k := by
  have positive : 0 < 2 ^ k := Nat.two_pow_pos k
  have whole : 2 ^ w = 2 ^ (w - k) * 2 ^ k := by
    rw [← pow_add]
    congr 1
    omega
  have mask : (2 ^ w - 2 ^ k) % 2 ^ w = (2 ^ (w - k) - 1) <<< k := by
    have below : 2 ^ w - 2 ^ k < 2 ^ w := sub_lt (Nat.two_pow_pos w) positive
    rw [mod_eq_of_lt below, shiftLeft_eq, whole, Nat.sub_mul, one_mul]
  rw [down, mask, ← shiftLeft_eq, ← shiftRight_eq_div_pow]
  apply eq_of_testBit_eq
  intro i
  rw [testBit_and, testBit_shiftLeft, testBit_shiftLeft, testBit_two_pow_sub_one,
    testBit_shiftRight]
  by_cases low : k ≤ i
  · by_cases high : i < w
    · have inside : i - k < w - k := by omega
      simp [low, inside]
    · have none : x.testBit i = false :=
        testBit_lt_two_pow (lt_of_lt_of_le small (Nat.pow_le_pow_right (by omega) (by omega)))
      simp [low, none]
  · simp [low]

lemma down_le (small : x < 2 ^ w) (bits : k < w) : down w x (2 ^ k) ≤ x := by
  rw [down_two_pow small bits]
  exact div_mul_le_self x (2 ^ k)

lemma dvd_down (small : x < 2 ^ w) (bits : k < w) : 2 ^ k ∣ down w x (2 ^ k) := by
  rw [down_two_pow small bits]
  exact Dvd.intro_left _ rfl

lemma dvd_up (x : Nat) (bits : k < w) : 2 ^ k ∣ up w x (2 ^ k) :=
  dvd_down (mod_lt _ (Nat.two_pow_pos w)) bits

lemma up_lt (x : Nat) (bits : k < w) : up w x (2 ^ k) < 2 ^ w :=
  (down_le (mod_lt _ (Nat.two_pow_pos w)) bits).trans_lt (mod_lt _ (Nat.two_pow_pos w))

section

variable (small : x + (2 ^ k - 1) < 2 ^ w) (bits : k < w)

include small bits

lemma up_two_pow :
    up w x (2 ^ k) = (x + (2 ^ k - 1)) / 2 ^ k * 2 ^ k := by
  rw [up, mod_eq_of_lt small, down_two_pow small bits]

lemma up_spec :
    x ≤ up w x (2 ^ k) ∧ up w x (2 ^ k) < x + 2 ^ k ∧ 2 ^ k ∣ up w x (2 ^ k) := by
  have positive : 0 < 2 ^ k := Nat.two_pow_pos k
  have parts := div_add_mod (x + (2 ^ k - 1)) (2 ^ k)
  have rest := mod_lt (x + (2 ^ k - 1)) positive
  rw [up_two_pow small bits, mul_comm]
  refine ⟨by omega, by omega, Dvd.intro _ rfl⟩

lemma up_of_dvd (even : 2 ^ k ∣ x) :
    up w x (2 ^ k) = x := by
  obtain ⟨m, rfl⟩ := even
  have positive : 0 < 2 ^ k := Nat.two_pow_pos k
  have same : (2 ^ k * m + (2 ^ k - 1)) / 2 ^ k = m := by
    rw [mul_add_div positive, div_eq_of_lt (by omega), add_zero]
  rw [up_two_pow small bits, same, mul_comm]

end

lemma up_zero (bits : k < w) : up w 0 (2 ^ k) = 0 := by
  have less : 2 ^ k < 2 ^ w := Nat.pow_lt_pow_right (by decide) bits
  have positive : 0 < 2 ^ k := Nat.two_pow_pos k
  exact up_of_dvd (by omega) bits (dvd_zero _)

end Align
