import Mathlib.Tactic

-- Counters that live in the bits of a mask.
namespace MaskedCounter

open Nat

def deposit : Nat -> Nat -> Nat -> Nat
  | 0, _, _ => 0
  | w + 1, mask, k =>
    if mask % 2 = 1 then k % 2 + 2 * deposit w (mask / 2) (k / 2) else 2 * deposit w (mask / 2) k

-- `(o - mask) & mask`
def advance (w mask o : Nat) : Nat := (o + (2 ^ w - mask)) % 2 ^ w &&& mask

lemma land_eq (a b : Nat) : a &&& b = (a % 2 &&& b % 2) + 2 * (a / 2 &&& b / 2) := by
  have low := @and_mod_two_pow a b 1
  have high := @and_div_two_pow a b 1
  rw [pow_one] at low high
  rw [← low, ← high]
  omega

lemma deposit_carry (w mask k : Nat) {carry : Nat} (bit : carry ≤ 1) (fits : mask < 2 ^ w) :
    (deposit w mask k + (2 ^ w - 1 - mask) + carry) % 2 ^ w &&& mask = deposit w mask (k + carry) := by
  induction w generalizing mask k carry with
  | zero => simp [deposit, mod_one]
  | succ w ih =>
    rw [pow_succ] at fits
    have half : mask / 2 < 2 ^ w := by omega
    rw [land_eq, pow_succ', mod_mul_right_mod, mod_mul_right_div_self]
    rcases mod_two_eq_zero_or_one mask with even | odd
    · have next := ih (mask / 2) k bit half
      simp only [deposit, even, Nat.zero_ne_one, if_false, and_zero, zero_add]
      rw [← next]
      congr 4
      omega
    · have next := ih (mask / 2) (k / 2) (by omega : (k % 2 + carry) / 2 ≤ 1) half
      simp only [deposit, odd, if_true]
      rw [show (k + carry) / 2 = k / 2 + (k % 2 + carry) / 2 by omega, ← next, and_one_is_mod]
      congr 1
      · omega
      · congr 4
        omega

lemma advance_deposit {w mask : Nat} (fits : mask < 2 ^ w) (k : Nat) :
    advance w mask (deposit w mask k) = deposit w mask (k + 1) := by
  rw [← deposit_carry w mask k le_rfl fits, advance]
  congr 2
  omega

end MaskedCounter
