import Mathlib.Tactic

namespace BitField

open Nat BitVec

variable {w : Nat}

-- `(x >> i) & mask` for a field of `n` bits.
def extract (x : BitVec w) (i n : Nat) : Nat := (x >>> i &&& BitVec.ofNat w (2 ^ n - 1)).toNat

-- `(x & ~(mask << i)) | ((value & mask) << i)`
def insert (x : BitVec w) (i n value : Nat) : BitVec w :=
  (x &&& ~~~(BitVec.ofNat w (2 ^ n - 1) <<< i)) |||
    (BitVec.ofNat w value &&& BitVec.ofNat w (2 ^ n - 1)) <<< i

variable {x : BitVec w} {i n : Nat}

lemma testBit_extract (inside : i + n ≤ w) (k : Nat) :
    (extract x i n).testBit k = (decide (k < n) && x.getLsbD (i + k)) := by
  rw [extract, testBit_toNat, getLsbD_and, getLsbD_ushiftRight,
    getLsbD_ofNat, testBit_two_pow_sub_one]
  by_cases low : k < n
  · simp [low, show k < w by omega]
  · simp [low]

lemma extract_lt (inside : i + n ≤ w) : extract x i n < 2 ^ n := by
  apply lt_pow_two_of_testBit
  intro k high
  rw [testBit_extract inside]
  simp [Nat.not_lt.mpr high]

lemma getLsbD_insert {k : Nat} (inside : k < w) (value : Nat) :
    (insert x i n value).getLsbD k =
      if i ≤ k ∧ k < i + n then value.testBit (k - i) else x.getLsbD k := by
  simp only [insert, getLsbD_or, getLsbD_and, getLsbD_not,
    getLsbD_shiftLeft, getLsbD_ofNat, testBit_two_pow_sub_one, inside, decide_true,
    Bool.true_and]
  by_cases low : k < i
  · simp [low, Nat.not_le.mpr low]
  · by_cases field : k < i + n
    · simp [low, Nat.not_lt.mp low, field, show k - i < n by omega, show k - i < w by omega]
    · simp [field, show ¬k - i < n by omega]

lemma extract_insert (inside : i + n ≤ w) (value : Nat) :
    extract (insert x i n value) i n = value % 2 ^ n := by
  apply eq_of_testBit_eq
  intro k
  rw [testBit_extract inside, testBit_mod_two_pow]
  by_cases low : k < n
  · rw [getLsbD_insert (by omega), if_pos (by omega), Nat.add_sub_cancel_left]
  · simp [low]

lemma extract_insert_of_disjoint {j m : Nat} (inside : j + m ≤ w) (apart : i + n ≤ j ∨ j + m ≤ i) (value : Nat) :
    extract (insert x i n value) j m = extract x j m := by
  apply eq_of_testBit_eq
  intro k
  rw [testBit_extract inside, testBit_extract inside]
  by_cases low : k < m
  · rw [getLsbD_insert (by omega), if_neg (by omega)]
  · simp [low]

end BitField
