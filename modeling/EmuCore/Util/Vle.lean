import EmuCore.Util.Stream

namespace EmuCore.Util.Vle

open Nat

def serializeVle (value : Nat) : Bytes :=
  let i := value / 128
  UInt8.ofNat (value % 0x80 ||| if i ≠ 0 then 0x80 else 0) :: if i ≠ 0 then serializeVle i else []
termination_by value
decreasing_by omega

-- `~unsigned_type{}`: a type of fewer than 32 bits is promoted to int.
def ones (w : Nat) : Int := if w < 32 then -1 else 2 ^ w - 1

def deserializeLoop (w bitWidth i result : Nat) : Bytes -> Option (Nat × Bytes)
  | [] => none
  | byteData :: rest =>
    let payload := byteData.toNat % 0x80
    if bitWidth ≤ i ∨ (payload : Int) > ones w >>> i then none
    else
      let result := result ||| (payload <<< i) % 2 ^ w
      if byteData.toNat &&& 0x80 = 0 then some (result, rest)
      else if i > (bitWidth + (2 ^ 32 - 7)) % 2 ^ 32 then none
      else deserializeLoop w bitWidth (i + 7) result rest

def bitWidth (w maxBits : Nat) : Nat := if maxBits ≠ 0 then maxBits else w

-- For an unsigned type of `w` bits. There is nothing where it returns false.
def deserializeVle (w maxBits : Nat) (bytes : Bytes) : Option (Nat × Bytes) :=
  deserializeLoop w (bitWidth w maxBits) 0 0 bytes

inductive Encodes : Bytes -> Nat -> Prop
  | last {byte : UInt8} (ends : byte.toNat < 128) : Encodes [byte] byte.toNat
  | more {byte : UInt8} {rest : Bytes} {n : Nat} (continues : 128 ≤ byte.toNat) (after : Encodes rest n) :
      Encodes (byte :: rest) (byte.toNat % 128 + 128 * n)

lemma and_flag (byte : UInt8) : byte.toNat &&& 0x80 = 0 ↔ byte.toNat < 128 := by
  have all : ∀ n : Fin 256, n.val &&& 0x80 = 0 ↔ n.val < 128 := by decide +kernel
  exact all ⟨_, byte.toNat_lt⟩

variable {w bits i result payload : Nat} {bytes : Bytes}

lemma payload_fits (wide : 32 ≤ w) : (payload : Int) > ones w >>> i ↔ 2 ^ w ≤ payload * 2 ^ i := by
  rw [ones, if_neg (by omega), Int.shiftRight_eq_div_pow, gt_iff_lt, Int.ediv_lt_iff_lt_mul (by positivity),
    Int.sub_one_lt_iff]
  norm_cast

lemma add_group_lt {m : Nat} (below : result < 2 ^ i) (inside : i ≤ m) (fits : payload * 2 ^ i < 2 ^ m) :
    result + 2 ^ i * payload < 2 ^ m := by
  obtain ⟨j, rfl⟩ := Nat.exists_eq_add_of_le inside
  rw [Nat.pow_add, mul_comm] at fits
  calc result + 2 ^ i * payload < 2 ^ i * (payload + 1) := by rw [mul_add]; omega
    _ ≤ 2 ^ i * 2 ^ j := Nat.mul_le_mul_left _ (Nat.lt_of_mul_lt_mul_left fits)
    _ = 2 ^ (i + j) := (Nat.pow_add 2 i j).symm

lemma group_lt (n : Nat) : n % 128 * 2 ^ i < 2 ^ (i + 7) := by
  rw [Nat.pow_add, mul_comm]
  exact Nat.mul_lt_mul_of_pos_left (mod_lt _ (by decide)) (Nat.two_pow_pos i)

lemma deserializeLoop_narrow (narrow : w < 32) : deserializeLoop w bits i result bytes = none := by
  cases bytes with
  | nil => rfl
  | cons byte rest =>
    have negative : (-1 : Int) >>> i = -1 := by rw [Int.shiftRight_eq_div_pow, Int.neg_one_ediv, Int.sign_eq_one_of_pos (by positivity)]
    rw [deserializeLoop, if_pos]
    rw [ones, if_pos narrow, negative]
    omega

lemma serializeVle_eq (value : Nat) : serializeVle value =
    if value < 128 then [UInt8.ofNat value] else UInt8.ofNat (value % 128 + 128) :: serializeVle (value / 128) := by
  have flag : value % 0x80 ||| 0x80 = value % 128 + 128 := by
    have all : ∀ n : Fin 128, n.val ||| 0x80 = n.val + 128 := by decide +kernel
    exact all ⟨_, mod_lt _ (by decide)⟩
  rw [serializeVle]
  by_cases small : value < 128
  · simp [small, div_eq_of_lt small, mod_eq_of_lt small]
  · have more : value / 128 ≠ 0 := by omega
    simp [small, more, flag]

lemma deserializeLoop_cons (wide : 32 ≤ w) (inside : i < bits) (below : result < 2 ^ i) (byte : UInt8) (rest : Bytes)
    (fits : byte.toNat % 128 * 2 ^ i < 2 ^ w) : deserializeLoop w bits i result (byte :: rest) =
      if byte.toNat < 128 then some (result + 2 ^ i * (byte.toNat % 128), rest)
      else if i > (bits + (2 ^ 32 - 7)) % 2 ^ 32 then none
      else deserializeLoop w bits (i + 7) (result + 2 ^ i * (byte.toNat % 128)) rest := by
  have sum : result ||| ((byte.toNat % 128) <<< i) % 2 ^ w = result + 2 ^ i * (byte.toNat % 128) := by
    rw [shiftLeft_eq, mod_eq_of_lt fits, Nat.or_comm, mul_comm, ← two_pow_add_eq_or_of_lt below, add_comm]
  have goes : ¬(bits ≤ i ∨ ((byte.toNat % 0x80 : Nat) : Int) > ones w >>> i) := by
    rw [payload_fits wide]
    omega
  rw [deserializeLoop, if_neg goes]
  simp only [sum, and_flag]

-- The last group of seven bits may go beyond the width.
lemma deserializeLoop_serialize (wide : 32 ≤ w) (small : bits ≤ 64) (group : 7 ∣ i) (inside : i < bits)
    (below : result < 2 ^ i) {value : Nat} (fits : value * 2 ^ i < 2 ^ w)
    (limit : value * 2 ^ i < 2 ^ ((bits + 6) / 7 * 7)) (rest : Bytes) :
    deserializeLoop w bits i result (serializeVle value ++ rest) = some (result + 2 ^ i * value, rest) := by
  induction value using Nat.strong_induction_on generalizing i result with
  | _ value ih =>
    have low : value % 128 * 2 ^ i ≤ value * 2 ^ i := Nat.mul_le_mul_right _ (mod_le _ _)
    rw [serializeVle_eq]
    split
    next last =>
      have byte : (UInt8.ofNat value).toNat = value := by rw [UInt8.toNat_ofNat']; omega
      rw [List.singleton_append, deserializeLoop_cons wide inside below _ _ (by rw [byte]; omega), byte, if_pos last,
        mod_eq_of_lt last]
    next more =>
      have byte : (UInt8.ofNat (value % 128 + 128)).toNat = value % 128 + 128 := by rw [UInt8.toNat_ofNat']; omega
      have payload : (value % 128 + 128) % 128 = value % 128 := by omega
      have high : value / 128 * 2 ^ (i + 7) ≤ value * 2 ^ i := by
        rw [Nat.pow_add, mul_comm (2 ^ i), ← mul_assoc]
        exact Nat.mul_le_mul_right _ (div_mul_le_self value 128)
      have further : i + 7 < (bits + 6) / 7 * 7 := by
        refine (Nat.pow_lt_pow_iff_right (one_lt_two)).mp (lt_of_le_of_lt ?_ limit)
        rw [Nat.pow_add, mul_comm]
        exact Nat.mul_le_mul_right _ (by omega)
      rw [List.cons_append, deserializeLoop_cons wide inside below _ _ (by rw [byte, payload]; omega), byte,
        if_neg (by omega), if_neg (by omega), payload, ih (value / 128) (by omega) (by omega) (by omega) ?_
          (by omega) (by omega)]
      · have split_ := mod_add_div value 128
        rw [Nat.pow_add, mul_assoc, add_assoc, ← mul_add, split_]
      · exact add_group_lt below (by omega) (group_lt value)

lemma deserializeLoop_encodes (wide : 32 ≤ w) (narrow : bits ≤ w) (group : 7 ∣ i) (below : result < 2 ^ i)
    {value : Nat} {rest : Bytes} (done : deserializeLoop w bits i result bytes = some (value, rest)) :
    ∃ used n, bytes = used ++ rest ∧ Encodes used n ∧ value = result + 2 ^ i * n ∧ value < 2 ^ w ∧
      value < 2 ^ ((bits + 6) / 7 * 7) := by
  induction bytes generalizing i result with
  | nil => cases done
  | cons byte bytes ih =>
    by_cases stops : bits ≤ i ∨ ((byte.toNat % 0x80 : Nat) : Int) > ones w >>> i
    · rw [deserializeLoop, if_pos stops] at done
      cases done
    rw [payload_fits wide] at stops
    have low := group_lt (i := i) byte.toNat
    have top : 2 ^ (i + 7) ≤ 2 ^ ((bits + 6) / 7 * 7) := Nat.pow_le_pow_right (by decide) (by omega)
    rw [deserializeLoop_cons wide (by omega) below _ _ (by omega)] at done
    split at done
    next ends =>
      cases done
      rw [mod_eq_of_lt ends] at *
      exact ⟨[byte], byte.toNat, rfl, .last ends, rfl, add_group_lt below (by omega) (by omega),
        add_group_lt below (by omega) (by omega)⟩
    next continues =>
      split at done
      next => cases done
      obtain ⟨used, n, rfl, after, rfl, bounds⟩ := ih (by omega) (add_group_lt below (by omega) low) done
      refine ⟨byte :: used, _, rfl, .more (by omega) after, ?_, bounds⟩
      rw [Nat.pow_add, mul_assoc, add_assoc, ← mul_add]

def ReadsBack (w maxBits : Nat) : Prop :=
  ∀ value < 2 ^ bitWidth w maxBits, ∀ rest, deserializeVle w maxBits (serializeVle value ++ rest) = some (value, rest)

def AcceptsOnly (w maxBits : Nat) : Prop :=
  ∀ bytes value rest, deserializeVle w maxBits bytes = some (value, rest) ->
    ∃ used, bytes = used ++ rest ∧ Encodes used value ∧ value < 2 ^ bitWidth w maxBits

theorem deserialize_vle_iff (w maxBits : Nat) (type : w = 8 ∨ w = 16 ∨ w = 32 ∨ w = 64) (narrow : maxBits ≤ w) :
    (ReadsBack w maxBits ↔ 32 ≤ w) ∧
      (AcceptsOnly w maxBits ↔ w < 32 ∨ bitWidth w maxBits = w ∨ 7 ∣ bitWidth w maxBits) := by
  have bounds : 0 < bitWidth w maxBits ∧ bitWidth w maxBits ≤ w := by
    rw [bitWidth]
    split <;> omega
  rw [ReadsBack, AcceptsOnly]
  simp only [deserializeVle]
  generalize bitWidth w maxBits = bits at *
  have reads (wide : 32 ≤ w) {value : Nat} (fits : value < 2 ^ w) (limit : value < 2 ^ ((bits + 6) / 7 * 7)) (rest : Bytes) :
      deserializeLoop w bits 0 0 (serializeVle value ++ rest) = some (value, rest) := by
    rw [deserializeLoop_serialize wide (by omega) (dvd_zero 7) bounds.1 one_pos (by omega) (by omega)]
    simp
  refine ⟨⟨fun back => ?_, fun wide value below => reads wide (below.trans_le (Nat.pow_le_pow_right (by decide) (by omega)))
    (below.trans_le (Nat.pow_le_pow_right (by decide) (by omega)))⟩, ⟨fun only => ?_, fun cond bytes value rest done => ?_⟩⟩
  · by_contra small
    have zero := back 0 (Nat.two_pow_pos _) []
    rw [deserializeLoop_narrow (by omega)] at zero
    cases zero
  · by_contra other
    have done := reads (by omega) (Nat.pow_lt_pow_right one_lt_two (show bits < w by omega))
      (Nat.pow_lt_pow_right one_lt_two (show bits < (bits + 6) / 7 * 7 by omega)) []
    obtain ⟨_, _, _, below⟩ := only _ _ _ done
    exact lt_irrefl _ below
  · by_cases small : w < 32
    · rw [deserializeLoop_narrow small] at done
      cases done
    obtain ⟨used, n, split_, encodes, rfl, wide, limit⟩ := deserializeLoop_encodes (by omega) bounds.2 (dvd_zero 7) one_pos done
    refine ⟨used, split_, by simpa using encodes, ?_⟩
    rcases cond with absurd | same | group
    · omega
    · rwa [same]
    · rwa [show (bits + 6) / 7 * 7 = bits by omega] at limit

theorem deserialize_vle_prx : ReadsBack 64 9 := (deserialize_vle_iff 64 9 (by decide) (by decide)).1.mpr (by decide)

-- Nine bits for a count of segments; one byte into an 8-bit type.
theorem deserialize_vle_beyond :
    deserializeVle 64 9 [0xff, 0x7f] = some (0x3fff, []) ∧ serializeVle 0 = [0] ∧ deserializeVle 8 8 [0] = none := by
  refine ⟨by decide, ?_, by decide⟩
  rw [serializeVle_eq]
  rfl

end EmuCore.Util.Vle
