import EmuCore.Lib.MaskedCounter
import EmuCore.Lib.Scatter

namespace EmuCore.Rsx

open MaskedCounter List

structure Axis where
  bits : Nat
  log : Nat

def Axis.next (a : Axis) : Axis := if a.log ≠ 0 then ⟨a.bits >>> 1, a.log - 1⟩ else a

def Axis.emit (a : Axis) (out : Nat × Nat) : Nat × Nat :=
  if a.log ≠ 0 then (out.1 ||| (a.bits &&& 1) <<< out.2, out.2 + 1) else out

-- The loop does not end when a coordinate has more bits than are counted.
def zIndexLoop : Nat -> Axis -> Axis -> Axis -> Nat × Nat -> Option Nat
  | 0, _, _, _, _ => none
  | fuel + 1, x, y, z, out =>
    let out := z.emit (y.emit (x.emit out))
    if x.next.bits ||| y.next.bits ||| z.next.bits ≠ 0 then zIndexLoop fuel x.next y.next z.next out else some out.1

def calculateZIndex (x y z log2Width log2Height log2Depth : Nat) : Option Nat :=
  zIndexLoop (log2Width + log2Height + log2Depth + 1) ⟨x, log2Width⟩ ⟨y, log2Height⟩ ⟨z, log2Depth⟩ (0, 0)

def floorLog2 (value : Nat) : Nat := if value ≤ 1 then 0 else value.log2

def ceilLog2 (value : Nat) : Nat := floorLog2 value + if value &&& (value - 1) ≠ 0 then 1 else 0

def xMask (limit : Nat) : Nat := 0x55555555 ||| (2 ^ 32 - 1 - (limit - 1))

def yMask (limit : Nat) : Nat := 0xAAAAAAAA &&& (limit - 1)

def rowPlaces (limit offsY rowOffset : Nat) : Nat -> Nat -> Nat -> List (Nat × Nat)
  | 0, _, _ => []
  | count + 1, x, offsX =>
    (offsY + offsX, rowOffset + x) :: rowPlaces limit offsY rowOffset count (x + 1) (advance 32 (xMask limit) offsX)

def places (limit width pitch : Nat) : Nat -> Nat -> Nat -> Nat -> List (Nat × Nat)
  | 0, _, _, _ => []
  | rows + 1, offsY, offsX0, rowOffset =>
    let nextY := advance 32 (yMask limit) offsY
    rowPlaces limit offsY rowOffset width 0 offsX0 ++
      places limit width pitch rows nextY (if nextY = 0 then (offsX0 + limit) % 2 ^ 32 else offsX0)
        ((rowOffset + pitch) % 2 ^ 32)

def swizzlePlaces (width height pitch : Nat) : List (Nat × Nat) :=
  places (1 <<< (min (ceilLog2 width) (ceilLog2 height) <<< 1)) width pitch height 0 0 0

def convertLinearSwizzle {α : Type} (inputIsSwizzled : Bool) (width height pitch size : Nat) (input output : Nat -> α) :
    Nat -> α :=
  let places := swizzlePlaces width height (pitch / size)
  (if inputIsSwizzled then places.map Prod.swap else places).foldl (fun out place => Scatter.copy 1 out input place)
    output

/- What both compute: bits in turn, and then the rest of the longer coordinate. -/

def interleave : Nat -> Nat -> Nat -> Nat
  | 0, x, y => x + y
  | m + 1, x, y => x % 2 + 2 * (y % 2) + 4 * interleave m (x / 2) (y / 2)

lemma interleave_zero (m : Nat) : interleave m 0 0 = 0 := by
  induction m with
  | zero => rfl
  | succ m ih => simp [interleave, ih]

lemma interleave_lt : ∀ {a b x y : Nat}, x < 2 ^ a -> y < 2 ^ b -> interleave (min a b) x y < 2 ^ a * 2 ^ b
  | 0, b, x, y, left, right => by simp [interleave]; omega
  | a + 1, 0, x, y, left, right => by simp [interleave]; omega
  | a + 1, b + 1, x, y, left, right => by
    rw [pow_succ] at left right
    have less := interleave_lt (by omega : x / 2 < 2 ^ a) (by omega : y / 2 < 2 ^ b)
    rw [Nat.add_min_add_right, interleave, pow_succ, pow_succ, Nat.mul_mul_mul_comm]
    omega

lemma interleave_inj : ∀ {a b x y x' y' : Nat}, x < 2 ^ a -> y < 2 ^ b -> x' < 2 ^ a -> y' < 2 ^ b ->
    interleave (min a b) x y = interleave (min a b) x' y' -> x = x' ∧ y = y'
  | 0, b, x, y, x', y', left, right, left', right', same => by simp [interleave] at *; omega
  | a + 1, 0, x, y, x', y', left, right, left', right', same => by simp [interleave] at *; omega
  | a + 1, b + 1, x, y, x', y', left, right, left', right', same => by
    rw [pow_succ] at left right left' right'
    rw [Nat.add_min_add_right, interleave, interleave] at same
    have halves := interleave_inj (by omega : x / 2 < 2 ^ a) (by omega : y / 2 < 2 ^ b) (by omega : x' / 2 < 2 ^ a)
      (by omega : y' / 2 < 2 ^ b) (by omega)
    omega

lemma interleave_surj : ∀ {a b n : Nat}, n < 2 ^ a * 2 ^ b ->
    ∃ x < 2 ^ a, ∃ y < 2 ^ b, interleave (min a b) x y = n
  | 0, b, n, below => ⟨0, by simp, n, by simpa using below, by simp [interleave]⟩
  | a + 1, 0, n, below => ⟨n, by simpa using below, 0, by simp, by simp [interleave]⟩
  | a + 1, b + 1, n, below => by
    rw [pow_succ, pow_succ, Nat.mul_mul_mul_comm] at below
    obtain ⟨x, left, y, right, rest⟩ := interleave_surj (by omega : n / 4 < 2 ^ a * 2 ^ b)
    refine ⟨2 * x + n % 2, by rw [pow_succ]; omega, 2 * y + n / 2 % 2, by rw [pow_succ]; omega, ?_⟩
    rw [Nat.add_min_add_right, interleave, show (2 * x + n % 2) / 2 = x by omega,
      show (2 * y + n / 2 % 2) / 2 = y by omega, rest]
    omega

lemma Axis.emit_eq (bits log : Nat) {offset shift : Nat} (below : offset < 2 ^ shift) :
    Axis.emit ⟨bits, log + 1⟩ (offset, shift) = (offset + 2 ^ shift * (bits % 2), shift + 1) := by
  have apart := Nat.two_pow_add_eq_or_of_lt below (bits % 2)
  simp only [emit, Nat.and_one_is_mod, Nat.shiftLeft_eq, ne_eq, Nat.add_one_ne_zero, not_false_eq_true, if_true]
  rw [Nat.or_comm, mul_comm, ← apart, add_comm (2 ^ shift * _)]

lemma Axis.next_succ (bits log : Nat) : Axis.next ⟨bits, log + 1⟩ = ⟨bits / 2, log⟩ := by
  simp [next, Nat.shiftRight_one]

lemma Axis.next_zero (bits : Nat) : Axis.next ⟨bits, 0⟩ = ⟨bits, 0⟩ := rfl

lemma Axis.emit_zero (bits : Nat) (out : Nat × Nat) : Axis.emit ⟨bits, 0⟩ out = out := rfl

lemma zIndexLoop_eq {fuel a b x y offset shift : Nat} (enough : a + b < fuel) (left : x < 2 ^ a) (right : y < 2 ^ b)
    (below : offset < 2 ^ shift) :
    zIndexLoop fuel ⟨x, a⟩ ⟨y, b⟩ ⟨0, 0⟩ (offset, shift) = some (offset + 2 ^ shift * interleave (min a b) x y) := by
  induction fuel generalizing a b x y offset shift with
  | zero => omega
  | succ fuel ih =>
    -- the loop ends early when only zeros are left
    have tail : ∀ {a b x y offset shift : Nat}, a + b < fuel -> x < 2 ^ a -> y < 2 ^ b -> offset < 2 ^ shift ->
        (if x ||| y ≠ 0 then zIndexLoop fuel ⟨x, a⟩ ⟨y, b⟩ ⟨0, 0⟩ (offset, shift) else some offset) =
          some (offset + 2 ^ shift * interleave (min a b) x y) := by
      intro a b x y offset shift enough left right below
      split
      next => exact ih enough left right below
      next none =>
        obtain ⟨rfl, rfl⟩ := Nat.or_eq_zero_iff.mp (not_not.mp none)
        simp [interleave_zero]
    have double : ∀ {offset shift : Nat} (bit : Nat), bit < 2 -> offset < 2 ^ shift ->
        offset + 2 ^ shift * bit < 2 ^ (shift + 1) := by
      intro offset shift bit small below
      have bit_le : 2 ^ shift * bit ≤ 2 ^ shift * 1 := Nat.mul_le_mul_left _ (Nat.le_of_lt_succ small)
      rw [pow_succ]
      omega
    cases a with
    | zero =>
      cases b with
      | zero =>
        obtain ⟨rfl, rfl⟩ : x = 0 ∧ y = 0 := by omega
        simp [zIndexLoop, Axis.emit_zero, Axis.next_zero, interleave]
      | succ b =>
        rw [pow_succ] at right
        have rest := tail (by omega) left (by omega : y / 2 < 2 ^ b) (double (y % 2) (by omega) below)
        simp only [zIndexLoop, Axis.emit_zero, Axis.next_zero, Axis.emit_eq _ _ below, Axis.next_succ, Nat.or_zero, rest,
          Nat.zero_min, interleave]
        rw [pow_succ, mul_assoc, add_assoc, ← mul_add]
        congr 3
        omega
    | succ a =>
      rw [pow_succ] at left
      have first := double (x % 2) (by omega) below
      cases b with
      | zero =>
        have rest := tail (by omega) (by omega : x / 2 < 2 ^ a) right first
        simp only [zIndexLoop, Axis.emit_zero, Axis.next_zero, Axis.emit_eq _ _ below, Axis.next_succ, Nat.or_zero, rest,
          Nat.min_zero, interleave]
        rw [pow_succ, mul_assoc, add_assoc, ← mul_add]
        congr 3
        omega
      | succ b =>
        rw [pow_succ] at right
        have rest := tail (by omega) (by omega : x / 2 < 2 ^ a) (by omega : y / 2 < 2 ^ b)
          (double (y % 2) (by omega) first)
        simp only [zIndexLoop, Axis.emit_zero, Axis.next_zero, Axis.emit_eq _ _ below, Axis.emit_eq _ _ first,
          Axis.next_succ, Nat.or_zero, rest, Nat.add_min_add_right, interleave]
        rw [pow_succ, pow_succ]
        congr 1
        ring

lemma ceilLog2_two_pow (a : Nat) : ceilLog2 (2 ^ a) = a := by
  have pow : 2 ^ a &&& (2 ^ a - 1) = 0 := by rw [Nat.and_two_pow_sub_one_eq_mod, Nat.mod_self]
  rw [ceilLog2, floorLog2, pow, Nat.log2_two_pow]
  cases a with
  | zero => rfl
  | succ a =>
    have large : ¬2 ^ (a + 1) ≤ 1 := by
      have := Nat.two_pow_pos a
      omega
    simp [large]

def evens (r : Nat) : Nat -> Nat
  | 0 => 2 ^ r - 1
  | m + 1 => 1 + 4 * evens r m

def odds : Nat -> Nat
  | 0 => 0
  | m + 1 => 2 + 4 * odds m

lemma masks_eq {m : Nat} (small : m ≤ 15) :
    xMask (4 ^ m) = evens (32 - 2 * m) m ∧ yMask (4 ^ m) = odds m := by
  interval_cases m <;> decide

lemma deposit_full (r k : Nat) : deposit r (2 ^ r - 1) k = k % 2 ^ r := by
  induction r generalizing k with
  | zero => simp [deposit, Nat.mod_one]
  | succ r ih =>
    have positive := Nat.two_pow_pos r
    rw [deposit, if_pos (by omega), show (2 ^ (r + 1) - 1) / 2 = 2 ^ r - 1 by omega, ih, pow_succ', Nat.mod_mul]

lemma deposit_none (w k : Nat) : deposit w 0 k = 0 := by
  induction w with
  | zero => rfl
  | succ w ih => simp [deposit, ih]

lemma deposit_evens (r m k : Nat) :
    deposit (2 * (m + 1) + r) (evens r (m + 1)) k = k % 2 + 4 * deposit (2 * m + r) (evens r m) (k / 2) := by
  rw [show 2 * (m + 1) + r = 2 * m + r + 2 by omega, evens]
  simp [deposit, show (1 + 4 * evens r m) % 2 = 1 by omega, show (1 + 4 * evens r m) / 2 % 2 = 0 by omega,
    show (1 + 4 * evens r m) / 2 / 2 = evens r m by omega]
  omega

lemma deposit_odds (r m k : Nat) :
    deposit (2 * (m + 1) + r) (odds (m + 1)) k = 2 * (k % 2) + 4 * deposit (2 * m + r) (odds m) (k / 2) := by
  rw [show 2 * (m + 1) + r = 2 * m + r + 2 by omega, odds, deposit, if_neg (by omega), deposit, if_pos (by omega),
    show (2 + 4 * odds m) / 2 / 2 = odds m by omega]
  omega

lemma deposit_interleave {r m x y : Nat} (fits : x / 2 ^ m + y / 2 ^ m < 2 ^ r) :
    deposit (2 * m + r) (odds m) y + deposit (2 * m + r) (evens r m) (y / 2 ^ m * 2 ^ m + x) = interleave m x y := by
  induction m generalizing x y with
  | zero =>
    simp only [pow_zero, Nat.div_one] at fits
    simp [odds, evens, deposit_none, deposit_full, interleave, Nat.mod_eq_of_lt, add_comm y, fits]
  | succ m ih =>
    rw [pow_succ', ← Nat.div_div_eq_div_mul, ← Nat.div_div_eq_div_mul] at fits
    rw [deposit_evens, deposit_odds, interleave, ← ih fits, pow_succ', ← Nat.div_div_eq_div_mul, mul_left_comm]
    rw [show (2 * (y / 2 / 2 ^ m * 2 ^ m) + x) / 2 = y / 2 / 2 ^ m * 2 ^ m + x / 2 by omega]
    omega

lemma deposit_evens_mul (r m q : Nat) : deposit (2 * m + r) (evens r m) (q * 2 ^ m) = 4 ^ m * (q % 2 ^ r) := by
  induction m with
  | zero => simp [evens, deposit_full]
  | succ m ih =>
    rw [deposit_evens, pow_succ', mul_left_comm, Nat.mul_mod_right, Nat.mul_div_cancel_left _ two_pos, ih]
    ring

lemma deposit_odds_eq_zero (r m k : Nat) : deposit (2 * m + r) (odds m) k = 0 ↔ 2 ^ m ∣ k := by
  induction m generalizing k with
  | zero => simp [odds, deposit_none]
  | succ m ih =>
    have halves : 2 ^ (m + 1) ∣ k ↔ k % 2 = 0 ∧ 2 ^ m ∣ k / 2 := by
      rw [pow_succ', ← Nat.dvd_iff_mod_eq_zero]
      refine ⟨fun divides => ⟨dvd_of_mul_right_dvd divides, (Nat.dvd_div_iff_mul_dvd (dvd_of_mul_right_dvd divides)).mpr
        divides⟩, fun divides => (Nat.dvd_div_iff_mul_dvd divides.1).mp divides.2⟩
    rw [deposit_odds, halves, ← ih]
    omega

section Places

variable {m : Nat}

lemma advance_masks (m k : Nat) :
    advance 32 (xMask (4 ^ m)) (deposit 32 (xMask (4 ^ m)) k) = deposit 32 (xMask (4 ^ m)) (k + 1) ∧
      advance 32 (yMask (4 ^ m)) (deposit 32 (yMask (4 ^ m)) k) = deposit 32 (yMask (4 ^ m)) (k + 1) := by
  refine ⟨advance_deposit ?_ k, advance_deposit ?_ k⟩
  · exact Nat.or_lt_two_pow (by decide) (by omega)
  · exact lt_of_le_of_lt Nat.and_le_left (by decide)

lemma rowPlaces_eq (m offsY rowOffset k count x : Nat) :
    rowPlaces (4 ^ m) offsY rowOffset count x (deposit 32 (xMask (4 ^ m)) (k + x)) =
      (List.range' x count).map fun x => (offsY + deposit 32 (xMask (4 ^ m)) (k + x), rowOffset + x) := by
  induction count generalizing x with
  | zero => rfl
  | succ count ih => rw [rowPlaces, (advance_masks m _).1, add_assoc, ih, range'_succ, map_cons]

lemma offsX0_next (small : m ≤ 15) (y : Nat) :
    (if deposit 32 (yMask (4 ^ m)) (y + 1) = 0 then
        (deposit 32 (xMask (4 ^ m)) (y / 2 ^ m * 2 ^ m) + 4 ^ m) % 2 ^ 32
      else deposit 32 (xMask (4 ^ m)) (y / 2 ^ m * 2 ^ m)) = deposit 32 (xMask (4 ^ m)) ((y + 1) / 2 ^ m * 2 ^ m) := by
  have width : 2 * m + (32 - 2 * m) = 32 := by omega
  have wraps := deposit_odds_eq_zero (32 - 2 * m) m (y + 1)
  have value := deposit_evens_mul (32 - 2 * m) m
  rw [width] at wraps value
  rw [(masks_eq small).1, (masks_eq small).2, value, value]
  simp only [wraps]
  split
  next full =>
    have total : 2 ^ 32 = 4 ^ m * 2 ^ (32 - 2 * m) := by
      rw [show 4 = 2 ^ 2 by rfl, ← pow_mul, ← pow_add, width]
    rw [Nat.succ_div_of_dvd full, total, ← Nat.mul_succ, Nat.mul_mod_mul_left, Nat.succ_eq_add_one, Nat.mod_add_mod]
  next more => rw [Nat.succ_div_of_not_dvd more]

lemma places_eq (small : m ≤ 15) (width pitch rows y : Nat) :
    places (4 ^ m) width pitch rows (deposit 32 (yMask (4 ^ m)) y) (deposit 32 (xMask (4 ^ m)) (y / 2 ^ m * 2 ^ m))
        (y * pitch % 2 ^ 32) =
      (List.range' y rows).flatMap fun y => (List.range' 0 width).map fun x =>
        (deposit 32 (yMask (4 ^ m)) y + deposit 32 (xMask (4 ^ m)) (y / 2 ^ m * 2 ^ m + x), y * pitch % 2 ^ 32 + x) := by
  induction rows generalizing y with
  | zero => rfl
  | succ rows ih =>
    have row := rowPlaces_eq m (deposit 32 (yMask (4 ^ m)) y) (y * pitch % 2 ^ 32) (y / 2 ^ m * 2 ^ m) width 0
    have offset : (y * pitch % 2 ^ 32 + pitch) % 2 ^ 32 = (y + 1) * pitch % 2 ^ 32 := by
      rw [Nat.mod_add_mod, Nat.succ_mul]
    rw [places, (advance_masks m y).2, offsX0_next small, offset, ih, range'_succ, flatMap_cons]
    exact congrArg (· ++ _) row

end Places

lemma mem_swizzlePlaces {a b : Nat} (wide : a ≤ 15) (high : b ≤ 15) (pitch : Nat) (place : Nat × Nat) :
    place ∈ swizzlePlaces (2 ^ a) (2 ^ b) pitch ↔
      ∃ x < 2 ^ a, ∃ y < 2 ^ b, place = (interleave (min a b) x y, y * pitch % 2 ^ 32 + x) := by
  have small : min a b ≤ 15 := by omega
  have limit : 1 <<< (min a b <<< 1) = 4 ^ min a b := by
    rw [Nat.one_shiftLeft, Nat.shiftLeft_eq, mul_comm, pow_mul]
    rfl
  have index : ∀ x < 2 ^ a, ∀ y < 2 ^ b, deposit 32 (yMask (4 ^ min a b)) y +
      deposit 32 (xMask (4 ^ min a b)) (y / 2 ^ min a b * 2 ^ min a b + x) = interleave (min a b) x y := by
    intro x left y right
    have part : ∀ {n c : Nat}, c ≤ 15 -> n < 2 ^ c -> n / 2 ^ min a b < 2 ^ (15 - min a b) := by
      intro n c few below
      refine Nat.div_lt_of_lt_mul ?_
      rw [← pow_add, Nat.add_sub_cancel' small]
      exact below.trans_le (Nat.pow_le_pow_right two_pos few)
    have room : 2 ^ (15 - min a b) + 2 ^ (15 - min a b) ≤ 2 ^ (32 - 2 * min a b) := by
      rw [← Nat.two_mul, ← pow_succ']
      exact Nat.pow_le_pow_right two_pos (by omega)
    have placed := @deposit_interleave (32 - 2 * min a b) (min a b) x y
      ((Nat.add_lt_add (part wide left) (part high right)).trans_le room)
    rwa [Nat.add_sub_cancel' (by omega), ← (masks_eq small).1, ← (masks_eq small).2] at placed
  have start := places_eq small (2 ^ a) pitch (2 ^ b) 0
  have zero : deposit 32 (yMask (4 ^ min a b)) 0 = 0 ∧ deposit 32 (xMask (4 ^ min a b)) 0 = 0 := by
    have none := index 0 (Nat.two_pow_pos a) 0 (Nat.two_pow_pos b)
    simpa [interleave_zero] using none
  rw [Nat.zero_div, zero_mul, zero_mul, Nat.zero_mod, zero.1, zero.2] at start
  rw [swizzlePlaces, ceilLog2_two_pow, ceilLog2_two_pow, limit, start]
  simp only [mem_flatMap, mem_map, mem_range'_1, zero_add, zero_le, true_and]
  constructor
  · rintro ⟨y, right, x, left, rfl⟩
    exact ⟨x, left, y, right, by rw [index x left y right]⟩
  · rintro ⟨x, left, y, right, rfl⟩
    exact ⟨y, right, x, left, by rw [index x left y right]⟩

theorem convert_linear_swizzle_z_order {α : Type} (a b : Nat) (wide : a ≤ 15) (high : b ≤ 15) (pitch size : Nat)
    (input output back : Nat -> α) :
    let swizzled := convertLinearSwizzle false (2 ^ a) (2 ^ b) pitch size input output
    let linear := fun x y => y * (pitch / size) % 2 ^ 32 + x
    ∃ z : Nat -> Nat -> Nat,
      (∀ x < 2 ^ a, ∀ y < 2 ^ b, calculateZIndex x y 0 a b 0 = some (z x y)) ∧
      Set.BijOn (fun p : Nat × Nat => z p.1 p.2) (Set.Iio (2 ^ a) ×ˢ Set.Iio (2 ^ b)) (Set.Iio (2 ^ a * 2 ^ b)) ∧
      (∀ x < 2 ^ a, ∀ y < 2 ^ b, swizzled (z x y) = input (linear x y)) ∧
      ∀ x < 2 ^ a, ∀ y < 2 ^ b,
        convertLinearSwizzle true (2 ^ a) (2 ^ b) pitch size swizzled back (linear x y) = input (linear x y) := by
  intro swizzled linear
  have place := mem_swizzlePlaces wide high (pitch / size)
  have there : ∀ x < 2 ^ a, ∀ y < 2 ^ b, swizzled (interleave (min a b) x y) = input (linear x y) := by
    intro x left y right
    refine Scatter.foldl_copy_same input output ((place _).mpr ⟨x, left, y, right, rfl⟩) fun other present same => ?_
    obtain ⟨x', left', y', right', rfl⟩ := (place other).mp present
    obtain ⟨rfl, rfl⟩ := interleave_inj left' right' left right same
    rfl
  refine ⟨interleave (min a b), fun x left y right => ?_, ⟨?_, ?_, ?_⟩, there, fun x left y right => ?_⟩
  · simpa [calculateZIndex] using zIndexLoop_eq (Nat.lt_succ_self (a + b)) left right (Nat.two_pow_pos 0)
  · rintro ⟨x, y⟩ ⟨left, right⟩
    exact interleave_lt left right
  · rintro ⟨x, y⟩ ⟨left, right⟩ ⟨x', y'⟩ ⟨left', right'⟩ same
    obtain ⟨rfl, rfl⟩ := interleave_inj left right left' right' same
    rfl
  · intro n below
    obtain ⟨x, left, y, right, same⟩ := interleave_surj below
    exact ⟨(x, y), ⟨left, right⟩, same⟩
  · have member := mem_map_of_mem (f := Prod.swap) ((place _).mpr ⟨x, left, y, right, rfl⟩)
    refine Scatter.foldl_copy_same swizzled back member fun other present same => ?_
    obtain ⟨_, before, rfl⟩ := mem_map.mp present
    obtain ⟨x', left', y', right', rfl⟩ := (place _).mp before
    exact (there x' left' y' right').trans (congrArg input same)

theorem convert_linear_swizzle_wide : ∃ z : Nat -> Nat -> Nat,
    (∀ x < 2 ^ 3, ∀ y < 2 ^ 1, calculateZIndex x y 0 3 1 0 = some (z x y)) ∧
      ∀ x < 2 ^ 3, ∀ y < 2 ^ 1,
        convertLinearSwizzle false (2 ^ 3) (2 ^ 1) 32 4 id (fun _ => 0) (z x y) = y * (32 / 4) % 2 ^ 32 + x := by
  obtain ⟨z, index, -, placed, -⟩ :=
    convert_linear_swizzle_z_order 3 1 (by decide) (by decide) 32 4 id (fun _ => 0) fun _ => 0
  exact ⟨z, index, placed⟩

end EmuCore.Rsx
