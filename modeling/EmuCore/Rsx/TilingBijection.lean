import EmuCore.Rsx.Tiling

namespace EmuCore.Rsx.Tiling

open Nat

section Bits

lemma or_add {x r : Nat} (m : Nat) (high : 2 ^ m ∣ x) (low : r < 2 ^ m) : x ||| r = x + r := by
  obtain ⟨q, rfl⟩ := high
  rw [mul_comm, ← shiftLeft_eq]
  exact (shiftLeft_add_eq_or_of_lt low q).symm

lemma and_mask (x n : Nat) : x &&& (2 ^ n - 1) = x % 2 ^ n := and_two_pow_sub_one_eq_mod x n

lemma and_one (x : Nat) : x &&& 1 = x % 2 := and_mask x 1

lemma and_three (x : Nat) : x &&& 0x3 = x % 4 := and_mask x 2

lemma and_seven (x : Nat) : x &&& 0x7 = x % 8 := and_mask x 3

lemma columnSelector_eq (line address : Nat) :
    columnSelector line address = line / 8 % 8 * 128 + address / 32 % 8 * 16 + line % 4 * 4 := by
  simp only [columnSelector, shiftLeft_eq, shiftRight_eq_div_pow, and_seven, and_three, zero_or,
    Nat.reducePow, Nat.div_one]
  have first : line / 8 % 8 * 128 ||| address / 32 % 8 * 16 = line / 8 % 8 * 128 + address / 32 % 8 * 16 :=
    or_add 7 (by omega) (by omega)
  rw [first, or_add 4 (by omega) (by omega)]

lemma partitionSelector_eq (line address : Nat) :
    partitionSelector line address = (line / 4 + address / 64) % 2 := by
  simp only [partitionSelector, shiftRight_eq_div_pow, and_one]
  omega

lemma plainAddress_eq {row bank line address : Nat} (rowSmall : row < 2 ^ 16) (bankSmall : bank < 4) :
    plainAddress row bank (columnSelector line address) (partitionSelector line address) address =
      row * 65536 + bank * 16384 + line / 8 % 8 * 2048 + address / 32 % 8 * 256 +
        (line / 4 + address / 64) % 2 * 128 + line % 4 * 32 + address % 32 := by
  have wide (x : Nat) : x &&& 0xFFFF = x % 65536 := and_mask x 16
  have six (x : Nat) : x &&& 0x3F = x % 64 := and_mask x 6
  have five (x : Nat) : x &&& 0x1F = x % 32 := and_mask x 5
  have rowField : row % 65536 = row := mod_eq_of_lt rowSmall
  have bankField : bank % 4 = bank := mod_eq_of_lt bankSmall
  have upper : columnSelector line address / 16 % 64 = line / 8 % 8 * 8 + address / 32 % 8 := by
    rw [columnSelector_eq]
    omega
  have lower : columnSelector line address / 4 % 4 = line % 4 := by
    rw [columnSelector_eq]
    omega
  have part : partitionSelector line address % 2 = (line / 4 + address / 64) % 2 := by
    rw [partitionSelector_eq, mod_mod]
  simp only [plainAddress, shiftLeft_eq, shiftRight_eq_div_pow, and_one, and_three, wide, six, five,
    zero_or, Nat.reducePow, Nat.div_one, mul_one, rowField, bankField, upper, lower, part]
  have lineUpper : line / 8 % 8 < 8 := mod_lt _ (by decide)
  have lineLower : line % 4 < 4 := mod_lt _ (by decide)
  have addressUpper : address / 32 % 8 < 8 := mod_lt _ (by decide)
  have addressLower : address % 32 < 32 := mod_lt _ (by decide)
  have partBit : (line / 4 + address / 64) % 2 < 2 := mod_lt _ (by decide)
  generalize line / 8 % 8 = a at *
  generalize line % 4 = b at *
  generalize address / 32 % 8 = c at *
  generalize address % 32 = d at *
  generalize (line / 4 + address / 64) % 2 = e at *
  rw [or_add (x := row * 65536) 16 (by omega) (by omega),
    or_add (x := row * 65536 + bank * 16384) 14 (by omega) (by omega),
    or_add (x := row * 65536 + bank * 16384 + (a * 8 + c) * 256) 8 (by omega) (by omega),
    or_add (r := b * 32) 7 (by omega) (by omega), or_add (r := d) 5 (by omega) (by omega)]
  omega

end Bits

section Twiddle

def flipped (bank selector high : Nat) : Nat :=
  ((((high >>> 1) ^^^ ((bank ^^^ selector) &&& 1) ^^^ (high >>> 3)) &&& 1) <<< 9) ^^^ ((high &&& 1) <<< 10)

variable {bank selector x y : Nat}

lemma twiddle_eq (bank selector x : Nat) : twiddle bank selector x = x ^^^ flipped bank selector (x >>> 11) := by
  have none (c : Nat) : ((c &&& 1) <<< 9) >>> 11 = 0 := by
    rw [and_one, shiftLeft_eq, shiftRight_eq_div_pow]
    omega
  simp only [twiddle, flipped, shiftRight_xor_distrib, none, xor_zero, ← shiftRight_add,
    Nat.xor_assoc]

lemma flipped_lt (bank selector high : Nat) : flipped bank selector high < 2 ^ 11 := by
  apply xor_lt_two_pow <;> rw [and_one, shiftLeft_eq] <;> omega

lemma flipped_low (bank selector high : Nat) : flipped bank selector high % 2 ^ 9 = 0 := by
  have first (c : Nat) : ((c &&& 1) <<< 9) % 2 ^ 9 = 0 := by rw [shiftLeft_eq]; omega
  have second (c : Nat) : ((c &&& 1) <<< 10) % 2 ^ 9 = 0 := by rw [shiftLeft_eq]; omega
  rw [flipped, xor_mod_two_pow, first, second, Nat.xor_self]

lemma twiddle_high (bank selector x : Nat) : twiddle bank selector x / 2 ^ 11 = x / 2 ^ 11 := by
  rw [twiddle_eq, ← shiftRight_eq_div_pow, shiftRight_xor_distrib, shiftRight_eq_div_pow (flipped _ _ _),
    div_eq_of_lt (flipped_lt _ _ _), xor_zero, shiftRight_eq_div_pow]

lemma twiddle_low (bank selector x : Nat) : twiddle bank selector x % 2 ^ 9 = x % 2 ^ 9 := by
  rw [twiddle_eq, xor_mod_two_pow, flipped_low, xor_zero]

lemma twiddle_inj (same : twiddle bank selector x = twiddle bank selector y) : x = y := by
  have high : x >>> 11 = y >>> 11 := by
    rw [shiftRight_eq_div_pow, shiftRight_eq_div_pow, ← twiddle_high bank selector x, same,
      twiddle_high]
  rw [twiddle_eq, twiddle_eq, high] at same
  have again := congrArg (· ^^^ flipped bank selector (y >>> 11)) same
  simpa only [Nat.xor_assoc, Nat.xor_self, xor_zero] using again

lemma twiddle_add {j : Nat} (small : x % 32 + j < 32) : twiddle bank selector (x + j) = twiddle bank selector x + j := by
  have high : (x + j) >>> 11 = x >>> 11 := by
    rw [shiftRight_eq_div_pow, shiftRight_eq_div_pow]
    omega
  have upper : twiddle bank selector (x + j) / 2 ^ 9 = twiddle bank selector x / 2 ^ 9 := by
    have nine : (x + j) >>> 9 = x >>> 9 := by
      rw [shiftRight_eq_div_pow, shiftRight_eq_div_pow]
      omega
    rw [twiddle_eq, twiddle_eq, high, ← shiftRight_eq_div_pow, ← shiftRight_eq_div_pow,
      shiftRight_xor_distrib, shiftRight_xor_distrib, nine]
  have lower := twiddle_low bank selector (x + j)
  have lowerX := twiddle_low bank selector x
  omega

end Twiddle

section Banks

def lookup (a b : Nat) : Nat := bankDistributionLookup.getD (a * 4 + b) 0

lemma lookup_lt : ∀ a < 4, ∀ b < 4, lookup a b < 4 := by decide

lemma lookup_inj : ∀ b < 4, ∀ a < 4, ∀ other < 4, lookup a b = lookup other b -> a = other := by decide

-- Two rows of tiles that meet in the middle of four tiles.
lemma lookup_rows : ∀ y < 4, y % 2 = 0 -> ∀ a < 2, ∀ other < 2, lookup a y ≠ lookup other ((y + 1) % 4) := by
  decide

def selected (factor tile y : Nat) : Nat :=
  if factor = 1 then tile % 4
  else if factor = 2 then lookup ((tile + 2 * (y % 2)) % 4) (y % 4)
  else lookup (tile % 4) (y % 4)

lemma selected_lt (factor tile y : Nat) : selected factor tile y < 4 := by
  unfold selected
  split
  next => omega
  split
  next => exact lookup_lt _ (by omega) _ (by omega)
  next => exact lookup_lt _ (by omega) _ (by omega)

lemma bankSelector_eq {conf : DetilerConfig} {selector tile : Nat} (y : Nat) {k : Nat} (power : conf.factor = 2 ^ k)
    (same : selector % 4 = tile % 4) :
    bankSelector conf selector y = (selected conf.factor tile y + conf.tileBank) % 4 := by
  have large : ¬conf.factor = 1 -> ¬conf.factor = 2 -> conf.factor ≥ 4 := by
    rw [power]
    intro one two
    obtain ⟨j, rfl⟩ : ∃ j, k = j + 2 := by
      rcases k with _ | _ | j
      · exact absurd rfl one
      · exact absurd rfl two
      · exact ⟨j, rfl⟩
    have positive := Nat.two_pow_pos j
    rw [pow_add]
    omega
  have index : (selector + y % 2 * 2) % 2 ^ 32 % 4 = (tile + 2 * (y % 2)) % 4 := by omega
  simp only [bankSelector, selected, lookup, and_three, and_one, shiftLeft_eq, pow_one]
  split
  next => omega
  next one =>
    split
    next =>
      rw [index]
      omega
    next two =>
      rw [if_pos (large one two), same]
      omega

end Banks

/-- A pitch of `p * 2^k` tiles, and a tile region of whole rows of tiles and whole 64K pages. -/
structure Geometry (p k : Nat) (conf : DetilerConfig) : Prop where
  prime : p ∈ [1, 3, 5, 7, 11, 13]
  factor : conf.factor = 2 ^ k
  tiles : conf.numTilesPerRow = p * 2 ^ k
  base : conf.tileBaseAddress < 2 ^ 32
  aligned : conf.tileBaseAddress % 65536 = 0
  size : conf.tileSize < 2 ^ 32
  pages : conf.tileSize % 65536 = 0
  rows : 64 * (p * 2 ^ k * 256) ∣ conf.tileSize

def tileOf (n offset : Nat) : Nat := offset / 256 / n / 64 * n + offset / 256 % n

def lineOf (n offset : Nat) : Nat := offset / 256 / n % 64

section Tiles

variable {n a b : Nat}

lemma tileOf_div (positive : 0 < n) (offset : Nat) : tileOf n offset / n = offset / 256 / n / 64 := by
  rw [tileOf, mul_comm, mul_add_div positive, div_eq_of_lt (mod_lt _ positive), add_zero]

lemma tileOf_mod (offset : Nat) : tileOf n offset % n = offset / 256 % n := by
  rw [tileOf, mul_add_mod_self_right, mod_mod]

lemma offset_inj (positive : 0 < n) (tile : tileOf n a = tileOf n b) (line : lineOf n a = lineOf n b)
    (low : a % 256 = b % 256) : a = b := by
  have y : a / 256 / n / 64 = b / 256 / n / 64 := by rw [← tileOf_div positive, tile, tileOf_div positive]
  have x : a / 256 % n = b / 256 % n := by rw [← tileOf_mod, tile, tileOf_mod]
  unfold lineOf at line
  have row : a / 256 / n = b / 256 / n := by omega
  have texel : a / 256 = b / 256 := by rw [← div_add_mod (a / 256) n, row, x, div_add_mod]
  omega

lemma tileOf_lt (positive : 0 < n) {m offset : Nat} (inside : offset < 16384 * (n * m)) :
    tileOf n offset < n * m := by
  have row : offset / 256 / n / 64 < m := by
    rw [Nat.div_div_eq_div_mul, Nat.div_div_eq_div_mul]
    refine Nat.div_lt_of_lt_mul ?_
    calc
      offset < 16384 * (n * m) := inside
      _ = 256 * (n * 64) * m := by ring
  have col := mod_lt (offset / 256) positive
  calc
    tileOf n offset < offset / 256 / n / 64 * n + n := Nat.add_lt_add_left col _
    _ = (offset / 256 / n / 64 + 1) * n := by ring
    _ ≤ m * n := mul_le_mul_right n row
    _ = n * m := mul_comm m n

end Tiles

lemma selected_inj {p k a b : Nat} (prime : p ∈ [1, 3, 5, 7, 11, 13]) (page : a / 4 = b / 4)
    (same : selected (2 ^ k) a (a / (p * 2 ^ k)) = selected (2 ^ k) b (b / (p * 2 ^ k))) : a = b := by
  rcases k with _ | _ | k
  · have last : a % 4 = b % 4 := same
    omega
  · simp only [selected, zero_add, pow_one, OfNat.ofNat_ne_one, if_false, if_true] at same
    have near : a / (p * 2) = b / (p * 2) ∨
        (b / (p * 2) = a / (p * 2) + 1 ∧ a / (p * 2) % 2 = 0 ∧ a % 4 < 2 ∧ 2 ≤ b % 4) ∨
        (a / (p * 2) = b / (p * 2) + 1 ∧ b / (p * 2) % 2 = 0 ∧ b % 4 < 2 ∧ 2 ≤ a % 4) := by
      simp only [List.mem_cons, List.not_mem_nil, or_false] at prime
      rcases prime with rfl | rfl | rfl | rfl | rfl | rfl <;> omega
    generalize a / (p * 2) = y at same near
    generalize b / (p * 2) = z at same near
    rcases near with rfl | ⟨rfl, even, first, second⟩ | ⟨rfl, even, first, second⟩
    · have := lookup_inj _ (by omega) _ (by omega) _ (by omega) same
      omega
    · rw [show (y + 1) % 4 = (y % 4 + 1) % 4 by omega] at same
      exact absurd same (lookup_rows _ (by omega) (by omega) _ (by omega) _ (by omega))
    · rw [show (z + 1) % 4 = (z % 4 + 1) % 4 by omega] at same
      exact absurd same.symm (lookup_rows _ (by omega) (by omega) _ (by omega) _ (by omega))
  · have many : ¬2 ^ (k + 2) = 1 ∧ ¬2 ^ (k + 2) = 2 := by
      have positive := Nat.two_pow_pos k
      rw [pow_add]
      omega
    have four : p * 2 ^ (k + 2) = 4 * (p * 2 ^ k) := by rw [pow_add]; ring
    have row : a / (p * 2 ^ (k + 2)) = b / (p * 2 ^ (k + 2)) := by
      rw [four, ← Nat.div_div_eq_div_mul a 4, ← Nat.div_div_eq_div_mul b 4, page]
    simp only [selected, many.1, many.2, if_false, row] at same
    have := lookup_inj _ (by omega) _ (by omega) _ (by omega) same
    omega

section Fields

def fields (row bank line address : Nat) : Nat :=
  row * 65536 + bank * 16384 + line / 8 % 8 * 2048 + address / 32 % 8 * 256 +
    (line / 4 + address / 64) % 2 * 128 + line % 4 * 32 + address % 32

variable {row bank line address row' bank' line' address' : Nat}

lemma fields_div : fields row bank line address / 2048 = row * 32 + bank * 8 + line / 8 % 8 := by
  have column : address / 32 % 8 < 8 := mod_lt _ (by decide)
  have part : (line / 4 + address / 64) % 2 < 2 := mod_lt _ (by decide)
  have low : line % 4 < 4 := mod_lt _ (by decide)
  have byte : address % 32 < 32 := mod_lt _ (by decide)
  unfold fields
  generalize address / 32 % 8 = c at *
  generalize (line / 4 + address / 64) % 2 = e at *
  generalize line % 4 = d at *
  generalize address % 32 = f at *
  generalize line / 8 % 8 = a
  omega

lemma fields_low (line64 : line < 64) (line64' : line' < 64)
    (same : fields row bank line address = fields row bank line' address') :
    line = line' ∧ address % 256 = address' % 256 := by
  have high := congrArg (· / 2048) same
  simp only [fields_div] at high
  unfold fields at same
  have column : address / 32 % 8 = address' / 32 % 8 := by
    have e : (line / 4 + address / 64) % 2 < 2 := mod_lt _ (by decide)
    have e' : (line' / 4 + address' / 64) % 2 < 2 := mod_lt _ (by decide)
    omega
  omega

end Fields

section Address

variable {p k : Nat} {conf : DetilerConfig} (geometry : Geometry p k conf) {offset : Nat}

def bankOf (conf : DetilerConfig) (offset : Nat) : Nat :=
  (selected conf.factor (tileOf conf.numTilesPerRow offset)
    (offset / 256 / conf.numTilesPerRow / 64) + conf.tileBank) % 4

def selectorOf (conf : DetilerConfig) (offset : Nat) : Nat :=
  (tileOf conf.numTilesPerRow offset + conf.tileBaseAddress / 16384) % 2 ^ 18

def plainOf (conf : DetilerConfig) (offset : Nat) : Nat :=
  fields (selectorOf conf offset / 4) (bankOf conf offset) (lineOf conf.numTilesPerRow offset) offset

include geometry

lemma Geometry.positive : 0 < conf.numTilesPerRow := by
  have prime : p ≠ 0 := by
    rintro rfl
    exact absurd geometry.prime (by decide)
  rw [geometry.tiles]
  exact Nat.mul_pos (Nat.pos_of_ne_zero prime) (Nat.two_pow_pos k)

lemma Geometry.tile_lt (inside : offset < conf.tileSize) :
    tileOf conf.numTilesPerRow offset < conf.tileSize / 16384 := by
  obtain ⟨m, size⟩ := geometry.rows
  have whole : conf.tileSize = 16384 * (conf.numTilesPerRow * m) := by
    rw [size, geometry.tiles]
    ring
  rw [whole, Nat.mul_div_cancel_left _ (by decide)]
  exact tileOf_lt geometry.positive (whole ▸ inside)

lemma Geometry.tileAddress_eq (inside : offset < conf.tileSize) :
    tileAddress conf ((conf.tileBaseAddress + offset) % 2 ^ 32) =
      twiddle (bankOf conf offset) (selectorOf conf offset) (plainOf conf offset) := by
  have tile := geometry.tile_lt inside
  have base := geometry.base
  have aligned := geometry.aligned
  have size := geometry.size
  have distance : ((conf.tileBaseAddress + offset) % 2 ^ 32 + (2 ^ 32 - conf.tileBaseAddress)) % 2 ^ 32 =
      offset := by omega
  have id : (offset / 256 / conf.numTilesPerRow / 64 * conf.numTilesPerRow + offset / 256 % conf.numTilesPerRow) %
      2 ^ 32 = tileOf conf.numTilesPerRow offset := mod_eq_of_lt (by unfold tileOf at tile; omega)
  have selector : (tileOf conf.numTilesPerRow offset + conf.tileBaseAddress >>> 14) % 2 ^ 32 &&& 0x3ffff =
      selectorOf conf offset := by
    have mask (x : Nat) : x &&& 0x3ffff = x % 2 ^ 18 := and_mask x 18
    rw [mask, shiftRight_eq_div_pow, selectorOf]
    omega
  have row : selectorOf conf offset >>> 2 &&& 0xffff = selectorOf conf offset / 4 := by
    have mask (x : Nat) : x &&& 0xffff = x % 65536 := and_mask x 16
    have small : selectorOf conf offset < 2 ^ 18 := mod_lt _ (by decide)
    rw [mask, shiftRight_eq_div_pow]
    omega
  have bank : bankSelector conf (selectorOf conf offset) (offset / 256 / conf.numTilesPerRow / 64) =
      bankOf conf offset := by
    refine bankSelector_eq _ geometry.factor ?_
    unfold selectorOf
    omega
  have small : selectorOf conf offset / 4 < 2 ^ 16 := by
    have small : selectorOf conf offset < 2 ^ 18 := mod_lt _ (by decide)
    omega
  have bankSmall : bankOf conf offset < 4 := mod_lt _ (by decide)
  have column : (conf.tileBaseAddress + offset) % 2 ^ 32 / 32 % 8 = offset / 32 % 8 := by omega
  have part : (conf.tileBaseAddress + offset) % 2 ^ 32 / 64 % 2 = offset / 64 % 2 := by omega
  have low : (conf.tileBaseAddress + offset) % 2 ^ 32 % 32 = offset % 32 := by omega
  simp only [tileAddress, distance, id, selector, row, bank]
  rw [← lineOf, plainAddress_eq small bankSmall, column, low, add_mod _ (_ / 64), part, ← add_mod, plainOf,
    fields]

lemma Geometry.address_inj {other : Nat} (inside : offset < conf.tileSize) (insideOther : other < conf.tileSize)
    (same : tileAddress conf ((conf.tileBaseAddress + offset) % 2 ^ 32) =
      tileAddress conf ((conf.tileBaseAddress + other) % 2 ^ 32)) : offset = other := by
  rw [geometry.tileAddress_eq inside, geometry.tileAddress_eq insideOther] at same
  have tile := geometry.tile_lt inside
  have tileOther := geometry.tile_lt insideOther
  have aligned := geometry.aligned
  have size := geometry.size
  have high : plainOf conf offset / 2 ^ 11 = plainOf conf other / 2 ^ 11 := by
    rw [← twiddle_high (bankOf conf offset) (selectorOf conf offset), same, twiddle_high]
  have bankSmall : bankOf conf offset < 4 := mod_lt _ (by decide)
  have bankSmallOther : bankOf conf other < 4 := mod_lt _ (by decide)
  have rowBank : selectorOf conf offset / 4 = selectorOf conf other / 4 ∧ bankOf conf offset = bankOf conf other := by
    have line : lineOf conf.numTilesPerRow offset / 8 % 8 < 8 := mod_lt _ (by decide)
    have lineOther : lineOf conf.numTilesPerRow other / 8 % 8 < 8 := mod_lt _ (by decide)
    simp only [plainOf, reducePow, fields_div] at high
    omega
  have tiles : tileOf conf.numTilesPerRow offset = tileOf conf.numTilesPerRow other := by
    have page : tileOf conf.numTilesPerRow offset / 4 = tileOf conf.numTilesPerRow other / 4 := by
      have row := rowBank.1
      unfold selectorOf at row
      omega
    have bank := rowBank.2
    unfold bankOf at bank
    rw [← tileOf_div geometry.positive, ← tileOf_div geometry.positive, geometry.factor] at bank
    refine selected_inj (k := k) geometry.prime page ?_
    rw [← geometry.tiles]
    have first := selected_lt (2 ^ k) (tileOf conf.numTilesPerRow offset) (tileOf conf.numTilesPerRow offset / conf.numTilesPerRow)
    have second := selected_lt (2 ^ k) (tileOf conf.numTilesPerRow other) (tileOf conf.numTilesPerRow other / conf.numTilesPerRow)
    omega
  have selectors : selectorOf conf offset = selectorOf conf other := by rw [selectorOf, selectorOf, tiles]
  rw [rowBank.2, selectors] at same
  have plain := twiddle_inj same
  rw [plainOf, plainOf, rowBank.2, selectors] at plain
  have low := fields_low (mod_lt _ (by decide)) (mod_lt _ (by decide)) plain
  exact offset_inj geometry.positive tiles low.1 low.2

def place (conf : DetilerConfig) (offset : Nat) : Nat :=
  (tileAddress conf ((conf.tileBaseAddress + offset) % 2 ^ 32) + (2 ^ 32 - conf.tileBaseAddress)) % 2 ^ 32

variable (inside : offset < conf.tileSize)

include inside

lemma Geometry.page :
    tileAddress conf ((conf.tileBaseAddress + offset) % 2 ^ 32) / 65536 = selectorOf conf offset / 4 := by
  have bank : bankOf conf offset < 4 := mod_lt _ (by decide)
  have line : lineOf conf.numTilesPerRow offset / 8 % 8 < 8 := mod_lt _ (by decide)
  have high := twiddle_high (bankOf conf offset) (selectorOf conf offset) (plainOf conf offset)
  simp only [plainOf, reducePow, fields_div] at high
  rw [geometry.tileAddress_eq inside, plainOf]
  omega

lemma Geometry.place_lt : place conf offset < conf.tileSize := by
  have page := geometry.page inside
  have tile := geometry.tile_lt inside
  have base := geometry.base
  have aligned := geometry.aligned
  have size := geometry.size
  have pages := geometry.pages
  unfold selectorOf at page
  unfold place
  omega

lemma Geometry.address_low :
    tileAddress conf ((conf.tileBaseAddress + offset) % 2 ^ 32) % 32 = offset % 32 := by
  have low := twiddle_low (bankOf conf offset) (selectorOf conf offset) (plainOf conf offset)
  have plain : plainOf conf offset % 32 = offset % 32 := by
    unfold plainOf fields
    omega
  rw [geometry.tileAddress_eq inside]
  omega

lemma Geometry.address_lt :
    tileAddress conf ((conf.tileBaseAddress + offset) % 2 ^ 32) < 2 ^ 32 := by
  have page := geometry.page inside
  have selector : selectorOf conf offset < 2 ^ 18 := mod_lt _ (by decide)
  omega

lemma Geometry.address_add {j : Nat} (small : offset % 32 + j < 32) :
    tileAddress conf ((conf.tileBaseAddress + (offset + j)) % 2 ^ 32) =
      tileAddress conf ((conf.tileBaseAddress + offset) % 2 ^ 32) + j := by
  have pages := geometry.pages
  have texel : (offset + j) / 256 = offset / 256 := by omega
  have plain : plainOf conf (offset + j) = plainOf conf offset + j := by
    have column : (offset + j) / 32 = offset / 32 := by omega
    have part : (offset + j) / 64 = offset / 64 := by omega
    simp only [plainOf, fields, selectorOf, bankOf, tileOf, lineOf, texel, column, part]
    omega
  have low : plainOf conf offset % 32 = offset % 32 := by
    unfold plainOf fields
    omega
  rw [geometry.tileAddress_eq inside, geometry.tileAddress_eq (by omega), plain,
    ← twiddle_add (by omega)]
  simp only [bankOf, selectorOf, tileOf, texel]

end Address

end EmuCore.Rsx.Tiling
