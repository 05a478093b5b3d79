import Mathlib.Tactic

namespace EmuCore.AddressRange

open Nat BitVec

variable {w : Nat}

-- An unsigned address type of the source (u16, u32, u64) is a bit width here.
structure Range (w : Nat) where
  start : BitVec w
  last : BitVec w
deriving DecidableEq, Repr

def umax : BitVec w := allOnes w

def Range.invalidated : Range w := ⟨umax, 0#w⟩

def Range.valid (r : Range w) : Bool := decide (r.start ≤ r.last)

def Range.nextAddress (r : Range w) : BitVec w := r.last + 1#w

def Range.prevAddress (r : Range w) : BitVec w := r.start - 1#w

def Range.overlaps (r other : Range w) : Bool :=
  decide (r.start ≤ other.last) && decide (other.start ≤ r.last)

def Range.overlapsAddress (r : Range w) (addr : BitVec w) : Bool :=
  decide (r.start ≤ addr) && decide (addr ≤ r.last)

def Range.touches (r other : Range w) : Bool :=
  r.overlaps other || other.start == r.nextAddress || other.last == r.prevAddress

def smaller (a b : BitVec w) : BitVec w := if b < a then b else a

def larger (a b : BitVec w) : BitVec w := if a < b then b else a

def Range.getMinMax (r other : Range w) : Range w where
  start := smaller (if r.valid then r.start else umax) (if other.valid then other.start else umax)
  last := larger (if r.valid then r.last else 0#w) (if other.valid then other.last else 0#w)

def Range.Mem (r : Range w) (addr : BitVec w) : Prop := r.start ≤ addr ∧ addr ≤ r.last

-- Overlapping or side by side on the number line, without going round the end of the type.
def Range.Adjoins (r other : Range w) : Prop :=
  r.start.toNat ≤ other.last.toNat + 1 ∧ other.start.toNat ≤ r.last.toNat + 1

def Range.Wraps (r other : Range w) : Prop :=
  (r.last = umax ∧ other.start = 0#w) ∨ (other.last = umax ∧ r.start = 0#w)

lemma valid_iff (r : Range w) : r.valid = true ↔ r.start.toNat ≤ r.last.toNat := by
  simp [Range.valid, le_def]

lemma mem_iff (r : Range w) (addr : BitVec w) :
    r.Mem addr ↔ r.start.toNat ≤ addr.toNat ∧ addr.toNat ≤ r.last.toNat := Iff.rfl

variable {r : Range w}

lemma Range.Mem.valid {addr : BitVec w} (mem : r.Mem addr) : r.valid = true := by
  rw [valid_iff]
  exact le_trans mem.1 mem.2

lemma mem_start (ok : r.valid = true) : r.Mem r.start :=
  ⟨BitVec.le_refl _, (valid_iff r).mp ok⟩

lemma mem_last (ok : r.valid = true) : r.Mem r.last :=
  ⟨(valid_iff r).mp ok, BitVec.le_refl _⟩

lemma umax_toNat : (umax : BitVec w).toNat = 2 ^ w - 1 := toNat_allOnes

lemma two_le_size (pos : 0 < w) : 2 ≤ 2 ^ w :=
  Nat.pow_le_pow_right (by omega : 0 < 2) pos

lemma invalidated_invalid (pos : 0 < w) : (Range.invalidated : Range w).valid = false := by
  have size := two_le_size pos
  rw [← Bool.not_eq_true, valid_iff]
  simp only [Range.invalidated, umax_toNat, toNat_ofNat, zero_mod]
  omega

lemma umax_iff (a : BitVec w) : a = umax ↔ a.toNat + 1 = 2 ^ w := by
  have below := a.isLt
  rw [← toNat_inj, umax_toNat]
  omega

lemma zero_iff (a : BitVec w) : a = 0#w ↔ a.toNat = 0 := by
  rw [← toNat_inj]
  simp

lemma eq_succ_iff (pos : 0 < w) (a b : BitVec w) :
    a = b + 1#w ↔ a.toNat = b.toNat + 1 ∨ (b = umax ∧ a = 0#w) := by
  have size := two_le_size pos
  have aBound := a.isLt
  have bBound := b.isLt
  rw [umax_iff, zero_iff, ← toNat_inj]
  simp only [toNat_add, toNat_ofNat, add_mod_mod]
  by_cases top : b.toNat + 1 = 2 ^ w
  next =>
    rw [top, mod_self]
    omega
  next =>
    rw [mod_eq_of_lt (by omega : b.toNat + 1 < 2 ^ w)]
    omega

lemma eq_pred_iff (pos : 0 < w) (a b : BitVec w) :
    a = b - 1#w ↔ b.toNat = a.toNat + 1 ∨ (a = umax ∧ b = 0#w) := by
  rw [← eq_succ_iff pos b a]
  constructor
  next =>
    rintro rfl
    exact (BitVec.sub_add_cancel b 1#w).symm
  next =>
    rintro rfl
    exact (BitVec.add_sub_cancel a 1#w).symm

lemma succ_toNat {a b : BitVec w} (below : a < b) : (a + 1#w).toNat = a.toNat + 1 := by
  have bound := b.isLt
  have less : a.toNat < b.toNat := below
  simp only [toNat_add, toNat_ofNat, add_mod_mod]
  exact mod_eq_of_lt (by omega)

lemma pred_toNat {a b : BitVec w} (below : b < a) : (a - 1#w).toNat = a.toNat - 1 := by
  have bound := a.isLt
  have less : b.toNat < a.toNat := below
  have one : (1 : Nat) % 2 ^ w = 1 := mod_eq_of_lt (by omega)
  rw [toNat_sub, toNat_ofNat, one,
    show 2 ^ w - 1 + a.toNat = (a.toNat - 1) + 2 ^ w by omega, add_mod_right]
  exact mod_eq_of_lt (by omega)

variable {other : Range w}

lemma touches_iff (pos : 0 < w) (ok : r.valid = true) (otherOk : other.valid = true) :
    r.touches other = true ↔ r.Adjoins other ∨ r.Wraps other := by
  rw [valid_iff] at ok otherOk
  simp only [Range.touches, Range.overlaps, Range.nextAddress, Range.prevAddress, Bool.or_eq_true,
    Bool.and_eq_true, decide_eq_true_eq, beq_iff_eq, eq_succ_iff pos, eq_pred_iff pos,
    le_def, Range.Adjoins, Range.Wraps]
  constructor
  next =>
    rintro ((⟨before, after⟩ | after | wrap) | before | wrap)
    · exact .inl ⟨by omega, by omega⟩
    · exact .inl ⟨by omega, by omega⟩
    · exact .inr (.inl wrap)
    · exact .inl ⟨by omega, by omega⟩
    · exact .inr (.inr wrap)
  next =>
    rintro (⟨left, right⟩ | wrap | wrap)
    · by_cases after : other.start.toNat = r.last.toNat + 1
      · exact .inl (.inr (.inl after))
      · by_cases before : r.start.toNat = other.last.toNat + 1
        · exact .inr (.inl before)
        · exact .inl (.inl ⟨by omega, by omega⟩)
    · exact .inl (.inr (.inr wrap))
    · exact .inr (.inr wrap)

lemma smaller_toNat (a b : BitVec w) : (smaller a b).toNat = min a.toNat b.toNat := by
  simp only [smaller, lt_def]
  split <;> omega

lemma larger_toNat (a b : BitVec w) : (larger a b).toNat = max a.toNat b.toNat := by
  simp only [larger, lt_def]
  split <;> omega

section

variable (ok : r.valid = true) (otherOk : other.valid = true)

include ok otherOk

lemma getMinMax_bounds :
    (r.getMinMax other).start.toNat = min r.start.toNat other.start.toNat ∧
      (r.getMinMax other).last.toNat = max r.last.toNat other.last.toNat := by
  simp [Range.getMinMax, ok, otherOk, smaller_toNat, larger_toNat]

lemma getMinMax_valid :
    (r.getMinMax other).valid = true := by
  obtain ⟨low, high⟩ := getMinMax_bounds ok otherOk
  rw [valid_iff] at *
  omega

lemma getMinMax_mem (adjoins : r.Adjoins other)
    (addr : BitVec w) :
    (r.getMinMax other).Mem addr ↔ r.Mem addr ∨ other.Mem addr := by
  obtain ⟨low, high⟩ := getMinMax_bounds ok otherOk
  obtain ⟨left, right⟩ := adjoins
  rw [valid_iff] at ok otherOk
  simp only [mem_iff, low, high]
  omega

end

end EmuCore.AddressRange
