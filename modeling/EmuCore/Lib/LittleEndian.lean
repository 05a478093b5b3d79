import Mathlib.Tactic

-- Unsigned numbers as bytes, the lowest one first.
namespace LittleEndian

open List

def encode : Nat -> Nat -> List UInt8
  | 0, _ => []
  | width + 1, n => UInt8.ofNat n :: encode width (n / 256)

def decode : List UInt8 -> Nat
  | [] => 0
  | b :: rest => b.toNat + 256 * decode rest

@[simp] lemma length_encode (width n : Nat) : (encode width n).length = width := by
  induction width generalizing n with
  | zero => rfl
  | succ width ih => simp [encode, ih]

lemma decode_encode (width n : Nat) : decode (encode width n) = n % 256 ^ width := by
  induction width generalizing n with
  | zero => simp [encode, decode, Nat.mod_one]
  | succ width ih =>
    have split : n % (256 * 256 ^ width) = n % 256 + 256 * (n / 256 % 256 ^ width) := Nat.mod_mul
    have first : (UInt8.ofNat n).toNat = n % 256 := UInt8.toNat_ofNat'
    rw [encode, decode, ih, first, Nat.pow_succ', split]

lemma decode_encode_of_lt {width n : Nat} (small : n < 256 ^ width) : decode (encode width n) = n := by
  rw [decode_encode, Nat.mod_eq_of_lt small]

def record (fields : List (Nat × Nat)) : List UInt8 := fields.flatMap fun field => encode field.1 field.2

def decodeAt (bytes : List UInt8) (offset width : Nat) : Nat := decode ((bytes.drop offset).take width)

lemma record_cons (width n : Nat) (fields : List (Nat × Nat)) :
    record ((width, n) :: fields) = encode width n ++ record fields := rfl

lemma length_record (fields : List (Nat × Nat)) : (record fields).length = (fields.map Prod.fst).sum := by
  simp [record, length_flatMap]

lemma decodeAt_first {width n : Nat} (small : n < 256 ^ width) (fields : List (Nat × Nat)) :
    decodeAt (record ((width, n) :: fields)) 0 width = n := by
  rw [decodeAt, record_cons, drop_zero, take_left' (length_encode width n), decode_encode_of_lt small]

lemma decodeAt_later (skipped n : Nat) (fields : List (Nat × Nat)) (offset width : Nat) :
    decodeAt (record ((skipped, n) :: fields)) (offset + skipped) width = decodeAt (record fields) offset width := by
  have part : (encode skipped n ++ record fields).drop (offset + skipped) = (record fields).drop offset := by
    rw [add_comm, ← drop_drop, drop_left' (length_encode skipped n)]
  rw [decodeAt, record_cons, part, decodeAt]

def encodeBig (width n : Nat) : List UInt8 := (encode width n).reverse

def decodeBig (bytes : List UInt8) : Nat := decode bytes.reverse

@[simp] lemma length_encodeBig (width n : Nat) : (encodeBig width n).length = width := by
  rw [encodeBig, length_reverse, length_encode]

lemma decodeBig_encodeBig {width n : Nat} (small : n < 256 ^ width) : decodeBig (encodeBig width n) = n := by
  rw [decodeBig, encodeBig, reverse_reverse, decode_encode_of_lt small]

def fieldAt (bytes : List UInt8) (offset width : Nat) : List UInt8 := (bytes.drop offset).take width

lemma fieldAt_part (before : List (List UInt8)) (part : List UInt8) (after : List (List UInt8))
    {offset width : Nat} (place : offset = (before.map List.length).sum) (size : width = part.length) :
    fieldAt (before ++ part :: after).flatten offset width = part := by
  have skipped : offset = before.flatten.length := by rw [place, length_flatten]
  rw [fieldAt, flatten_append, flatten_cons, drop_left' skipped.symm, take_left' size.symm]

end LittleEndian
