import Mathlib.Tactic

-- Vector registers as lists of lanes, and the memory they are loaded from as lists of words.
namespace Lanes

open List Nat BitVec

section Words

variable {n : Nat}

-- Least significant byte first.
def bytesOf (x : BitVec (8 * n)) : List (BitVec 8) := ofFn fun k : Fin n => x.extractLsb' (8 * k) 8

def ofBytes (n : Nat) (bytes : List (BitVec 8)) : BitVec (8 * n) :=
  bytes.foldr (fun byte word => word <<< 8 ||| byte.setWidth _) 0

@[simp] lemma length_bytesOf (x : BitVec (8 * n)) : (bytesOf x).length = n := length_ofFn

lemma getElem?_bytesOf (x : BitVec (8 * n)) {k : Nat} (inside : k < n) :
    (bytesOf x)[k]? = some (x.extractLsb' (8 * k) 8) := by
  rw [bytesOf, List.getElem?_ofFn, dif_pos inside]

lemma getLsbD_ofBytes (bytes : List (BitVec 8)) {i : Nat} (inside : i < 8 * n) :
    (ofBytes n bytes).getLsbD i = (bytes.getD (i / 8) 0).getLsbD (i % 8) := by
  induction bytes generalizing i with
  | nil => simp [ofBytes]
  | cons byte rest ih =>
    rw [ofBytes, foldr_cons, ← ofBytes, getLsbD_or, getLsbD_shiftLeft,
      getLsbD_setWidth]
    by_cases low : i < 8
    · simp [low, inside, div_eq_of_lt low, mod_eq_of_lt low]
    · obtain ⟨j, rfl⟩ := Nat.exists_eq_add_of_le (Nat.le_of_not_lt low)
      have next : (8 + j) / 8 = j / 8 + 1 := by omega
      simp [low, inside, next, ih (show j < 8 * n by omega)]

@[simp] lemma ofBytes_bytesOf (x : BitVec (8 * n)) : ofBytes n (bytesOf x) = x := by
  apply eq_of_getLsbD_eq
  intro i inside
  rw [getLsbD_ofBytes _ inside, getD_eq_getElem?_getD, getElem?_bytesOf x (by omega),
    Option.getD_some, getLsbD_extractLsb', div_add_mod]
  simp [mod_lt]

lemma bytesOf_ofBytes {bytes : List (BitVec 8)} (length : bytes.length = n) :
    bytesOf (ofBytes n bytes) = bytes := by
  apply ext_getElem?
  intro k
  by_cases inside : k < n
  · rw [getElem?_bytesOf _ inside, List.getElem?_eq_getElem (by omega)]
    congr 1
    apply eq_of_getLsbD_eq
    intro i small
    have group : (8 * k + i) / 8 = k := by omega
    have offset : (8 * k + i) % 8 = i := by omega
    rw [getLsbD_extractLsb', getLsbD_ofBytes _ (by omega), group, offset,
      getD_eq_getElem?_getD, List.getElem?_eq_getElem (by omega), Option.getD_some]
    simp [small]
  · rw [List.getElem?_eq_none (by simpa using inside), List.getElem?_eq_none (by omega)]

def byteSwap (x : BitVec (8 * n)) : BitVec (8 * n) := ofBytes n (bytesOf x).reverse

def words (n : Nat) : Nat -> List (BitVec 8) -> List (BitVec (8 * n))
  | 0, _ => []
  | lanes + 1, bytes => ofBytes n (bytes.take n) :: words n lanes (bytes.drop n)

def reverseWords (n : Nat) : Nat -> List (BitVec 8) -> List (BitVec 8)
  | 0, _ => []
  | lanes + 1, bytes => (bytes.take n).reverse ++ reverseWords n lanes (bytes.drop n)

lemma words_flatMap (xs : List (BitVec (8 * n))) (lanes : Nat) (rest : List (BitVec 8)) :
    words n (xs.length + lanes) (xs.flatMap bytesOf ++ rest) = xs ++ words n lanes rest := by
  induction xs with
  | nil => simp
  | cons x xs ih =>
    rw [length_cons, add_right_comm, words, flatMap_cons, List.append_assoc,
      take_left' (length_bytesOf x), drop_left' (length_bytesOf x), ofBytes_bytesOf, ih,
      List.cons_append]

lemma reverseWords_flatMap (xs : List (BitVec (8 * n))) :
    reverseWords n xs.length (xs.flatMap bytesOf) = (xs.map byteSwap).flatMap bytesOf := by
  induction xs with
  | nil => rfl
  | cons x xs ih =>
    rw [length_cons, reverseWords, flatMap_cons, take_left' (length_bytesOf x),
      drop_left' (length_bytesOf x), ih, map_cons, flatMap_cons, byteSwap,
      bytesOf_ofBytes (by simp)]

lemma words_reverseWords (xs : List (BitVec (8 * n))) :
    words n xs.length (reverseWords n xs.length (xs.flatMap bytesOf)) = xs.map byteSwap := by
  have whole := words_flatMap (xs.map byteSwap) 0 []
  rw [length_map, add_zero, append_nil, words, append_nil] at whole
  rw [reverseWords_flatMap, whole]

lemma words_length (lanes : Nat) (bytes : List (BitVec 8)) : (words n lanes bytes).length = lanes := by
  induction lanes generalizing bytes with
  | zero => rfl
  | succ lanes ih => rw [words, length_cons, ih]

end Words

section Reduce

variable {α : Type} {op : α -> α -> α} {e : α}

structure Reduces (op : α -> α -> α) (e : α) : Prop where
  assoc : ∀ x y z, op (op x y) z = op x (op y z)
  comm : ∀ x y, op x y = op y x
  right : ∀ x, op x e = x

lemma Reduces.foldl_eq (laws : Reduces op e) (a : α) (xs : List α) :
    xs.foldl op a = op a (xs.foldl op e) := by
  induction xs generalizing a with
  | nil => exact (laws.right a).symm
  | cons x xs ih => rw [foldl_cons, foldl_cons, ih, ih (op e x), laws.comm e, laws.right, laws.assoc]

lemma Reduces.foldl_zipWith (laws : Reduces op e) (xs ys : List α) (same : xs.length = ys.length) :
    (zipWith op xs ys).foldl op e = ys.foldl op (xs.foldl op e) := by
  induction xs generalizing ys with
  | nil =>
    cases ys with
    | nil => rfl
    | cons y ys => cases same
  | cons x xs ih =>
    cases ys with
    | nil => cases same
    | cons y ys =>
      have rest := (ih ys (by simpa using same)).trans (laws.foldl_eq _ _)
      calc
        _ = op (op e (op x y)) ((zipWith op xs ys).foldl op e) := laws.foldl_eq _ _
        _ = op (op x y) (op (xs.foldl op e) (ys.foldl op e)) := by rw [laws.comm e, laws.right, rest]
        _ = op (op x (xs.foldl op e)) (op y (ys.foldl op e)) := by
          rw [laws.assoc, laws.assoc, ← laws.assoc y, laws.comm y, laws.assoc]
        _ = _ := by
          rw [foldl_cons, foldl_cons, laws.comm e, laws.right, laws.foldl_eq x,
            laws.foldl_eq (op _ y), laws.assoc (op x _) y]

lemma Reduces.foldl_masked (laws : Reduces op e) (masked : α -> Bool) (a : α) (xs : List α) :
    (xs.map fun x => if masked x then e else x).foldl op a = (xs.filter fun x => !masked x).foldl op a := by
  induction xs generalizing a with
  | nil => rfl
  | cons x xs ih =>
    cases hidden : masked x <;> simp [hidden, ih, laws.right]

end Reduce

section Masks

def mask (lanes : List Bool) : Nat := lanes.foldr bit 0

lemma mask_cons (lane : Bool) (lanes : List Bool) : mask (lane :: lanes) = bit lane (mask lanes) := rfl

lemma testBit_mask (lanes : List Bool) (i : Nat) : (mask lanes).testBit i = lanes.getD i false := by
  induction lanes generalizing i with
  | nil => simp [mask]
  | cons lane lanes ih =>
    rw [mask_cons]
    cases i with
    | zero => exact testBit_bit_zero _ _
    | succ i => rw [testBit_bit_succ, ih, getD_cons_succ]

lemma mask_lt (lanes : List Bool) : mask lanes < 2 ^ lanes.length := by
  induction lanes with
  | nil => exact one_pos
  | cons lane lanes ih =>
    rw [mask_cons, length_cons, pow_succ, bit_val]
    cases lane <;> simp only [Bool.toNat_true, Bool.toNat_false] <;> omega

lemma countP_mask {lanes : List Bool} {width : Nat} (fits : lanes.length ≤ width) :
    (range width).countP (mask lanes).testBit = lanes.count true := by
  induction lanes generalizing width with
  | nil => simp [mask]
  | cons lane lanes ih =>
    obtain ⟨rest, rfl⟩ := Nat.exists_eq_add_of_le' (one_le_of_lt fits)
    have shifted : (mask (lane :: lanes)).testBit ∘ succ = (mask lanes).testBit :=
      funext fun i => testBit_bit_succ i lane (mask lanes)
    have first : (mask (lane :: lanes)).testBit 0 = lane := testBit_bit_zero lane (mask lanes)
    rw [range_succ_eq_map, countP_cons, countP_map, shifted, first,
      ih (le_of_succ_le_succ fits), count_cons]
    cases lane <;> rfl

lemma flatMap_select {α β : Type} {p : α -> Bool} {f : α -> List β} (xs : List α) {keep : Nat -> Bool}
    {g : Nat -> List β} (kept : ∀ i x, xs[i]? = some x -> keep i = p x)
    (same : ∀ i x, xs[i]? = some x -> g i = f x) :
    ((range xs.length).filter keep).flatMap g = (xs.filter p).flatMap f := by
  induction xs generalizing keep g with
  | nil => rfl
  | cons x xs ih =>
    have rest := ih (fun i => kept (i + 1)) (fun i => same (i + 1))
    rw [length_cons, range_succ_eq_map, filter_cons, filter_cons, filter_map,
      kept 0 x rfl]
    cases p x with
    | true =>
      simp only [if_true, flatMap_cons, flatMap_map, same 0 x rfl]
      exact congrArg _ rest
    | false =>
      simp only [Bool.false_eq_true, if_false, flatMap_map]
      exact rest

end Masks

section Overwrite

variable {α : Type}

def overwrite (dst : List α) (i : Nat) (xs : List α) : List α :=
  dst.take i ++ xs ++ dst.drop (i + xs.length)

variable {dst : List α} {i : Nat} {xs ys : List α}

lemma length_overwrite (room : i + xs.length ≤ dst.length) : (overwrite dst i xs).length = dst.length := by
  simp only [overwrite, length_append, length_take, length_drop]
  omega

@[simp] lemma overwrite_nil : overwrite dst i [] = dst := by simp [overwrite]

lemma overwrite_append (room : i ≤ dst.length) (xs ys : List α) :
    overwrite (overwrite dst i xs) (i + xs.length) ys = overwrite dst i (xs ++ ys) := by
  have before : (dst.take i ++ xs).length = i + xs.length := by simp [room]
  unfold overwrite
  rw [take_left' before, ← drop_drop, drop_left' before, drop_drop,
    length_append, append_assoc _ xs, add_assoc]

lemma take_overwrite (room : i ≤ dst.length) (xs ys : List α) :
    (overwrite dst i (xs ++ ys)).take (i + xs.length) = dst.take i ++ xs := by
  have before : (dst.take i ++ xs).length = i + xs.length := by simp [room]
  unfold overwrite
  rw [← List.append_assoc, List.append_assoc, take_left' before]

lemma drop_overwrite (room : i ≤ dst.length) (xs : List α) :
    (overwrite dst i xs).drop (i + xs.length) = dst.drop (i + xs.length) := by
  unfold overwrite
  exact drop_left' (by simp [room])

lemma append_eq_take_iff (first : xs.length = i) (room : i ≤ dst.length) (ys : List α) (n : Nat) :
    xs ++ ys = dst.take (i + n) ↔ xs = dst.take i ∧ ys = (dst.drop i).take n := by
  rw [take_add]
  refine ⟨fun same => append_inj same ?_, fun both => by rw [both.1, both.2]⟩
  rw [first, length_take]
  omega

lemma set_eq_overwrite (inside : i < dst.length) (x : α) : dst.set i x = overwrite dst i [x] := by
  rw [set_eq_take_append_cons_drop, if_pos inside, overwrite, List.append_assoc]
  rfl

end Overwrite

section Blocks

variable {σ ε : Type} (lanes count : Nat) (body : Nat -> σ -> Except ε σ)

def forBlocks : Nat -> Nat -> σ -> Except ε (Nat × σ)
  | 0, i, s => .ok (i, s)
  | fuel + 1, i, s =>
    if count - i ≥ lanes then do
      let s ← body i s
      forBlocks fuel (i + lanes) s
    else .ok (i, s)

variable {lanes count body}

lemma forBlocks_ok {Inv : Nat -> σ -> Prop} (positive : 0 < lanes)
    (step : ∀ i s, i + lanes ≤ count -> Inv i s -> ∃ next, body i s = .ok next ∧ Inv (i + lanes) next)
    {fuel i : Nat} {s : σ} (enough : count - i ≤ fuel) (inside : i ≤ count) (start : Inv i s) :
    ∃ j last, forBlocks lanes count body fuel i s = .ok (j, last) ∧ j ≤ count ∧ count - j < lanes ∧
      Inv j last := by
  induction fuel generalizing i s with
  | zero => exact ⟨i, s, rfl, inside, by omega, start⟩
  | succ fuel ih =>
    rw [forBlocks]
    split
    next more =>
      obtain ⟨next, ran, kept⟩ := step i s (by omega) start
      rw [ran]
      exact ih (by omega) (by omega) kept
    next done => exact ⟨i, s, rfl, inside, by omega, start⟩

end Blocks

end Lanes
