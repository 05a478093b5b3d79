import EmuCore.Rsx.NeonUpload
import Mathlib.Data.Nat.Bitwise

namespace EmuCore.Rsx

open Lanes List Nat

section Table

def row (done : List (BitVec 8)) : List (BitVec 8) × Nat :=
  (done ++ List.replicate (16 - done.length) 0xff, done.length)

lemma put_row {done : List (BitVec 8)} (room : done.length < 16) (value : BitVec 8) :
    put (row done) value = row (done ++ [value]) := by
  obtain ⟨rest, more⟩ : ∃ rest, 16 - done.length = rest + 1 := ⟨15 - done.length, by omega⟩
  have less : 16 - (done ++ [value]).length = rest := by simp only [length_append, length_singleton]; omega
  rw [put, row, row, less, more, replicate_succ, length_append, length_singleton]
  simp

lemma foldl_put {done : List (BitVec 8)} (values : List (BitVec 8))
    (room : done.length + values.length ≤ 16) : values.foldl put (row done) = row (done ++ values) := by
  induction values generalizing done with
  | nil => rw [append_nil]; rfl
  | cons value values ih =>
    rw [length_cons] at room
    rw [foldl_cons, put_row (by omega), ih (by simp only [length_append, length_singleton]; omega),
      append_assoc, singleton_append]

lemma foldl_select {σ α β : Type} (keep : α -> Prop) [DecidablePred keep] (f : σ -> β -> σ)
    (g : α -> List β) (s : σ) (xs : List α) :
    xs.foldl (fun s x => if keep x then (g x).foldl f s else s) s =
      ((xs.filter fun x => decide (keep x)).flatMap g).foldl f s := by
  induction xs generalizing s with
  | nil => rfl
  | cons x xs ih => by_cases kept : keep x <;> simp [kept, ih, foldl_append]

lemma and_bit (mask lane : Nat) : decide (mask &&& 1 <<< lane ≠ 0) = mask.testBit lane := by
  rw [one_shiftLeft, and_two_pow]
  cases mask.testBit lane <;> simp

def chosen (bytes lanes mask : Nat) : List (BitVec 8) :=
  ((List.range lanes).filter mask.testBit).flatMap fun lane =>
    (List.range bytes).map fun byte => BitVec.ofNat 8 (lane * bytes + byte)

lemma length_chosen (bytes lanes mask : Nat) : (chosen bytes lanes mask).length ≤ lanes * bytes := by
  have each : ∀ lane, ((List.range bytes).map fun byte => BitVec.ofNat 8 (lane * bytes + byte)).length = bytes :=
    fun lane => by rw [length_map, length_range]
  rw [chosen, length_flatMap, funext each, map_const', sum_replicate, smul_eq_mul]
  have few := length_filter_le mask.testBit (List.range lanes)
  rw [length_range] at few
  exact Nat.mul_le_mul_right bytes few

lemma compressRow_eq {bytes lanes : Nat} (fits : lanes * bytes ≤ 16) (mask : Nat) :
    compressRow bytes lanes mask = (row (chosen bytes lanes mask)).1 := by
  have few := length_chosen bytes lanes mask
  have select := foldl_select (fun lane => mask &&& 1 <<< lane ≠ 0) put
    (fun lane => (List.range bytes).map fun byte => BitVec.ofNat 8 (lane * bytes + byte)) (row [])
    (List.range lanes)
  simp only [and_bit, foldl_map] at select
  have all : (chosen bytes lanes mask).foldl put (row []) = row (chosen bytes lanes mask) :=
    foldl_put _ (by simp only [length_nil]; omega)
  exact congrArg Prod.fst (select.trans all)

end Table

variable {t : IndexType}

lemma IndexType.lanes_mul_bytes (t : IndexType) : t.lanes * t.bytes = 16 := by cases t <;> decide

lemma getElem?_flatMap_bytesOf {n : Nat} (xs : List (BitVec (8 * n))) {lane byte : Nat} (inside : byte < n) :
    (xs.flatMap bytesOf)[lane * n + byte]? = xs[lane]?.bind fun x => (bytesOf x)[byte]? := by
  induction xs generalizing lane with
  | nil => rfl
  | cons x xs ih =>
    rw [flatMap_cons]
    cases lane with
    | zero => rw [zero_mul, zero_add, getElem?_append_left (by simpa using inside)]; rfl
    | succ lane =>
      rw [getElem?_append_right (by rw [length_bytesOf, succ_mul]; omega), length_bytesOf,
        show (lane + 1) * n + byte - n = lane * n + byte by rw [succ_mul]; omega, ih]
      rfl

lemma lookup_lane {value : List (Index t)} (full : value.length = t.lanes) {lane : Nat} {x : Index t}
    (at_lane : value[lane]? = some x) :
    vqtbl1q (value.flatMap bytesOf)
      ((List.range t.bytes).map fun byte => BitVec.ofNat 8 (lane * t.bytes + byte)) = bytesOf x := by
  have inside : lane < t.lanes := by
    rw [← full]
    exact (List.getElem?_eq_some_iff.mp at_lane).1
  apply ext_getElem?
  intro byte
  by_cases small : byte < t.bytes
  · have index : (lane * t.bytes + byte) % 2 ^ 8 = lane * t.bytes + byte := by
      have bound := Nat.mul_le_mul_right t.bytes inside
      rw [t.lanes_mul_bytes, succ_mul] at bound
      omega
    have found : (value.flatMap bytesOf)[lane * t.bytes + byte]? = (bytesOf x)[byte]? := by
      rw [getElem?_flatMap_bytesOf value small, at_lane, Option.bind_some]
    rw [vqtbl1q, map_map, getElem?_map, getElem?_range small, Option.map_some,
      Function.comp_apply, BitVec.toNat_ofNat, index, getD_eq_getElem?_getD, found, getElem?_bytesOf x small]
    rfl
  · rw [getElem?_eq_none (by simpa [vqtbl1q] using small), getElem?_eq_none (by simpa using small)]

lemma vqtbl1q_append (table first second : List (BitVec 8)) :
    vqtbl1q table (first ++ second) = vqtbl1q table first ++ vqtbl1q table second := map_append

lemma vqtbl1q_flatMap (table : List (BitVec 8)) (lanes : List Nat) (f : Nat -> List (BitVec 8)) :
    vqtbl1q table (lanes.flatMap f) = lanes.flatMap fun lane => vqtbl1q table (f lane) := map_flatMap

lemma vaddvq_weights {w : Nat} (removed : BitVec w -> Bool) (value : List (BitVec w)) (first : Nat)
    (a : BitVec w) :
    (List.zipWith (fun weight x => if removed x then 0 else weight)
      ((List.range' first value.length).map fun k => BitVec.ofNat w (2 ^ k)) value).foldl (· + ·) a =
      a + BitVec.ofNat w (2 ^ first * mask (value.map fun x => !removed x)) := by
  induction value generalizing first a with
  | nil => simp [mask]
  | cons x value ih =>
    rw [length_cons, range'_succ, map_cons, zipWith_cons_cons, foldl_cons, ih,
      map_cons, mask_cons, bit_val, BitVec.add_assoc]
    generalize mask (value.map fun x => !removed x) = rest
    cases removed x with
    | true =>
      have sum : 2 ^ first * (2 * rest + (!true).toNat) = 2 ^ (first + 1) * rest := by
        rw [Bool.not_true, Bool.toNat_false]
        ring
      rw [sum, if_pos rfl]
      exact congrArg (a + ·) (BitVec.zero_add _)
    | false =>
      have sum : 2 ^ first * (2 * rest + (!false).toNat) = 2 ^ first + 2 ^ (first + 1) * rest := by
        rw [Bool.not_false, Bool.toNat_true]
        ring
      rw [sum, BitVec.ofNat_add, if_neg Bool.false_ne_true]

lemma weights_eq : weights t = (List.range' 0 t.lanes).map fun k => BitVec.ofNat _ (2 ^ k) := by
  cases t <;> decide

section Kept

def kept (restart : Index t) (xs : List (Index t)) : List (Index t) := xs.filter fun x => x ≠ restart

variable {restart x : Index t}

lemma kept_cons_ne (other : x ≠ restart) (xs : List (Index t)) :
    kept restart (x :: xs) = x :: kept restart xs := filter_cons_of_pos (decide_eq_true other)

lemma kept_cons_eq (same : x = restart) (xs : List (Index t)) : kept restart (x :: xs) = kept restart xs :=
  filter_cons_of_neg (by simpa using same)

lemma kept_append (restart : Index t) (xs ys : List (Index t)) :
    kept restart (xs ++ ys) = kept restart xs ++ kept restart ys := filter_append xs ys

end Kept

section Block

variable {value : List (Index t)} (full : value.length = t.lanes) (restart : Index t)

def keptMask (restart : Index t) (value : List (Index t)) : Nat := mask (value.map fun x => decide (x ≠ restart))

include full

lemma mask_eq :
    (vaddvq (vbicq (weights t) (vceqq value (vdupq t.lanes restart)))).toNat = keptMask restart value := by
  have bits := vaddvq_weights (fun x => decide (x = restart)) value 0 (0 : Index t)
  have small : mask (value.map fun x => decide (x ≠ restart)) < 2 ^ (8 * t.bytes) := by
    refine (mask_lt _).trans_le (Nat.pow_le_pow_right (by decide) ?_)
    rw [length_map, full]
    cases t <;> decide
  have stay : vbicq (weights t) (vceqq value (vdupq t.lanes restart)) =
      List.zipWith (fun weight x => if decide (x = restart) then 0 else weight) (weights t) value := by
    rw [vceqq_vdupq full, vbicq, zipWith_map_right]
    congr 1
    funext weight x
    by_cases same : x = restart <;> simp [same]
  simp only [← decide_not] at bits
  rw [full, ← weights_eq, ← stay, ← vaddvq, pow_zero, one_mul] at bits
  rw [bits.trans (BitVec.zero_add _), BitVec.toNat_ofNat]
  exact mod_eq_of_lt small

lemma compressTable_eq : (compressTable t)[keptMask restart value]? = some (compressRow t.bytes t.lanes (keptMask restart value)) := by
  have small : keptMask restart value < 2 ^ t.lanes := by
    have below := mask_lt (value.map fun x => decide (x ≠ restart))
    rwa [length_map, full] at below
  have table : compressTable t = makeCompressTable t.bytes t.lanes := by cases t <;> rfl
  rw [table, makeCompressTable, getElem?_map, one_shiftLeft, getElem?_range small]
  rfl

lemma popcount_eq : popcount (keptMask restart value) = (kept restart value).length := by
  have fits : (value.map fun x => decide (x ≠ restart)).length ≤ 32 := by
    rw [length_map, full]
    cases t <;> decide
  rw [popcount, keptMask, countP_mask fits, List.count, countP_map, kept, ← countP_eq_length_filter]
  exact countP_congr fun x _ => by simp

lemma packed_eq :
    ∃ rest, words t.bytes t.lanes
      (vqtbl1q (value.flatMap bytesOf) (compressRow t.bytes t.lanes (keptMask restart value))) =
      kept restart value ++ rest := by
  have select : vqtbl1q (value.flatMap bytesOf) (chosen t.bytes t.lanes (keptMask restart value)) =
      (kept restart value).flatMap bytesOf := by
    rw [chosen, vqtbl1q_flatMap, ← full]
    refine flatMap_select value (fun i x at_lane => ?_) fun i x at_lane => lookup_lane full at_lane
    rw [keptMask, testBit_mask, getD_eq_getElem?_getD, getElem?_map, at_lane]
    rfl
  have few : (kept restart value).length ≤ t.lanes := full ▸ length_filter_le _ value
  obtain ⟨lanes, less⟩ := Nat.exists_eq_add_of_le few
  rw [compressRow_eq t.lanes_mul_bytes.le, row, vqtbl1q_append, select]
  generalize vqtbl1q (value.flatMap bytesOf) _ = tail
  have whole := words_flatMap (kept restart value) lanes tail
  rw [← less] at whole
  exact ⟨_, whole⟩

end Block

lemma compactTail_eq {dst : Dst t} {written : Nat} (restart : Index t) (b : Bounds t) (src : List (Index t))
    (room : written + src.length ≤ dst.length) :
    compactTail restart b dst written src =
      .ok ((kept restart (src.map byteSwap)).foldl Bounds.minMax b,
        written + (kept restart (src.map byteSwap)).length,
        overwrite dst written ((kept restart (src.map byteSwap)).map some)) := by
  induction src generalizing dst written b with
  | nil => simp [compactTail, kept]
  | cons word src ih =>
    rw [length_cons] at room
    rw [compactTail]
    split
    next other =>
      have size : (overwrite dst written [some (byteSwap word)]).length = dst.length :=
        length_overwrite (by simp only [length_singleton]; omega)
      have join := overwrite_append (show written ≤ dst.length by omega) [some (byteSwap word)]
        ((kept restart (src.map byteSwap)).map some)
      rw [store_overwrite (by omega)]
      refine (ih _ (by omega)).trans ?_
      rw [length_singleton] at join
      rw [join, map_cons, kept_cons_ne other, length_cons, add_assoc, add_comm 1]
      rfl
    next same =>
      refine (ih b (by omega)).trans ?_
      rw [map_cons, kept_cons_eq (not_not.mp same)]

lemma uploadSkipRestart_eq (restart : Index t) (b : Bounds t) (dst : Dst t) (written : Nat)
    (src : List (Index t)) :
    uploadSkipRestart restart b dst written (src.map byteSwap) = compactTail restart b dst written src := by
  induction src generalizing b dst written with
  | nil => rfl
  | cons word src ih =>
    simp only [map_cons, uploadSkipRestart, compactTail, ih]
    rfl

structure Compact.Inv (restart : Index t) (src : List (Index t)) (dst : Dst t) (i : Nat)
    (s : Compact t) : Prop where
  length : s.dst.length = dst.length
  stored : s.dst.take s.written = (kept restart ((src.take i).map byteSwap)).map some
  written : s.written = (kept restart ((src.take i).map byteSwap)).length
  minFull : s.min.length = t.lanes
  maxFull : s.max.length = t.lanes
  bounds : ⟨vminvq s.min, vmaxvq s.max⟩ =
    (kept restart ((src.take i).map byteSwap)).foldl Bounds.minMax .empty

section Loop

variable {src : List (Index t)} {dst : Dst t} {restart : Index t} {i : Nat} {s : Compact t}

lemma Compact.Inv.behind (inv : s.Inv restart src dst i) : s.written ≤ i := by
  rw [inv.written]
  refine (length_filter_le _ _).trans ?_
  rw [length_map, length_take]
  exact min_le_left _ _

lemma Compact.Inv.block (room : src.length ≤ dst.length) (inside : i + t.lanes ≤ src.length)
    (inv : s.Inv restart src dst i) :
    ∃ next, Compact.block restart src i s = .ok next ∧ next.Inv restart src dst (i + t.lanes) := by
  have full := length_blockAt inside
  have behind := inv.behind
  have split : kept restart ((src.take (i + t.lanes)).map byteSwap) =
      kept restart ((src.take i).map byteSwap) ++ kept restart (blockAt src i) := by
    rw [take_blockAt, kept_append]
  obtain ⟨rest, packed⟩ := packed_eq full restart
  have length := words_length (n := t.bytes) t.lanes
    (vqtbl1q ((blockAt src i).flatMap bytesOf) (compressRow t.bytes t.lanes (keptMask restart (blockAt src i))))
  rw [packed] at length
  have fits : s.written + ((kept restart (blockAt src i) ++ rest).map some).length ≤ s.dst.length := by
    rw [length_map, length, inv.length]
    omega
  refine ⟨⟨overwrite s.dst s.written ((kept restart (blockAt src i) ++ rest).map some),
    s.written + (kept restart (blockAt src i)).length,
    vminq s.min ((blockAt src i).map fun x => if x = restart then BitVec.allOnes _ else x),
    vmaxq s.max ((blockAt src i).map fun x => if x = restart then 0 else x)⟩, ?_, ?_, ?_, ?_, ?_, ?_, ?_⟩
  · rw [Compact.block, loadSwapped_ok inside]
    simp only [bind, Except.bind, mask_eq full, compressTable_eq full, popcount_eq full, packed]
    rw [vst1q_ok fits, vceqq_vdupq full, vorrq_mask, vbicq_mask]
  · exact (length_overwrite fits).trans inv.length
  · have taken := take_overwrite (show s.written ≤ s.dst.length by omega)
      ((kept restart (blockAt src i)).map some) (rest.map some)
    rw [length_map, inv.stored, ← map_append, ← map_append, ← split] at taken
    exact taken
  · rw [split, length_append, inv.written]
  · simp [vminq, inv.minFull, full]
  · simp [vmaxq, inv.maxFull, full]
  rw [split, foldl_append, ← inv.bounds]
  have block := bounds_block (fun x => decide (x = restart)) (inv.minFull.trans full.symm)
    (inv.maxFull.trans full.symm)
  simp only [decide_eq_true_eq, ← decide_not] at block
  exact block

lemma uploadSwappedNeonSkipRestart_eq (restart : Index t) (room : src.length ≤ dst.length) :
    ∃ vector, uploadSwappedNeonSkipRestart src dst restart =
        .ok ((kept restart (src.map byteSwap)).foldl Bounds.minMax .empty,
          (kept restart (src.map byteSwap)).length, vector) ∧
      vector.take (kept restart (src.map byteSwap)).length = (kept restart (src.map byteSwap)).map some := by
  have start : Compact.Inv restart src dst 0 ⟨dst, 0, vdupq t.lanes indexLimit, vdupq t.lanes 0⟩ :=
    ⟨rfl, rfl, rfl, length_replicate, length_replicate, bounds_start⟩
  obtain ⟨i, s, ran, inside, _, inv⟩ := forBlocks_ok t.lanes_pos
    (fun i s inside inv => Compact.Inv.block room inside inv) (sub_le _ _) (zero_le _) start
  have behind := inv.behind
  have size := inv.length
  have split : kept restart (src.map byteSwap) =
      kept restart ((src.take i).map byteSwap) ++ kept restart ((src.drop i).map byteSwap) := by
    rw [← kept_append, ← map_append, take_append_drop]
  have tail := compactTail_eq restart ⟨vminvq s.min, vmaxvq s.max⟩ (src.drop i)
    (show s.written + _ ≤ s.dst.length by rw [length_drop]; omega)
  refine ⟨overwrite s.dst s.written ((kept restart ((src.drop i).map byteSwap)).map some), ?_, ?_⟩
  · rw [uploadSwappedNeonSkipRestart, ran]
    refine tail.trans ?_
    rw [split, foldl_append, ← inv.bounds, length_append, inv.written]
  have taken := take_overwrite (show s.written ≤ s.dst.length by omega)
    ((kept restart ((src.drop i).map byteSwap)).map some) []
  rw [append_nil, length_map, inv.stored, ← map_append, ← split, inv.written,
    ← length_append, ← split] at taken
  rw [inv.written]
  exact taken

end Loop

end EmuCore.Rsx
