import EmuCore.Lib.Lanes
import EmuCore.Rsx.IndexBuffer

namespace EmuCore.Rsx

open Lanes List

def IndexType.lanes : IndexType -> Nat
  | .u16 => 8
  | .u32 => 4

section Neon

variable {α : Type} {w : Nat}

def vld1q (src : List α) (i lanes : Nat) : Except Fault (List α) :=
  if i + lanes ≤ src.length then .ok ((src.drop i).take lanes) else .error .outOfBounds

def vst1q (dst : List α) (i : Nat) (value : List α) : Except Fault (List α) :=
  if i + value.length ≤ dst.length then .ok (overwrite dst i value) else .error .outOfBounds

def vdupq (lanes : Nat) (x : α) : List α := replicate lanes x

def umin (x y : BitVec w) : BitVec w := if y < x then y else x

def umax (x y : BitVec w) : BitVec w := if y > x then y else x

def vminq : List (BitVec w) -> List (BitVec w) -> List (BitVec w) := zipWith umin

def vmaxq : List (BitVec w) -> List (BitVec w) -> List (BitVec w) := zipWith umax

def vceqq : List (BitVec w) -> List (BitVec w) -> List (BitVec w) :=
  zipWith fun x y => if x = y then BitVec.allOnes w else 0

def vorrq : List (BitVec w) -> List (BitVec w) -> List (BitVec w) := zipWith (· ||| ·)

def veorq : List (BitVec w) -> List (BitVec w) -> List (BitVec w) := zipWith (· ^^^ ·)

def vbicq : List (BitVec w) -> List (BitVec w) -> List (BitVec w) := zipWith fun x y => x &&& ~~~y

variable (xs : List (BitVec w))

def vminvq : BitVec w := xs.foldl umin (BitVec.allOnes w)

def vmaxvq : BitVec w := xs.foldl umax 0

def vaddvq : BitVec w := xs.foldl (· + ·) 0

-- An index beyond the table gives zero.
def vqtbl1q (table indices : List (BitVec 8)) : List (BitVec 8) :=
  indices.map fun index => table.getD index.toNat 0

def popcount (x : Nat) : Nat := (range 32).countP x.testBit

end Neon

variable {t : IndexType}

def loadSwapped (src : List (Index t)) (i : Nat) : Except Fault (List (Index t)) := do
  let raw ← vld1q src i t.lanes
  .ok (words t.bytes t.lanes (reverseWords t.bytes t.lanes (raw.flatMap bytesOf)))

structure Copy where
  dst : List (Index .u32)
  changed : List (Index .u32)

def Copy.block (compare : Bool) (src : List (Index .u32)) (i : Nat) (s : Copy) : Except Fault Copy := do
  let value ← loadSwapped src i
  let changed ←
    if compare then do
      let old ← vld1q s.dst i IndexType.u32.lanes
      .ok (vorrq s.changed (veorq value old))
    else .ok s.changed
  let dst ← vst1q s.dst i value
  .ok ⟨dst, changed⟩

def copyTail (compare : Bool) (dst : List (Index .u32)) (tailChanged : Index .u32) (i : Nat) :
    List (Index .u32) -> Except Fault (List (Index .u32) × Index .u32)
  | [] => .ok (dst, tailChanged)
  | word :: rest =>
    let value := byteSwap word
    match dst[i]? with
    | none => .error .outOfBounds
    | some old =>
      copyTail compare (dst.set i value) (if compare then tailChanged ||| (value ^^^ old) else tailChanged)
        (i + 1) rest

def copyDataSwapU32Neon (compare : Bool) (dst src : List (Index .u32)) :
    Except Fault (Option Bool × List (Index .u32)) := do
  let (i, s) ← forBlocks IndexType.u32.lanes src.length (Copy.block compare src) src.length 0
    ⟨dst, vdupq IndexType.u32.lanes 0⟩
  let (dst, tailChanged) ← copyTail compare s.dst 0 i (src.drop i)
  .ok (if compare then some (decide (vmaxvq s.changed ||| tailChanged ≠ 0)) else none, dst)

structure Upload (t : IndexType) where
  dst : Dst t
  min : List (Index t)
  max : List (Index t)

-- The restart index of the instance for primitive restart, or none.
def Upload.block (restart : Option (Index t)) (src : List (Index t)) (i : Nat) (s : Upload t) :
    Except Fault (Upload t) := do
  let value ← loadSwapped src i
  let (max, value) :=
    match restart with
    | some restart =>
      let mask := vceqq value (vdupq t.lanes restart)
      (vmaxq s.max (vbicq value mask), vorrq value mask)
    | none => (vmaxq s.max value, value)
  let min := vminq s.min value
  let dst ← vst1q s.dst i (value.map some)
  .ok ⟨dst, min, max⟩

def uploadTail (restart : Option (Index t)) (b : Bounds t) (dst : Dst t) (i : Nat) :
    List (Index t) -> Except Fault (Bounds t × Dst t)
  | [] => .ok (b, dst)
  | word :: rest => do
    let value := byteSwap word
    if restart = some value then
      let dst ← store dst i indexLimit
      uploadTail restart b dst (i + 1) rest
    else
      let dst ← store dst i value
      uploadTail restart ⟨umin b.min value, umax b.max value⟩ dst (i + 1) rest

def uploadUntouchedNeon (restart : Option (Index t)) (src : List (Index t)) (dst : Dst t) :
    Except Fault (Bounds t × Dst t) := do
  let (i, s) ← forBlocks t.lanes src.length (Upload.block restart src) src.length 0
    ⟨dst, vdupq t.lanes indexLimit, vdupq t.lanes 0⟩
  uploadTail restart ⟨vminvq s.min, vmaxvq s.max⟩ s.dst i (src.drop i)

def put (s : List (BitVec 8) × Nat) (value : BitVec 8) : List (BitVec 8) × Nat :=
  (s.1.set s.2 value, s.2 + 1)

def compressRow (bytes lanes mask : Nat) : List (BitVec 8) :=
  ((range lanes).foldl
    (fun s lane =>
      if mask &&& 1 <<< lane ≠ 0 then
        (range bytes).foldl (fun s byte => put s (BitVec.ofNat 8 (lane * bytes + byte))) s
      else s)
    (replicate 16 0xff, 0)).1

def makeCompressTable (bytes lanes : Nat) : List (List (BitVec 8)) :=
  (range (1 <<< lanes)).map (compressRow bytes lanes)

def compressTable : IndexType -> List (List (BitVec 8))
  | .u16 => makeCompressTable 2 8
  | .u32 => makeCompressTable 4 4

def weights : (t : IndexType) -> List (Index t)
  | .u16 => [1, 2, 4, 8, 16, 32, 64, 128]
  | .u32 => [1, 2, 4, 8]

structure Compact (t : IndexType) where
  dst : Dst t
  written : Nat
  min : List (Index t)
  max : List (Index t)

def Compact.block (restart : Index t) (src : List (Index t)) (i : Nat) (s : Compact t) :
    Except Fault (Compact t) := do
  let value ← loadSwapped src i
  let removed := vceqq value (vdupq t.lanes restart)
  let min := vminq s.min (vorrq value removed)
  let max := vmaxq s.max (vbicq value removed)
  let mask := (vaddvq (vbicq (weights t) removed)).toNat
  match (compressTable t)[mask]? with
  | none => .error .outOfBounds
  | some row =>
    let packed := vqtbl1q (value.flatMap bytesOf) row
    let dst ← vst1q s.dst s.written ((words t.bytes t.lanes packed).map some)
    .ok ⟨dst, s.written + popcount mask, min, max⟩

def compactTail (restart : Index t) (b : Bounds t) (dst : Dst t) (written : Nat) :
    List (Index t) -> Except Fault (Bounds t × Nat × Dst t)
  | [] => .ok (b, written, dst)
  | word :: rest => do
    let value := byteSwap word
    if value ≠ restart then
      let dst ← store dst written value
      compactTail restart ⟨umin b.min value, umax b.max value⟩ dst (written + 1) rest
    else compactTail restart b dst written rest

def uploadSwappedNeonSkipRestart (src : List (Index t)) (dst : Dst t) (restart : Index t) :
    Except Fault (Bounds t × Nat × Dst t) := do
  let (i, s) ← forBlocks t.lanes src.length (Compact.block restart src) src.length 0
    ⟨dst, 0, vdupq t.lanes indexLimit, vdupq t.lanes 0⟩
  compactTail restart ⟨vminvq s.min, vmaxvq s.max⟩ s.dst s.written (src.drop i)

open BitVec Nat

section Lanewise

variable {w : Nat}

lemma toNat_umin (x y : BitVec w) : (umin x y).toNat = min x.toNat y.toNat := by
  unfold umin
  split
  next less =>
    rw [lt_def] at less
    omega
  next notLess =>
    rw [lt_def] at notLess
    omega

lemma toNat_umax (x y : BitVec w) : (umax x y).toNat = max x.toNat y.toNat := by
  unfold umax
  split
  next more =>
    rw [gt_iff_lt, lt_def] at more
    omega
  next notMore =>
    rw [gt_iff_lt, lt_def] at notMore
    omega

lemma umin_reduces : Reduces (umin (w := w)) (allOnes w) where
  assoc x y z := eq_of_toNat_eq (by simp only [toNat_umin, min_assoc])
  comm x y := eq_of_toNat_eq (by simp only [toNat_umin, min_comm])
  right x := eq_of_toNat_eq (by
    have small := x.isLt
    rw [toNat_umin, toNat_allOnes]
    omega)

lemma umax_reduces : Reduces (umax (w := w)) 0 where
  assoc x y z := eq_of_toNat_eq (by simp only [toNat_umax, max_assoc])
  comm x y := eq_of_toNat_eq (by simp only [toNat_umax, max_comm])
  right x := eq_of_toNat_eq (by rw [toNat_umax]; exact max_zero _)

lemma vceqq_vdupq {value : List (BitVec w)} {lanes : Nat} (full : value.length = lanes) (x : BitVec w) :
    vceqq value (vdupq lanes x) = value.map fun y => if y = x then allOnes w else 0 := by
  subst full
  induction value with
  | nil => rfl
  | cons y value ih =>
    rw [map_cons, ← ih]
    rfl

lemma vorrq_mask (value : List (BitVec w)) (x : BitVec w) :
    vorrq value (value.map fun y => if y = x then allOnes w else 0) =
      value.map fun y => if y = x then allOnes w else y := by
  rw [vorrq, zipWith_map_right, zipWith_self]
  refine map_congr_left fun y _ => ?_
  split <;> simp

lemma vbicq_mask (value : List (BitVec w)) (x : BitVec w) :
    vbicq value (value.map fun y => if y = x then allOnes w else 0) =
      value.map fun y => if y = x then 0 else y := by
  rw [vbicq, zipWith_map_right, zipWith_self]
  refine map_congr_left fun y _ => ?_
  split <;> simp

end Lanewise

lemma IndexType.lanes_pos (t : IndexType) : 0 < t.lanes := by cases t <;> decide

lemma foldl_minMax (b : Bounds t) (xs : List (Index t)) :
    xs.foldl Bounds.minMax b = ⟨xs.foldl umin b.min, xs.foldl umax b.max⟩ := by
  induction xs generalizing b with
  | nil => rfl
  | cons x xs ih => exact ih _

lemma bounds_block (masked : Index t -> Bool) {min max value : List (Index t)}
    (minFull : min.length = value.length) (maxFull : max.length = value.length) :
    (⟨vminvq (vminq min (value.map fun x => if masked x then allOnes _ else x)),
        vmaxvq (vmaxq max (value.map fun x => if masked x then 0 else x))⟩ : Bounds t) =
      (value.filter fun x => !masked x).foldl Bounds.minMax ⟨vminvq min, vmaxvq max⟩ := by
  rw [foldl_minMax, vminvq, vminq, umin_reduces.foldl_zipWith _ _ (by simpa using minFull),
    umin_reduces.foldl_masked, vmaxvq, vmaxq, umax_reduces.foldl_zipWith _ _ (by simpa using maxFull),
    umax_reduces.foldl_masked]
  rfl

lemma bounds_start : (⟨vminvq (vdupq t.lanes indexLimit), vmaxvq (vdupq t.lanes 0)⟩ : Bounds t) = .empty := by
  cases t <;> decide

def blockAt (src : List (Index t)) (i : Nat) : List (Index t) := ((src.drop i).take t.lanes).map byteSwap

variable {i : Nat} {src : List (Index t)}

lemma length_blockAt (inside : i + t.lanes ≤ src.length) :
    (blockAt src i).length = t.lanes := by
  rw [blockAt, length_map, length_take, length_drop]
  omega

lemma take_blockAt (src : List (Index t)) (i : Nat) :
    (src.take (i + t.lanes)).map byteSwap = (src.take i).map byteSwap ++ blockAt src i := by
  rw [take_add, map_append, blockAt]

lemma loadSwapped_ok (inside : i + t.lanes ≤ src.length) :
    loadSwapped src i = .ok (blockAt src i) := by
  have full : ((src.drop i).take t.lanes).length = t.lanes := by
    rw [length_take, length_drop]
    omega
  have swapped := words_reverseWords ((src.drop i).take t.lanes)
  rw [full] at swapped
  rw [loadSwapped, vld1q, if_pos inside]
  exact congrArg Except.ok swapped

lemma vst1q_ok {α : Type} {dst value : List α} (room : i + value.length ≤ dst.length) :
    vst1q dst i value = .ok (overwrite dst i value) := if_pos room

lemma store_overwrite {dst : Dst t} (inside : i < dst.length) (value : Index t) :
    store dst i value = .ok (overwrite dst i [some value]) := by
  rw [store, if_pos inside, set_eq_overwrite inside]

section Untouched

variable (restart : Option (Index t))

def marked (x : Index t) : Bool := decide (restart = some x)

def mark (x : Index t) : Index t := if marked restart x then indexLimit else x

def unmarked (xs : List (Index t)) : List (Index t) := xs.filter fun x => !marked restart x

variable {restart}

lemma uploadTail_eq (restart : Option (Index t)) {dst : Dst t} (b : Bounds t) (src : List (Index t))
    (room : i + src.length ≤ dst.length) :
    uploadTail restart b dst i src =
      .ok ((unmarked restart (src.map byteSwap)).foldl Bounds.minMax b,
        overwrite dst i (((src.map byteSwap).map (mark restart)).map some)) := by
  induction src generalizing dst i b with
  | nil => simp [uploadTail, unmarked]
  | cons word src ih =>
    rw [length_cons] at room
    have next : ∀ value : Option (Index t), (i + 1) + src.length ≤ (overwrite dst i [value]).length := by
      intro value
      rw [length_overwrite (by simp only [length_singleton]; omega)]
      omega
    have join : ∀ value ys, overwrite (overwrite dst i [value]) (i + 1) ys = overwrite dst i (value :: ys) :=
      fun value ys => overwrite_append (by omega) [value] ys
    rw [uploadTail]
    split
    next same =>
      rw [store_overwrite (by omega)]
      refine (ih b (next _)).trans ?_
      rw [join]
      simp [unmarked, mark, marked, same]
    next other =>
      rw [store_overwrite (by omega)]
      refine (ih _ (next _)).trans ?_
      rw [join]
      simp [unmarked, mark, marked, other, Bounds.minMax, umin, umax]

lemma uploadUntouchedNaive_eq (b : Bounds t) (dst : Dst t) (i : Nat) (src : List (Index t)) :
    uploadUntouchedNaive b dst i (src.map byteSwap) = uploadTail none b dst i src := by
  induction src generalizing b dst i with
  | nil => rfl
  | cons word src ih =>
    simp only [map_cons, uploadUntouchedNaive, uploadTail, ih, reduceCtorEq, if_false]
    rfl

lemma uploadRestartNaive_eq (index : Index t) (b : Bounds t) (dst : Dst t) (i : Nat)
    (src : List (Index t)) :
    uploadRestartNaive index b dst i (src.map byteSwap) = uploadTail (some index) b dst i src := by
  induction src generalizing b dst i with
  | nil => rfl
  | cons word src ih =>
    simp only [map_cons, uploadRestartNaive, uploadTail, ih, Option.some.injEq, eq_comm]
    rfl

lemma Upload.block_ok {s : Upload t} (inside : i + t.lanes ≤ src.length) (room : i + t.lanes ≤ s.dst.length) :
    Upload.block restart src i s = .ok
      ⟨overwrite s.dst i (((blockAt src i).map (mark restart)).map some),
        vminq s.min ((blockAt src i).map (mark restart)),
        vmaxq s.max ((blockAt src i).map fun x => if marked restart x then 0 else x)⟩ := by
  have full := length_blockAt inside
  have stored : ∀ value : List (Index t), value.length = t.lanes ->
      vst1q s.dst i (value.map some) = .ok (overwrite s.dst i (value.map some)) := by
    intro value same
    exact vst1q_ok (by rwa [length_map, same])
  rw [Upload.block, loadSwapped_ok inside]
  generalize blockAt src i = value at full
  cases restart with
  | none =>
    have all : value.map (mark none) = value := map_id' value
    have none : (value.map fun x => if marked none x then 0 else x) = value := map_id' value
    rw [all, none]
    simp only [bind, Except.bind, stored value full]
  | some index =>
    have ones : (value.map fun y => if y = index then allOnes _ else y) = value.map (mark (some index)) :=
      map_congr_left fun y _ => by simp [mark, marked, indexLimit, eq_comm]
    have zeros : (value.map fun y => if y = index then 0 else y) =
        value.map fun x => if marked (some index) x then 0 else x :=
      map_congr_left fun y _ => by simp [marked, eq_comm]
    simp only [bind, Except.bind, vceqq_vdupq full, vorrq_mask, vbicq_mask]
    rw [ones, zeros, stored _ (by rw [length_map, full])]

structure Upload.Inv (restart : Option (Index t)) (src : List (Index t)) (dst : Dst t) (i : Nat)
    (s : Upload t) : Prop where
  stored : s.dst = overwrite dst 0 ((((src.take i).map byteSwap).map (mark restart)).map some)
  minFull : s.min.length = t.lanes
  maxFull : s.max.length = t.lanes
  bounds : ⟨vminvq s.min, vmaxvq s.max⟩ =
    (unmarked restart ((src.take i).map byteSwap)).foldl Bounds.minMax .empty

section Loop

variable {src : List (Index t)} {dst : Dst t} {i : Nat} {s : Upload t}

lemma length_stored (inside : i ≤ src.length) :
    ((((src.take i).map byteSwap).map (mark restart)).map some).length = i := by
  rw [length_map, length_map, length_map, length_take]
  omega

lemma Upload.Inv.length (inv : s.Inv restart src dst i) (inside : i ≤ src.length)
    (room : src.length ≤ dst.length) : s.dst.length = dst.length := by
  rw [inv.stored, length_overwrite]
  rw [length_stored inside]
  omega

lemma Upload.Inv.block (room : src.length ≤ dst.length) (inside : i + t.lanes ≤ src.length)
    (inv : s.Inv restart src dst i) :
    ∃ next, Upload.block restart src i s = .ok next ∧ next.Inv restart src dst (i + t.lanes) := by
  have full := length_blockAt inside
  have size := inv.length (by omega) room
  refine ⟨_, Upload.block_ok inside (by omega), ?_, ?_, ?_, ?_⟩
  · have joined := overwrite_append (zero_le dst.length)
      ((((src.take i).map byteSwap).map (mark restart)).map some)
      (((blockAt src i).map (mark restart)).map some)
    rw [← inv.stored, length_stored (by omega), zero_add] at joined
    rw [take_blockAt, map_append, map_append]
    exact joined
  · simp [vminq, inv.minFull, full]
  · simp [vmaxq, inv.maxFull, full]
  · rw [take_blockAt, unmarked, filter_append, foldl_append, ← unmarked, ← inv.bounds]
    exact bounds_block (marked restart) (inv.minFull.trans full.symm) (inv.maxFull.trans full.symm)

lemma uploadUntouchedNeon_eq (restart : Option (Index t)) (room : src.length ≤ dst.length) :
    uploadUntouchedNeon restart src dst = uploadTail restart .empty dst 0 src := by
  have start : Upload.Inv restart src dst 0 ⟨dst, vdupq t.lanes indexLimit, vdupq t.lanes 0⟩ :=
    ⟨overwrite_nil.symm, length_replicate, length_replicate, bounds_start⟩
  obtain ⟨i, s, ran, inside, _, inv⟩ := forBlocks_ok t.lanes_pos
    (fun i s inside inv => Upload.Inv.block room inside inv) (sub_le _ _) (zero_le _) start
  have size := inv.length inside room
  have split : src.take i ++ src.drop i = src := take_append_drop i src
  rw [uploadUntouchedNeon, ran]
  refine (uploadTail_eq _ _ _ (by rw [length_drop]; omega)).trans ?_
  rw [uploadTail_eq _ _ _ (by omega), inv.bounds, inv.stored, ← foldl_append]
  have joined := overwrite_append (zero_le dst.length)
    ((((src.take i).map byteSwap).map (mark restart)).map some)
    ((((src.drop i).map byteSwap).map (mark restart)).map some)
  rw [length_stored inside, zero_add, ← map_append, ← map_append, ← map_append,
    split] at joined
  rw [joined, unmarked, unmarked, ← filter_append, ← map_append, split, ← unmarked]

end Loop

end Untouched

end EmuCore.Rsx
