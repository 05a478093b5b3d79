import EmuCore.Rsx.IndexBuffer

namespace EmuCore.Rsx

open List

variable {t : IndexType}

def Filled (dst : Dst t) (count : Nat) : Prop := ∀ i < count, ∃ value, dst[i]? = some (some value)

lemma filled_zero (dst : Dst t) : Filled dst 0 := fun i before => absurd before (Nat.not_lt_zero i)

lemma store_ok {dst : Dst t} {i : Nat} (inside : i < dst.length) (value : Index t) :
    store dst i value = .ok (dst.set i (some value)) := if_pos inside

variable {count : Nat}

lemma Filled.set {dst : Dst t} (filled : Filled dst count) (inside : count < dst.length) (value : Index t) :
    Filled (dst.set count (some value)) (count + 1) := by
  intro i before
  by_cases last : i = count
  · subst last
    exact ⟨value, getElem?_set_self inside⟩
  · rw [getElem?_set_ne (Ne.symm last)]
    exact filled i (by omega)

lemma storeEach_ok {dst : Dst t} {i : Nat} (values : List (Index t))
    (room : i + values.length ≤ dst.length) (filled : Filled dst i) :
    ∃ next, storeEach dst i values = .ok next ∧ next.length = dst.length ∧
      Filled next (i + values.length) := by
  induction values generalizing dst i with
  | nil => exact ⟨dst, rfl, rfl, filled⟩
  | cons value rest ih =>
    rw [length_cons] at room
    have wide : i + 1 + rest.length ≤ (dst.set i (some value)).length := by
      rw [length_set]
      omega
    obtain ⟨next, stored, length, full⟩ := ih wide (filled.set (by omega) value)
    refine ⟨next, ?_, by rw [length, length_set], ?_⟩
    · rw [storeEach, store_ok (by omega)]
      exact stored
    · rw [length_cons, show i + (rest.length + 1) = i + 1 + rest.length by omega]
      exact full

structure Fan.Ok (size count : Nat) (s : Fan t) : Prop where
  length : s.dst.length = size
  filled : Filled s.dst s.dstIdx
  few : s.dstIdx ≤ 3 * (count - 2)
  anchored : s.needsAnchor = false -> 1 ≤ count
  started : s.last ≠ indexLimit -> 2 ≤ count

variable {size : Nat}

lemma Fan.Ok.step {s : Fan t} (ok : s.Ok size count) (enabled : Bool) (restart : BitVec 32) (index : Index t)
    (room : 3 * (count + 1 - 2) ≤ size) :
    ∃ next, s.step enabled restart index = .ok next ∧ next.Ok size (count + 1) := by
  obtain ⟨length, filled, few, anchored, started⟩ := ok
  unfold Fan.step
  split
  next =>
    split
    next => exact ⟨s, rfl, length, filled, by omega, fun _ => by omega, fun old => by
      have := started old
      omega⟩
    next => exact ⟨_, rfl, length, filled, by dsimp only; omega, fun _ => by omega, fun old => by
      have := started old
      omega⟩
  next placed =>
    split
    next => exact ⟨_, rfl, length, filled, by dsimp only; omega, fun _ => by omega, fun same => absurd rfl same⟩
    have one := anchored (by simpa using placed)
    split
    next => exact ⟨_, rfl, length, filled, by dsimp only; omega, fun _ => by omega, fun _ => by omega⟩
    next drawn =>
      have two := started drawn
      obtain ⟨dst, stored, same, full⟩ :=
        storeEach_ok [s.anchor, s.last, index] (show s.dstIdx + 3 ≤ _ by omega) filled
      rw [stored]
      exact ⟨_, rfl, by rw [same, length], full, by dsimp only; omega, fun _ => by omega,
        fun _ => by omega⟩

lemma foldlM_ok {σ : Type} {step : σ -> Index t -> Except Fault σ} {Ok : Nat -> σ -> Prop} {bound : Nat}
    (each : ∀ s count index, Ok count s -> count < bound -> ∃ next, step s index = .ok next ∧ Ok (count + 1) next)
    {s : σ} (ok : Ok count s) (src : List (Index t)) (room : count + src.length ≤ bound) :
    ∃ last, src.foldlM step s = .ok last ∧ Ok (count + src.length) last := by
  induction src generalizing s count with
  | nil => exact ⟨s, rfl, ok⟩
  | cons index rest ih =>
    rw [length_cons] at room
    obtain ⟨next, stepped, after⟩ := each s count index ok (by omega)
    obtain ⟨last, ran, done⟩ := ih after (by omega)
    refine ⟨last, ?_, ?_⟩
    · rw [foldlM_cons, stepped]
      exact ran
    · rwa [length_cons, show count + (rest.length + 1) = count + 1 + rest.length by omega]

structure Quads.Ok (size count : Nat) (s : Quads t) : Prop where
  length : s.dst.length = size
  filled : Filled s.dst s.dstIdx
  few : 4 * s.dstIdx + 6 * s.tmp.length ≤ 6 * count

lemma Quads.Ok.step {s : Quads t} (ok : s.Ok size count) (enabled : Bool) (restart : BitVec 32) (index : Index t)
    (room : 6 * (count + 1) ≤ 4 * size) :
    ∃ next, s.step enabled restart index = .ok next ∧ next.Ok size (count + 1) := by
  obtain ⟨length, filled, few⟩ := ok
  unfold Quads.step
  split
  next => exact ⟨_, rfl, length, filled, by simp only [length_nil]; omega⟩
  dsimp only
  split
  next a b c d four =>
    have three : (s.tmp ++ [index]).length = 4 := by rw [four]; rfl
    rw [length_append, length_singleton] at three
    obtain ⟨dst, stored, same, full⟩ :=
      storeEach_ok [a, b, c, c, d, a] (show s.dstIdx + 6 ≤ _ by omega) filled
    rw [stored]
    exact ⟨_, rfl, by rw [same, length], full, by simp only [length_nil]; omega⟩
  next =>
    refine ⟨_, rfl, length, filled, ?_⟩
    dsimp only
    rw [length_append, length_singleton]
    omega

def allocated (t : IndexType) (mode : Primitive) (count : Nat) : Dst t :=
  List.replicate (getIndexCount mode count) none

def Written (mode : Primitive) (src : List (Index t)) (enabled : Bool) (restart : BitVec 32)
    (expands : Primitive -> Bool) : Prop :=
  ∃ b count dst,
    writeIndexArrayDataToBuffer (allocated t mode src.length) src mode enabled restart expands =
      .ok (b, count, dst) ∧
    dst.length = getIndexCount mode src.length ∧ count ≤ dst.length ∧ Filled dst count ∧
    (mode = .lineLoop -> dst = (src ++ src.head?.toList).map some)

def Fits : Primitive -> Nat -> Prop
  | .polygon, count | .triangleFan, count => 2 ≤ count ∧ 3 * (count - 2) < 2 ^ 32
  | .quads, count => count % 2 = 0 ∧ 6 * count < 2 ^ 32
  | _, _ => False

variable {expands : Primitive -> Bool}

section Expand

variable {src : List (Index t)} {dst : Dst t} {enabled : Bool} {restart : BitVec 32}

lemma fan_ok (large : 2 ≤ src.length) (small : src.length < 2 ^ 32)
    (room : 3 * (src.length - 2) ≤ dst.length) :
    ∃ b count next, expandIndexedTriangleFan src dst enabled restart = .ok (b, count, next) ∧
      next.length = dst.length ∧ count ≤ next.length ∧ Filled next count := by
  have start : Fan.Ok dst.length 0 ⟨dst, 0, true, indexLimit, indexLimit, .empty⟩ :=
    ⟨rfl, filled_zero dst, le_rfl, fun same => absurd same.symm Bool.false_ne_true, fun same => absurd rfl same⟩
  obtain ⟨last, ran, ok⟩ := foldlM_ok (fun s count index ok before => ok.step enabled restart index (by omega)) start src
    (Nat.zero_add _).le
  rw [Nat.zero_add] at ok
  refine ⟨last.bounds, last.dstIdx, last.dst, ?_, ok.length, ?_, ok.filled⟩
  · rw [expandIndexedTriangleFan, if_pos (by omega), ran]
    rfl
  · have few := ok.few
    rw [ok.length]
    omega

lemma fan_ensure (wraps : dst.length < 3 * ((src.length + (2 ^ 64 - 2)) % 2 ^ 64) % 2 ^ 64) :
    expandIndexedTriangleFan src dst enabled restart = .error .ensure := by
  rw [expandIndexedTriangleFan, if_neg (by omega)]

lemma quads_ok (room : 6 * src.length ≤ 4 * dst.length) :
    ∃ b count next, expandIndexedQuads src dst enabled restart = .ok (b, count, next) ∧
      next.length = dst.length ∧ count ≤ next.length ∧ Filled next count := by
  have start : Quads.Ok dst.length 0 ⟨dst, 0, [], .empty⟩ := ⟨rfl, filled_zero dst, le_rfl⟩
  obtain ⟨last, ran, ok⟩ := foldlM_ok (fun s count index ok before => ok.step enabled restart index (by omega)) start src
    (Nat.zero_add _).le
  rw [Nat.zero_add] at ok
  have bytes : 6 * (src.length * t.bytes) ≤ 4 * (dst.length * t.bytes) := by
    rw [← mul_assoc, ← mul_assoc]
    exact Nat.mul_le_mul_right _ room
  refine ⟨last.bounds, last.dstIdx, last.dst, ?_, ok.length, ?_, ok.filled⟩
  · rw [expandIndexedQuads, if_pos bytes, ran]
    rfl
  · have few := ok.few
    rw [ok.length]
    omega

lemma quads_ensure (short : 4 * dst.length < 6 * src.length) :
    expandIndexedQuads src dst enabled restart = .error .ensure := by
  have positive : 0 < t.bytes := by cases t <;> decide
  have bytes : 4 * (dst.length * t.bytes) < 6 * (src.length * t.bytes) := by
    rw [← mul_assoc, ← mul_assoc]
    exact Nat.mul_lt_mul_of_pos_right short positive
  rw [expandIndexedQuads, if_neg (by omega)]

-- The closing index goes behind the last element.
lemma lineLoop_fails (expanded : expands .lineLoop = true) (result : Bounds t × Nat × Dst t) :
    writeIndexArrayDataToBuffer dst src .lineLoop enabled restart expands ≠ .ok result := by
  simp only [writeIndexArrayDataToBuffer, expanded, not_true_eq_false, if_false]
  cases uploadUntouched src dst .lineLoop enabled restart with
  | error fault => exact fun same => by cases same
  | ok uploaded =>
    cases src with
    | nil => exact fun same => by cases same
    | cons first rest =>
      have beyond : store uploaded.2.2 uploaded.2.2.length first = .error .outOfBounds :=
        if_neg (lt_irrefl _)
      simp only [bind, Except.bind, beyond]
      exact fun same => by cases same

end Expand

section Sizes

variable {src : List (Index t)} {mode : Primitive} {enabled : Bool} {restart : BitVec 32}

lemma written_of_ok {expand : Except Fault (Bounds t × Nat × Dst t)}
    (runs : writeIndexArrayDataToBuffer (allocated t mode src.length) src mode enabled restart expands =
      expand) (other : mode ≠ .lineLoop)
    (ok : ∃ b count next, expand = .ok (b, count, next) ∧
      next.length = (allocated t mode src.length).length ∧ count ≤ next.length ∧ Filled next count) :
    Written mode src enabled restart expands := by
  obtain ⟨b, count, next, done, length, few, filled⟩ := ok
  refine ⟨b, count, next, runs.trans done, ?_, few, filled, fun loop => absurd loop other⟩
  rw [length, allocated, length_replicate]

lemma not_written {fault : Fault}
    (runs : writeIndexArrayDataToBuffer (allocated t mode src.length) src mode enabled restart expands = .error fault) :
    ¬Written mode src enabled restart expands := by
  rintro ⟨b, count, next, done, _⟩
  rw [runs] at done
  cases done

-- The allocation multiplies in 32 bits, and its subtraction wraps below two as well.
def fanSize (count : Nat) : Nat := (count + (2 ^ 32 - 2)) % 2 ^ 32 * 3 % 2 ^ 32

lemma fanSize_exact {n : Nat} (large : 2 ≤ n) (fits : 3 * (n - 2) < 2 ^ 32) :
    fanSize n = 3 * (n - 2) := by
  have less : (n + (2 ^ 32 - 2)) % 2 ^ 32 = n - 2 := by omega
  rw [fanSize, less, mul_comm]
  exact Nat.mod_eq_of_lt fits

lemma fanSize_short {n : Nat} (small : n < 2 ^ 32) (misfit : ¬(2 ≤ n ∧ 3 * (n - 2) < 2 ^ 32)) :
    fanSize n < 3 * ((n + (2 ^ 64 - 2)) % 2 ^ 64) % 2 ^ 64 := by
  rcases (by omega : n = 0 ∨ n = 1 ∨ 2 ≤ n) with rfl | rfl | large
  · decide
  · decide
  have big : 2 ^ 32 ≤ 3 * (n - 2) := by omega
  have wide : 3 * ((n + (2 ^ 64 - 2)) % 2 ^ 64) % 2 ^ 64 = 3 * (n - 2) := by omega
  rw [wide]
  exact (Nat.mod_lt _ (by norm_num)).trans_le big

variable (fan : mode = .polygon ∨ mode = .triangleFan)

include fan

lemma allocated_fan (count : Nat) :
    (allocated t mode count).length = fanSize count := by
  rw [allocated, length_replicate]
  rcases fan with rfl | rfl <;>
    simp only [getIndexCount, isPrimitiveNative, fanSize, Bool.false_eq_true, if_false]

lemma fan_fails (small : src.length < 2 ^ 32)
    (misfit : ¬(2 ≤ src.length ∧ 3 * (src.length - 2) < 2 ^ 32)) :
    expandIndexedTriangleFan src (allocated t mode src.length) enabled restart = .error .ensure := by
  apply fan_ensure
  rw [allocated_fan fan]
  exact fanSize_short small misfit

lemma fan_sizing
    (runs : writeIndexArrayDataToBuffer (allocated t mode src.length) src mode enabled restart expands =
      expandIndexedTriangleFan src (allocated t mode src.length) enabled restart)
    (small : src.length < 2 ^ 32) :
    Written mode src enabled restart expands ↔ 2 ≤ src.length ∧ 3 * (src.length - 2) < 2 ^ 32 := by
  constructor
  · intro written
    by_contra misfit
    exact not_written (runs.trans (fan_fails fan small misfit)) written
  · rintro ⟨large, fits⟩
    refine written_of_ok runs (by rcases fan with rfl | rfl <;> decide) (fan_ok large small ?_)
    rw [allocated_fan fan, fanSize_exact large fits]

omit fan

lemma quads_sizing
    (runs : writeIndexArrayDataToBuffer (allocated t .quads src.length) src .quads enabled restart expands =
      expandIndexedQuads src (allocated t .quads src.length) enabled restart)
    (small : src.length < 2 ^ 32) :
    Written .quads src enabled restart expands ↔ src.length % 2 = 0 ∧ 6 * src.length < 2 ^ 32 := by
  have size : (allocated t .quads src.length).length = 6 * src.length % 2 ^ 32 / 4 := by
    rw [allocated, length_replicate]
    simp only [getIndexCount, isPrimitiveNative, Bool.false_eq_true, if_false]
  constructor
  · intro written
    by_contra misfit
    refine not_written (runs.trans (quads_ensure ?_)) written
    omega
  · rintro ⟨even, fits⟩
    refine written_of_ok runs (by decide) (quads_ok ?_)
    omega

end Sizes

theorem index_sizing_iff (mode : Primitive) (src : List (Index t)) (enabled : Bool) (restart : BitVec 32)
    (expands : Primitive -> Bool) (notNative : isPrimitiveNative mode = false)
    (expanded : expands mode = true) (small : src.length < 2 ^ 32) :
    Written mode src enabled restart expands ↔ Fits mode src.length := by
  cases mode with
  | lineLoop =>
    refine ⟨?_, False.elim⟩
    rintro ⟨b, count, next, done, _⟩
    exact lineLoop_fails expanded _ done
  | polygon =>
    refine fan_sizing (.inl rfl) ?_ small
    simp only [writeIndexArrayDataToBuffer, expanded, not_true_eq_false, if_false]
  | triangleFan =>
    refine fan_sizing (.inr rfl) ?_ small
    simp only [writeIndexArrayDataToBuffer, expanded, not_true_eq_false, if_false]
  | quads =>
    refine quads_sizing ?_ small
    simp only [writeIndexArrayDataToBuffer, expanded, not_true_eq_false, if_false]
  | points | lines | lineStrip | triangles | triangleStrip | quadStrip => cases notNative

theorem index_sizing_iff_six :
    Written .quads (t := .u16) [0, 1, 2, 3, 4, 5] true 0xffff fun mode => !isPrimitiveNative mode :=
  (index_sizing_iff .quads _ _ _ _ rfl rfl (by decide)).mpr (by unfold Fits; decide)

-- The closing index of a line loop is out of bounds; the other sizes trip the check of the writer.
theorem index_sizing_fails :
    writeIndexArrayDataToBuffer (allocated .u16 .lineLoop 3) [7, 8, 9] .lineLoop false 0
      (fun mode => !isPrimitiveNative mode) = .error .outOfBounds ∧
    writeIndexArrayDataToBuffer (allocated .u16 .quads 5) [0, 1, 2, 3, 4] .quads false 0
      (fun mode => !isPrimitiveNative mode) = .error .ensure ∧
    writeIndexArrayDataToBuffer (allocated .u32 .triangleFan 1) [0] .triangleFan false 0
      (fun mode => !isPrimitiveNative mode) = .error .ensure := by
  refine ⟨by decide, by decide, ?_⟩
  simp only [writeIndexArrayDataToBuffer, isPrimitiveNative, Bool.not_false, not_true_eq_false, if_false]
  exact fan_fails (.inr rfl) (by decide) (by decide)

end EmuCore.Rsx
