import EmuCore.Rsx.IndexSizing
import Mathlib.Data.List.TakeWhile

namespace EmuCore.Rsx

open List BitVec Except

section Strip

variable {α : Type} [DecidableEq α]

-- A triangle of a strip as it is oriented, unless two of its corners are the same.
def face (i : Nat) (a b c : α) : List (α × α × α) :=
  if a = b ∨ b = c ∨ a = c then [] else if i % 2 = 1 then [(b, a, c)] else [(a, b, c)]

def firstFace (i : Nat) (a : α) : List α -> List (α × α × α)
  | b :: c :: _ => face i a b c
  | _ => []

def faces (i : Nat) : List α -> List (α × α × α)
  | [] => []
  | a :: rest => firstFace i a rest ++ faces (i + 1) rest

-- A second time to fix the winding of the faces.
def duplicateLast (dst : List α) (last : α) : List α :=
  let dst := dst ++ [last]
  if dst.length % 2 = 0 then dst ++ [last] else dst

-- `dst` is what was written so far, and `dst_index` its length.
def removeRestartLoop (restart : α) (dst : List α) (last : α) : List α -> List α
  | [] => dst
  | index :: rest =>
    if index = restart then
      match _skipped : rest.dropWhile (· = restart) with
      | [] => dst
      | next :: more =>
        removeRestartLoop restart (duplicateLast dst last ++ [next]) next (next :: more)
    else removeRestartLoop restart (dst ++ [index]) index rest
termination_by src => src.length
decreasing_by
  · rw [← _skipped]
    exact Nat.lt_succ_of_le (length_dropWhile_le _ rest)
  · exact Nat.lt_succ_self _

def removeRestartIndex [Zero α] (src : List α) (restart : α) : List α := removeRestartLoop restart [] 0 src

lemma faces_add_two (i : Nat) (l : List α) : faces (i + 2) l = faces i l := by
  induction l generalizing i with
  | nil => rfl
  | cons a rest ih =>
    have same : firstFace (i + 2) a rest = firstFace i a rest := by
      unfold firstFace
      split <;> simp [face]
    rw [faces, faces, same, ih (i + 1)]

-- A strip with a corner twice in a row falls into two.
lemma faces_twice (i : Nat) (before after : List α) (a : α) :
    faces i (before ++ a :: a :: after) = faces i (before ++ [a]) ++ faces (i + before.length + 1) (a :: after) := by
  induction before generalizing i with
  | nil => cases after <;> simp [faces, firstFace, face]
  | cons x before ih =>
    have same : firstFace i x (before ++ a :: a :: after) = firstFace i x (before ++ [a]) := by
      match before with
      | [] => simp [firstFace, face]
      | [y] => rfl
      | y :: z :: more => rfl
    have place : i + 1 + before.length + 1 = i + (before.length + 1) + 1 := by omega
    simp [faces, ih, same, place]

lemma faces_even {i : Nat} (even : i % 2 = 0) (l : List α) : faces i l = faces 0 l := by
  obtain ⟨half, rfl⟩ : ∃ half, i = 2 * half := ⟨i / 2, by omega⟩
  induction half with
  | zero => rfl
  | succ half ih => rw [Nat.mul_succ, faces_add_two, ih (by omega)]

lemma faces_bridge {i : Nat} (even : i % 2 = 0) (last next : α) (more : List α) :
    faces i (last :: next :: next :: more) = faces 0 (next :: more) := by
  have split := faces_twice i [last] more next
  rw [faces_even (by simp only [length_singleton]; omega) (next :: more)] at split
  simpa [faces, firstFace] using split

lemma faces_restart {dst : List α} {last : α} (ends : dst = [] ∨ dst.getLast? = some last) (next : α)
    (more : List α) :
    faces 0 (duplicateLast dst last ++ [next] ++ next :: more) = faces 0 dst ++ faces 0 (next :: more) := by
  rcases ends with rfl | ends
  · exact faces_bridge rfl last next more
  obtain ⟨before, rfl⟩ := getLast?_eq_some_iff.mp ends
  simp only [duplicateLast, length_append, length_singleton]
  split
  next odd =>
    have first := faces_twice 0 before (last :: next :: next :: more) last
    have second := faces_twice (before.length + 1) [] (next :: next :: more) last
    have third := faces_bridge odd last next more
    simp only [nil_append, length_nil, add_zero, zero_add] at first second
    rw [second, third] at first
    simpa [faces, firstFace] using first
  next even =>
    have first := faces_twice 0 before (next :: next :: more) last
    rw [faces_bridge (by omega)] at first
    simpa using first

lemma flatMap_faces_dropWhile (restart : α) (src : List α) :
    (src.splitOnP (· = restart)).flatMap (faces 0) =
      ((src.dropWhile (· = restart)).splitOnP (· = restart)).flatMap (faces 0) := by
  induction src with
  | nil => rfl
  | cons index rest ih =>
    by_cases same : index = restart
    · simp [splitOnP_cons_eq_if_modifyHead, same, ih, faces]
    · simp [same]

lemma dropWhile_fresh {restart next : α} {src more : List α} (skipped : src.dropWhile (· = restart) = next :: more) :
    next ≠ restart := by
  have stopped := head?_dropWhile_not (· = restart) src
  simpa [skipped] using stopped

omit [DecidableEq α] in
lemma duplicateLast_cases (dst : List α) (last : α) :
    duplicateLast dst last = dst ++ [last, last] ∨ duplicateLast dst last = dst ++ [last] := by
  simp only [duplicateLast]
  split <;> simp

omit [DecidableEq α] in
lemma modifyHead_nil_append (runs : List (List α)) : runs.modifyHead ([] ++ ·) = runs := by cases runs <;> rfl

def GoesOn (restart : α) (src dst run : List α) (drawn : List (α × α × α)) : Prop :=
  ∀ more : List α, (∀ x ∈ src.head?, x ≠ restart -> more.head? = some x) ->
    faces 0 (dst ++ more) = drawn ++ faces 0 (run ++ more)

lemma removeRestartLoop_faces (restart last : α) (src dst run : List α) (drawn : List (α × α × α))
    (goesOn : GoesOn restart src dst run drawn) (ends : dst = [] ∨ dst.getLast? = some last) :
    faces 0 (removeRestartLoop restart dst last src) =
      drawn ++ ((src.splitOnP (· = restart)).modifyHead (run ++ ·)).flatMap (faces 0) := by
  fun_induction removeRestartLoop restart dst last src generalizing run drawn with
  | case1 dst last => simpa using goesOn [] (by simp)
  | case2 dst last rest skipped =>
    have now := goesOn [] (by simp)
    have none := flatMap_faces_dropWhile restart rest
    rw [skipped] at none
    simp_all [splitOnP_cons_eq_if_modifyHead, faces]
  | case3 dst last rest next more skipped ih =>
    have now := goesOn [] (by simp)
    have later := flatMap_faces_dropWhile restart rest
    rw [skipped] at later
    rw [ih [] (drawn ++ faces 0 run) ?_ (.inr (by simp)), modifyHead_nil_append, ← later]
    · simp [splitOnP_cons_eq_if_modifyHead]
    intro tail follows
    obtain ⟨tail, rfl⟩ := head?_eq_some_iff.mp (follows next rfl (dropWhile_fresh skipped))
    rw [faces_restart ends]
    simp_all
  | case4 dst last index rest other ih =>
    rw [ih (run ++ [index]) drawn ?_ (.inr (by simp))]
    · simp [splitOnP_cons_eq_if_modifyHead, other, Function.comp_def]
    · intro tail _
      simpa using goesOn (index :: tail) (by simp)

lemma removeRestartLoop_clean (restart last : α) (src dst : List α) (clean : restart ∉ dst)
    (other : src.head? = some restart -> last ≠ restart) : restart ∉ removeRestartLoop restart dst last src := by
  fun_induction removeRestartLoop restart dst last src with
  | case1 | case2 => exact clean
  | case3 dst last rest next more skipped ih =>
    have fresh := dropWhile_fresh skipped
    have differs := other rfl
    refine ih ?_ fun _ => fresh
    rcases duplicateLast_cases dst last with same | same <;> simp [same, clean, fresh.symm, differs.symm]
  | case4 dst last index rest differs ih => exact ih (by simp [clean, Ne.symm differs]) fun _ => differs

lemma removeRestartLoop_length (restart last : α) (src dst : List α) :
    (removeRestartLoop restart dst last src).length + (if src.head?.any (· ≠ restart) then 1 else 0) ≤
      dst.length + 2 * src.length := by
  fun_induction removeRestartLoop restart dst last src with
  | case1 | case2 => simp
  | case3 dst last rest next more skipped ih =>
    have shorter := length_dropWhile_le (· = restart) rest
    rw [skipped] at shorter
    rcases duplicateLast_cases dst last with same | same <;> simp [same, dropWhile_fresh skipped] at shorter ih ⊢ <;> omega
  | case4 dst last index rest differs ih =>
    simp [differs] at ih ⊢
    omega

theorem remove_restart_index_strip [Zero α] (src : List α) (restart : α) :
    let dst := removeRestartIndex src restart
    faces 0 dst = (src.splitOnP (· = restart)).flatMap (faces 0) ∧
      (restart ∈ dst -> restart = 0 ∧ src.head? = some restart) ∧ dst.length ≤ 2 * src.length := by
  refine ⟨?_, fun present => ?_, ?_⟩
  · have drawn := removeRestartLoop_faces restart 0 src [] [] [] (fun _ _ => rfl) (.inl rfl)
    rwa [modifyHead_nil_append] at drawn
  · by_contra other
    refine removeRestartLoop_clean restart 0 src [] (by simp) (fun first zero => ?_) present
    exact other ⟨zero.symm, first⟩
  · have length := removeRestartLoop_length restart 0 src []
    simp only [removeRestartIndex]
    simp at length
    omega

end Strip

section Fan

variable {t : IndexType} {enabled : Bool} {restart : BitVec 32}

def fanTriangles : List (Index t) -> List (Index t × Index t × Index t)
  | [] => []
  | anchor :: outer => (outer.zip outer.tail).map (Prod.mk anchor)

def corners (triangle : Index t × Index t × Index t) : List (Index t) := [triangle.1, triangle.2.1, triangle.2.2]

def fansOf (enabled : Bool) (restart : BitVec 32) (src : List (Index t)) : List (Index t × Index t × Index t) :=
  (src.splitOnP (isRestart enabled restart)).flatMap fanTriangles

def drawable (enabled : Bool) (restart : BitVec 32) (src : List (Index t)) : List (Index t) :=
  src.filter fun index => !isRestart enabled restart index

def Bounds.Spans (b : Bounds t) (indices : List (Index t)) : Prop :=
  (∀ index ∈ indices, b.min ≤ index ∧ index ≤ b.max) ∧ (indices ≠ [] -> b.min ∈ indices ∧ b.max ∈ indices)

section

variable {b : Bounds t} {seen : List (Index t)} (spans : b.Spans seen) (some : seen ≠ [])

include spans some

lemma Bounds.Spans.minMax
    (index : Index t) : (b.minMax index).Spans (seen ++ [index]) := by
  obtain ⟨low, high⟩ := spans.2 some
  simp only [Spans, Bounds.minMax]
  grind [Spans]

lemma Bounds.Spans.foldl
    (indices : List (Index t)) : (indices.foldl Bounds.minMax b).Spans (seen ++ indices) := by
  induction indices generalizing b seen with
  | nil => simpa using spans
  | cons index rest ih => simpa using ih (spans.minMax some index) (by simp)

end

lemma minMax_empty (index : Index t) : Bounds.empty.minMax index = ⟨index, index⟩ := by
  have top : index.toNat ≤ 2 ^ (8 * t.bytes) - 1 := Nat.le_sub_one_of_lt index.isLt
  have limit : (indexLimit : Index t).toNat = 2 ^ (8 * t.bytes) - 1 := toNat_allOnes
  have zero : (0 : Index t).toNat = 0 := toNat_zero
  simp only [Bounds.empty, Bounds.minMax, lt_def, gt_iff_lt, Bounds.mk.injEq, ← toNat_inj]
  constructor <;> split <;> omega

lemma minMax_spans (indices : List (Index t)) : (indices.foldl Bounds.minMax .empty).Spans indices := by
  cases indices with
  | nil => simp [Bounds.Spans]
  | cons index rest =>
    rw [foldl_cons, minMax_empty]
    have first : (⟨index, index⟩ : Bounds t).Spans [index] := by simp [Bounds.Spans]
    exact first.foldl (by simp) rest

lemma storeEach_take {dst next : Dst t} {i : Nat} {values : List (Index t)} (stored : storeEach dst i values = .ok next) :
    next.take (i + values.length) = dst.take i ++ values.map some := by
  induction values generalizing dst i with
  | nil =>
    cases stored
    simp
  | cons value rest ih =>
    rw [storeEach, store] at stored
    split at stored
    next inside =>
      have later := ih stored
      rw [take_add_one, take_set_of_le le_rfl, getElem?_set_self inside] at later
      simpa [add_assoc, add_comm rest.length] using later
    next => cases stored

-- What is drawn with the outer indices, when an edge that starts with the limit counts as none.
def drawnFrom (anchor last : Index t) (outer : List (Index t)) : List (Index t × Index t × Index t) :=
  (((last :: outer).zip outer).filter (·.1 ≠ indexLimit)).map (Prod.mk anchor)

def drawnRun : List (Index t) -> List (Index t × Index t × Index t)
  | [] => []
  | anchor :: outer => drawnFrom anchor indexLimit outer

def Fan.drawn (s : Fan t) : List (List (Index t)) -> List (Index t × Index t × Index t)
  | [] => []
  | run :: runs => (if s.needsAnchor then drawnRun run else drawnFrom s.anchor s.last run) ++ runs.flatMap drawnRun

lemma drawnRun_eq (run : List (Index t)) : drawnRun run = (fanTriangles run).filter (·.2.1 ≠ indexLimit) := by
  match run with
  | [] | [_] => rfl
  | anchor :: first :: outer => simp [drawnRun, drawnFrom, fanTriangles, filter_map, Function.comp_def]

lemma Fan.fold_drawn {src : List (Index t)} {s last : Fan t} {values : List (Index t)}
    (ran : src.foldlM (Fan.step enabled restart) s = .ok last)
    (written : s.dst.take s.dstIdx = values.map some) (fresh : s.needsAnchor = true -> s.last = indexLimit) :
    last.dst.take last.dstIdx =
        (values ++ (s.drawn (src.splitOnP (isRestart enabled restart))).flatMap corners).map some ∧
      last.bounds = (drawable enabled restart src).foldl Bounds.minMax s.bounds := by
  induction src generalizing s values with
  | nil =>
    cases ran
    simp [Fan.drawn, drawnRun, drawnFrom, drawable, written]
  | cons index rest ih =>
    obtain ⟨run, runs, later⟩ := exists_cons_of_ne_nil (splitOnP_ne_nil (isRestart enabled restart) rest)
    rw [foldlM_cons] at ran
    simp only [later, drawable] at ih
    simp only [splitOnP_cons_eq_if_modifyHead, later, drawable, filter_cons]
    unfold Fan.step at ran
    split at ran
    next unanchored =>
      split at ran
      next met => simpa [met, Fan.drawn, unanchored, drawnRun] using ih ran written fresh
      next other =>
        have next := ih ran written (by simp)
        simpa [other, Fan.drawn, unanchored, drawnRun, fresh unanchored] using next
    next anchored =>
      split at ran
      next met =>
        have next := ih ran written (by simp)
        simpa [met, Fan.drawn, anchored, drawnFrom] using next
      next other =>
        split at ran
        next none =>
          have next := ih ran written (by simp [anchored])
          simpa [other, none, Fan.drawn, anchored, drawnFrom] using next
        next edge =>
          cases stored : storeEach s.dst s.dstIdx [s.anchor, s.last, index] with
          | error fault => simp [stored, bind, Except.bind] at ran
          | ok dst =>
            simp only [stored, bind, bind] at ran
            have taken : dst.take (s.dstIdx + 3) = (values ++ [s.anchor, s.last, index]).map some := by
              simpa [written] using storeEach_take stored
            have next := ih ran taken (by simp [anchored])
            simpa [other, edge, Fan.drawn, anchored, drawnFrom, corners] using next

lemma fan_drawn {src : List (Index t)} {dst out : Dst t} {b : Bounds t} {count : Nat}
    (done : expandIndexedTriangleFan src dst enabled restart = .ok (b, count, out)) :
    b.Spans (drawable enabled restart src) ∧
      out.take count = (((fansOf enabled restart src).filter (·.2.1 ≠ indexLimit)).flatMap corners).map some := by
  rw [expandIndexedTriangleFan] at done
  split at done
  next =>
    cases ran : src.foldlM (Fan.step enabled restart) ⟨dst, 0, true, indexLimit, indexLimit, .empty⟩ with
    | error fault => simp [ran, bind, Except.bind] at done
    | ok last =>
      obtain ⟨written, bounds⟩ := Fan.fold_drawn ran (rfl : _ = ([] : List (Index t)).map some) (fun _ => rfl)
      obtain ⟨run, runs, split⟩ := exists_cons_of_ne_nil (splitOnP_ne_nil (isRestart enabled restart) src)
      simp only [ran, Except.bind, bind, Except.ok.injEq, Prod.mk.injEq] at done
      obtain ⟨rfl, rfl, rfl⟩ := done
      refine ⟨bounds ▸ minMax_spans _, ?_⟩
      simpa [fansOf, split, Fan.drawn, funext drawnRun_eq, filter_flatMap] using written
  next => cases done

lemma length_flatMap_corners (triangles : List (Index t × Index t × Index t)) :
    (triangles.flatMap corners).length = 3 * triangles.length := by
  simp [corners, mul_comm]

theorem triangle_fan_iff (src : List (Index t)) (dst : Dst t) (enabled : Bool) (restart : BitVec 32)
    (room : 3 * (src.length - 2) ≤ dst.length) (small : dst.length < 2 ^ 32) :
    (∃ b count out, expandIndexedTriangleFan src dst enabled restart = .ok (b, count, out) ∧
        b.Spans (drawable enabled restart src) ∧
        out.take count = ((fansOf enabled restart src).flatMap corners).map some) ↔
      2 ≤ src.length ∧ ∀ triangle ∈ fansOf enabled restart src, triangle.2.1 ≠ indexLimit := by
  constructor
  · rintro ⟨b, count, out, done, -, written⟩
    refine ⟨?_, ?_⟩
    · by_contra few
      have wraps : 2 ^ 32 ≤ 3 * ((src.length + (2 ^ 64 - 2)) % 2 ^ 64) % 2 ^ 64 := by
        rcases (by omega : src.length = 0 ∨ src.length = 1) with none | one <;> simp [*]
      rw [fan_ensure (by omega)] at done
      cases done
    · -- with an edge left out fewer indices are written
      have same := congrArg length ((fan_drawn done).2.symm.trans written)
      simp only [length_map, length_flatMap_corners] at same
      simpa using length_filter_eq_length_iff.mp (Nat.eq_of_mul_eq_mul_left (by decide) same)
  · rintro ⟨two, drawable⟩
    obtain ⟨b, count, out, done, -⟩ := @fan_ok t src dst enabled restart two (by omega) room
    obtain ⟨spans, written⟩ := fan_drawn done
    rw [filter_eq_self.mpr (by simpa using drawable)] at written
    exact ⟨b, count, out, done, spans, written⟩

theorem triangle_fan_run :
    ∃ b count out, expandIndexedTriangleFan (t := .u16) [1, 2, 3, 7, 4, 5, 6, 8] (replicate 18 none) true 7 =
      .ok (b, count, out) ∧ b.Spans (drawable true 7 [1, 2, 3, 7, 4, 5, 6, 8]) ∧
        out.take count = ((fansOf true 7 [1, 2, 3, 7, 4, 5, 6, 8]).flatMap corners).map some := by
  have limited : (fansOf (t := .u16) true 7 [1, 2, 3, 7, 4, 5, 6, 8]).all (·.2.1 != indexLimit) = true := by decide
  exact (triangle_fan_iff (t := .u16) _ _ true 7 (by decide) (by decide)).mpr ⟨by decide, by simpa using limited⟩

-- The restart is switched off, and 0xffff is an index as any other.
theorem triangle_fan_loses :
    (expandIndexedTriangleFan (t := .u16) [0, 0xffff, 1, 2] (replicate 6 none) false 0).toOption.map
      (fun result => (result.2.1, result.2.2.take result.2.1)) = some (3, [some 0, some 1, some 2]) ∧
    fansOf (t := .u16) false 0 [0, 0xffff, 1, 2] = [(0, 0xffff, 1), (0, 1, 2)] := by
  decide

end Fan

end EmuCore.Rsx
