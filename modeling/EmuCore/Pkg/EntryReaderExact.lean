import EmuCore.Pkg.EntryReaderLoop

namespace EmuCore.Pkg

open Slice Option List

structure Window where
  off : Nat
  size : Nat

def Cache.window (cache : Cache) : Window := ⟨cache.off, cache.size⟩

def Request.count (e : Entry) (req : Request) : Nat := min (e.fileSize - req.pos) req.size

inductive Course
  | nothing
  | front (count : Nat)
  | back (count : Nat)
  | refill
  | direct

def Window.course (w : Window) (e : Entry) (req : Request) : Course :=
  if e.fileSize ≤ req.pos ∨ req.size = 0 then .nothing
  else if w.size ≠ 0 ∧ w.off ≤ req.pos ∧ req.pos < w.off + w.size then
    .front (min (req.pos + req.count e) (w.off + w.size) - req.pos)
  else if w.size ≠ 0 ∧ w.off < req.pos + req.count e ∧ req.pos + req.count e ≤ w.off + w.size then
    .back (w.off - req.pos)
  else if req.count e ≤ bufSize then .refill
  else .direct

def Good (e : Entry) (req : Request) : Course -> Prop
  | .nothing => True
  | .front count => count < req.count e ->
      (e.fileOffset + (req.pos + count)) % 16 = 0 ∧ Roomy e req (req.count e) count
  | .back _ => False
  | .refill => (e.fileOffset + req.pos) % 16 = 0
  | .direct => (e.fileOffset + req.pos) % 16 = 0 ∧ Roomy e req (req.count e) 0

instance goodDecidable (e : Entry) (req : Request) : (course : Course) -> Decidable (Good e req course)
  | .nothing => .isTrue trivial
  | .front _ => inferInstanceAs (Decidable (_ < _ -> _ ∧ _))
  | .back _ => .isFalse id
  | .refill => inferInstanceAs (Decidable (_ = _))
  | .direct => inferInstanceAs (Decidable (_ ∧ _))

def blockSize (e : Entry) (req : Request) : Nat :=
  min bufSize (min (max (req.count e * 5 / 3) 65536) (e.fileSize - req.pos))

def Window.after (w : Window) (e : Entry) (req : Request) : Window :=
  match w.course e req with
  | .refill => ⟨req.pos, blockSize e req⟩
  | _ => w

def Served (e : Entry) : Window -> List Request -> Prop
  | _, [] => True
  | w, req :: rest => Good e req (w.course e req) ∧ Served e (w.after e req) rest

def Window.Inside (w : Window) (e : Entry) : Prop := w.size ≠ 0 -> w.off + w.size ≤ e.fileSize

variable (cache : Cache)

def Cache.Valid (p : Package) (e : Entry) : Prop :=
  ∀ i < cache.size, cache.data i = content p e (cache.off + i)

def fromCache (req : Request) (count : Nat) : Buffer :=
  copy req.ptr 0 count fun i => cache.data (req.pos - cache.off + i)

def behind (req : Request) (e : Entry) (count : Nat) : Buffer :=
  copy req.ptr count (req.count e - count) cache.data

variable (p : Package) (e : Entry) (cache : Cache) (req : Request)

def refilled : Cache :=
  ⟨req.pos, blockSize e req, fun i => if i < blockSize e req then shifted p (e.fileOffset + req.pos) i
    else if i < blockSize e req + bufPadding then 0 else cache.data i⟩

def outcome : Course -> Option (Nat × Buffer × Cache)
  | .nothing => some (0, req.ptr, cache)
  | .front count =>
    if count = req.count e then some (count, fromCache cache req count, cache)
    else if Roomy e req (req.count e) count then
      some (req.count e, looped p e req (req.count e) count (req.pos + count) (fromCache cache req count), cache)
    else none
  | .back count =>
    if Roomy e req count 0 then
      some (req.count e, looped p e req count 0 req.pos (behind cache req e count), cache)
    else none
  | .refill =>
    some (req.count e, copy req.ptr 0 (req.count e) (shifted p (e.fileOffset + req.pos)), refilled p e cache req)
  | .direct =>
    if Roomy e req (req.count e) 0 then
      some (req.count e, looped p e req (req.count e) 0 req.pos req.ptr, cache)
    else none

variable {e : Entry} {p : Package} {req : Request}

lemma refill_eq (present : Present p e) (cache : Cache) (start : req.pos < e.fileSize) (positive : 0 < req.count e)
    (small : req.count e ≤ bufSize) :
    refill p e cache req (req.count e) = outcome p e cache req .refill := by
  have counted : req.count e ≤ e.fileSize - req.pos := min_le_left ..
  have block : req.count e ≤ blockSize e req ∧ blockSize e req ≤ e.fileSize - req.pos := by
    rw [blockSize]
    omega
  have rounded : roundUp (blockSize e req) ≤ blockSize e req + bufPadding := by
    simp only [roundUp, bufPadding]
    omega
  rw [refill]
  change (decrypt p _ (blockSize e req) _ (blockSize e req + bufPadding)).bind _ = _
  rw [decrypt_present present (by omega) (by omega), if_neg (by omega), bind_some]
  dsimp only
  rw [if_neg (by omega), min_eq_right block.1, outcome, refilled]
  congr 2
  rw [Prod.mk.injEq]
  refine ⟨?_, rfl⟩
  funext i
  rw [copy, copy]
  split
  next within => rw [if_pos (by omega)]
  next => rfl

lemma course_window (cache : Cache) (e : Entry) (req : Request) :
    cache.window.course e req =
      if e.fileSize ≤ req.pos ∨ req.size = 0 then .nothing
      else if cache.size ≠ 0 ∧ cache.off ≤ req.pos ∧ req.pos < cache.off + cache.size then
        .front (min (req.pos + req.count e) (cache.off + cache.size) - req.pos)
      else if cache.size ≠ 0 ∧ cache.off < req.pos + req.count e ∧
          req.pos + req.count e ≤ cache.off + cache.size then .back (cache.off - req.pos)
      else if req.count e ≤ bufSize then .refill
      else .direct := rfl

variable {cache : Cache}

lemma read_eq (present : Present p e) (inside : cache.window.Inside e) (req : Request) :
    read p e cache req = outcome p e cache req (cache.window.course e req) := by
  rw [read, course_window]
  by_cases out : e.fileSize ≤ req.pos ∨ req.size = 0
  · rw [if_pos out, if_pos out]
    rfl
  rw [if_neg out, if_neg out]
  have start : req.pos < e.fileSize := by omega
  have sizes : min (e.fileSize - req.pos) req.size = req.count e := rfl
  have counted : req.count e ≤ e.fileSize - req.pos ∧ req.count e ≤ req.size ∧ 0 < req.count e := by
    rw [← sizes]
    omega
  simp only [sizes]
  obtain ⟨within, asked, positive⟩ := counted
  by_cases front : cache.size ≠ 0 ∧ cache.off ≤ req.pos ∧ req.pos < cache.off + cache.size
  · have covered : cache.off + cache.size ≤ e.fileSize := inside front.1
    rw [if_pos front, if_pos front, outcome]
    have least : min (req.pos + req.count e) (cache.off + cache.size) - req.pos ≤ req.count e := by omega
    by_cases all : min (req.pos + req.count e) (cache.off + cache.size) - req.pos = req.count e
    · rw [if_pos all, readLoop_done p e req (by omega)]
      split <;> rfl
    · rw [if_neg all, if_neg (by omega)]
      rw [readLoop_eq present (by omega) (by omega) asked (by omega)]
      split <;> rfl
  rw [if_neg front, if_neg front]
  by_cases back : cache.size ≠ 0 ∧ cache.off < req.pos + req.count e ∧
      req.pos + req.count e ≤ cache.off + cache.size
  · have later : req.pos < cache.off := by omega
    have rest : req.count e - (max cache.off req.pos - req.pos) = req.count e - (cache.off - req.pos) := by
      omega
    have first : req.count e - (req.count e - (cache.off - req.pos)) = cache.off - req.pos := by omega
    rw [if_pos back, if_pos back, outcome, rest, first, if_neg (by omega)]
    rw [readLoop_eq present (by omega) (by omega) (by omega) (by omega)]
    split
    next => 
      rw [map_some]
      have total : cache.off - req.pos + (req.count e - (cache.off - req.pos)) = req.count e := by omega
      rw [total]
      rfl
    next => rfl
  · rw [if_neg back, if_neg back]
    by_cases small : req.count e ≤ bufSize
    · rw [if_pos small, if_pos small]
      exact refill_eq present cache start positive small
    · rw [if_neg small, if_neg small, outcome]
      rw [readLoop_eq present (by omega) (by omega) asked (by omega)]
      split <;> rfl

variable {count : Nat}

-- What each course says about the request that takes it.
lemma course_spec (w : Window) (e : Entry) (req : Request) :
    match w.course e req with
    | .nothing => req.count e = 0
    | .front count => w.off ≤ req.pos ∧ req.pos + count ≤ w.off + w.size ∧ count ≤ req.count e
    | .back count => count < req.count e
    | .refill | .direct => req.pos < e.fileSize ∧ 0 < req.count e := by
  fun_cases Window.course w e req <;> simp only [Request.count] at * <;> omega

def expected (p : Package) (e : Entry) (req : Request) : List UInt8 :=
  slice (content p e) req.pos (req.count e)

lemma slice_expected {buf : Buffer} :
    slice buf 0 (req.count e) = expected p e req ↔ ∀ i < req.count e, buf i = content p e (req.pos + i) := by
  rw [expected, slice, slice]
  refine ⟨fun same i inside => ?_, fun same => ?_⟩
  · have at_ := congrArg (·[i]?) same
    simpa [inside] using at_
  · refine map_congr_left fun i inside => ?_
    rw [zero_add]
    exact same i (mem_range.mp inside)

def Answered (p : Package) (e : Entry) (cache : Cache) (req : Request) (next : Cache) : Prop :=
  ∃ buf, read p e cache req = some (req.count e, buf, next) ∧
    ∀ i < req.count e, buf i = content p e (req.pos + i)

lemma looped_content {buf : Buffer} (aligned : (e.fileOffset + (req.pos + count)) % 16 = 0)
    (before : ∀ i < count, buf i = content p e (req.pos + i)) :
    ∀ i < req.count e,
      looped p e req (req.count e) count (req.pos + count) buf i = content p e (req.pos + i) := by
  intro i inside
  rw [looped]
  split
  next early => exact before i early
  next late =>
    rw [shifted_aligned p aligned, content]
    congr 1
    omega

lemma fromCache_content (valid : cache.Valid p e) (first : cache.off ≤ req.pos)
    (last : req.pos + count ≤ cache.off + cache.size) :
    ∀ i < count, fromCache cache req count i = content p e (req.pos + i) := by
  intro i inside
  rw [fromCache, copy, if_pos (by omega), valid _ (by omega)]
  congr 1
  omega

lemma read_good (present : Present p e) (inside : cache.window.Inside e) (valid : cache.Valid p e)
    (good : Good e req (cache.window.course e req)) :
    ∃ next, Answered p e cache req next ∧ next.window = cache.window.after e req ∧ next.window.Inside e ∧
      next.Valid p e := by
  rw [Window.after]
  simp only [Answered, read_eq present inside]
  have spec := course_spec cache.window e req
  generalize cache.window.course e req = course at good spec ⊢
  cases course with
  | nothing =>
    have none : req.count e = 0 := spec
    refine ⟨cache, ⟨req.ptr, by rw [outcome, none], fun i small => ?_⟩, rfl, inside, valid⟩
    omega
  | front count =>
    obtain ⟨first, last, least⟩ := spec
    have served := fromCache_content valid first last
    refine ⟨cache, ?_, rfl, inside, valid⟩
    rw [outcome]
    by_cases all : count = req.count e
    · rw [if_pos all]
      exact ⟨_, by rw [all], fun i small => served i (all ▸ small)⟩
    · obtain ⟨aligned, roomy⟩ := good (by omega)
      rw [if_neg all, if_pos roomy]
      exact ⟨_, rfl, looped_content aligned served⟩
  | back count => exact good.elim
  | refill =>
    obtain ⟨start, -⟩ := spec
    have aligned : ∀ i, shifted p (e.fileOffset + req.pos) i = content p e (req.pos + i) := by
      intro i
      rw [shifted_aligned p good, content, add_assoc]
    refine ⟨refilled p e cache req, ⟨_, rfl, fun i small => ?_⟩, rfl, fun _ => ?_, fun i small => ?_⟩
    · rw [copy, if_pos (by omega)]
      exact aligned i
    · simp only [Cache.window, refilled, blockSize]
      omega
    rw [refilled] at small ⊢
    dsimp only at small ⊢
    rw [if_pos small]
    exact aligned i
  | direct =>
    refine ⟨cache, ?_, rfl, inside, valid⟩
    rw [outcome, if_pos good.2]
    exact ⟨_, rfl, looped_content good.1 fun i none => absurd none (Nat.not_lt_zero i)⟩

def marked (e : Entry) : Package :=
  ⟨true, e.fileOffset + e.fileSize, fun _ => 0, 0, fun _ place => if place = 0 then 1 else 0⟩

def filled (e : Entry) : Package := ⟨true, e.fileOffset + e.fileSize, fun _ => 1, 0, fun _ _ => 0⟩

lemma present_marked (e : Entry) : Present (marked e) e := ⟨rfl, by simp [marked], e.fits⟩

lemma present_filled (e : Entry) : Present (filled e) e := ⟨rfl, by simp [filled], e.fits⟩

lemma shifted_marked (e : Entry) {pos : Nat} (crooked : (e.fileOffset + pos) % 16 ≠ 0) :
    shifted (marked e) (e.fileOffset + pos) 0 ≠ content (marked e) e pos := by
  simp [shifted, content, stream, marked, crooked]

lemma content_filled (e : Entry) (pos : Nat) : content (filled e) e pos ≠ 0 := by
  simp [content, stream, filled]

lemma read_bad {w : Window} (inside : w.Inside e) (bad : ¬Good e req (w.course e req)) :
    ∃ p, Present p e ∧ ∀ cache next, cache.window = w -> ¬Answered p e cache req next := by
  have spec := course_spec w e req
  cases here : w.course e req with
  | nothing =>
    rw [here] at bad
    exact absurd trivial bad
  | front count =>
    rw [here, Good, Classical.not_imp] at bad
    obtain ⟨less, bad⟩ := bad
    refine ⟨marked e, present_marked e, ?_⟩
    rintro cache next rfl ⟨buf, answer, right⟩
    rw [read_eq (present_marked e) inside, here, outcome, if_neg (Nat.ne_of_lt less)] at answer
    split at answer
    next roomy =>
      cases answer
      have crooked : (e.fileOffset + (req.pos + count)) % 16 ≠ 0 := fun aligned => bad ⟨aligned, roomy⟩
      refine shifted_marked e crooked ?_
      have wrong := right count less
      rwa [looped, if_neg (lt_irrefl count), if_pos less, Nat.sub_self] at wrong
    next => cases answer
  | back count =>
    rw [here] at spec
    have less : count < req.count e := spec
    refine ⟨filled e, present_filled e, ?_⟩
    rintro cache next rfl ⟨buf, answer, right⟩
    rw [read_eq (present_filled e) inside, here, outcome] at answer
    split at answer
    next roomy =>
      cases answer
      have asked : req.count e ≤ req.size := min_le_right ..
      have large : count < room e req := by
        rw [room]
        split
        next own =>
          have := roomy.1 own
          omega
        next => exact less.trans_le asked
      refine content_filled e (req.pos + count) ?_
      have wrong := right count less
      rwa [looped, if_neg (Nat.not_lt_zero count), if_neg (lt_irrefl count), if_pos large, eq_comm] at wrong
    next => cases answer
  | refill =>
    rw [here] at spec
    obtain ⟨-, positive⟩ := spec
    rw [here, Good] at bad
    refine ⟨marked e, present_marked e, ?_⟩
    rintro cache next rfl ⟨buf, answer, right⟩
    rw [read_eq (present_marked e) inside, here, outcome] at answer
    cases answer
    refine shifted_marked e bad ?_
    have wrong := right 0 positive
    rwa [copy, if_pos (by omega)] at wrong
  | direct =>
    rw [here] at spec
    rw [here, Good] at bad
    refine ⟨marked e, present_marked e, ?_⟩
    rintro cache next rfl ⟨buf, answer, right⟩
    rw [read_eq (present_marked e) inside, here, outcome] at answer
    split at answer
    next roomy =>
      cases answer
      have crooked : (e.fileOffset + req.pos) % 16 ≠ 0 := fun aligned => bad ⟨aligned, roomy⟩
      refine shifted_marked e crooked ?_
      have wrong := right 0 spec.2
      rwa [looped, if_neg (lt_irrefl 0), if_pos spec.2] at wrong
    next => cases answer

lemma answers_served (present : Present p e) (reqs : List Request) (inside : cache.window.Inside e)
    (valid : cache.Valid p e) (served : Served e cache.window reqs) :
    answers p e cache reqs = some (reqs.map (expected p e)) := by
  induction reqs generalizing cache with
  | nil => rfl
  | cons req rest ih =>
    obtain ⟨next, ⟨buf, answer, right⟩, moved, inside', valid'⟩ := read_good present inside valid served.1
    have later := ih inside' valid' (moved ▸ served.2)
    rw [answers, answer, bind_some, later, slice_expected.mpr right]
    rfl

lemma answers_unserved (reqs : List Request) {w : Window} (inside : w.Inside e) (unserved : ¬Served e w reqs) :
    ∃ p, Present p e ∧ ∀ cache, cache.window = w -> cache.Valid p e ->
      answers p e cache reqs ≠ some (reqs.map (expected p e)) := by
  induction reqs generalizing w with
  | nil => exact absurd trivial unserved
  | cons req rest ih =>
    have first_and_rest : ∀ {p cache}, answers p e cache (req :: rest) = some ((req :: rest).map (expected p e)) ->
        ∃ next, Answered p e cache req next ∧ answers p e next rest = some (rest.map (expected p e)) := by
      intro p cache all
      rw [answers] at all
      obtain ⟨done, first, all⟩ := bind_eq_some_iff.mp all
      obtain ⟨others, later, all⟩ := map_eq_some_iff.mp all
      rw [map_cons, cons.injEq] at all
      have size : done.1 = req.count e := by
        have := congrArg length all.1
        simpa [expected] using this
      refine ⟨done.2.2, ⟨done.2.1, ?_, ?_⟩, by rw [later, all.2]⟩
      · rw [first, ← size]
      · exact slice_expected.mp (size ▸ all.1)
    by_cases good : Good e req (w.course e req)
    · have others_unserved : ¬Served e (w.after e req) rest := fun served => unserved ⟨good, served⟩
      have within : (w.after e req).Inside e := by
        let cache : Cache := ⟨w.off, w.size, fun i => content (filled e) e (w.off + i)⟩
        have same : cache.window = w := rfl
        have valid : cache.Valid (filled e) e := fun _ _ => rfl
        obtain ⟨next, -, moved, inside', -⟩ := read_good (present_filled e) (same ▸ inside) valid good
        exact moved ▸ inside'
      obtain ⟨p, present, wrong⟩ := ih within others_unserved
      refine ⟨p, present, ?_⟩
      rintro cache rfl valid all
      obtain ⟨next, ⟨buf, answer, -⟩, later⟩ := first_and_rest all
      obtain ⟨next', ⟨buf', answer', -⟩, moved, -, valid'⟩ := read_good present inside valid good
      rw [answer] at answer'
      cases answer'
      exact wrong next moved valid' later
    · obtain ⟨p, present, wrong⟩ := read_bad inside good
      refine ⟨p, present, fun cache same _ all => ?_⟩
      obtain ⟨next, first, -⟩ := first_and_rest all
      exact wrong cache next same first

theorem reader_exact_iff (e : Entry) (reqs : List Request) :
    (∀ p, Present p e -> answers p e .empty reqs = some (reqs.map (expected p e))) ↔
      Served e ⟨umax, 0⟩ reqs := by
  have inside : (⟨umax, 0⟩ : Window).Inside e := fun some => absurd rfl some
  have valid : ∀ p, Cache.empty.Valid p e := fun p i none => absurd none (Nat.not_lt_zero i)
  refine ⟨fun right => ?_, fun served p present => answers_served present reqs inside (valid p) served⟩
  by_contra unserved
  obtain ⟨p, present, wrong⟩ := answers_unserved reqs inside unserved
  exact wrong .empty rfl (valid p) (right p present)

def exampleEntry : Entry := ⟨0, 0x800001, by decide⟩

def request (pos size : Nat) : Request := ⟨pos, size, false, fun _ => 0⟩

-- The end of a read that is in the cache is cleared by what is read before it; a place that is not a multiple of 16
-- gets the key stream of another place; and a check fails for the last byte of a large read.
theorem reader_wrong :
    Present (filled exampleEntry) exampleEntry ∧ Present (marked exampleEntry) exampleEntry ∧
      answers (filled exampleEntry) exampleEntry .empty [request 65536 16, request 65520 32] =
        some [replicate 16 1, replicate 16 1 ++ replicate 16 0] ∧
      [request 65536 16, request 65520 32].map (expected (filled exampleEntry) exampleEntry) =
        [replicate 16 1, replicate 32 1] ∧
      answers (marked exampleEntry) exampleEntry .empty [request 1 1] = some [[1]] ∧
      [request 1 1].map (expected (marked exampleEntry) exampleEntry) = [[0]] ∧
      answers (filled exampleEntry) exampleEntry .empty [request 0 0x800001] = none := by
  refine ⟨present_filled _, present_marked _, ?_, ?_, ?_, ?_, ?_⟩
  · decide +kernel
  · decide +kernel
  · decide +kernel
  · decide +kernel
  · decide +kernel

end EmuCore.Pkg
