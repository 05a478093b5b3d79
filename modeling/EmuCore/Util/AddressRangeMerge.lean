import EmuCore.Util.AddressRange

namespace EmuCore.AddressRange

open List

variable {w : Nat}

abbrev RangeVector (w : Nat) := List (Range w)

-- `processed ++ rest` is the vector; `found` and `invalid` are positions in `processed`.
def mergeLoop (newRange : Range w) :
    RangeVector w -> Option Nat -> Option Nat -> RangeVector w ->
      RangeVector w × Option Nat × Option Nat
  | processed, found, invalid, [] => (processed, found, invalid)
  | processed, found, invalid, existing :: rest =>
    if existing.valid then
      if existing.touches newRange then
        match found with
        | some f =>
          mergeLoop newRange
            (processed.modify f (fun r => r.getMinMax existing) ++ [Range.invalidated])
            found invalid rest
        | none =>
          mergeLoop newRange (processed ++ [existing.getMinMax newRange])
            (some processed.length) invalid rest
      else mergeLoop newRange (processed ++ [existing]) found invalid rest
    else mergeLoop newRange (processed ++ [existing]) found (some processed.length) rest

def merge (data : RangeVector w) (newRange : Range w) : RangeVector w :=
  if newRange.valid then
    match mergeLoop newRange [] none none data with
    | (merged, some _, _) => merged
    | (merged, none, some i) => merged.set i newRange
    | (merged, none, none) => merged ++ [newRange]
  else data

def mergeVector (data other : RangeVector w) : RangeVector w := other.foldl merge data

-- `pushed` collects the ranges added by `push_back`, which the loop never visits.
def excludeLoop (exclusion : Range w) :
    RangeVector w -> Option Nat -> RangeVector w -> RangeVector w -> RangeVector w
  | processed, _, pushed, [] => processed ++ pushed
  | processed, invalid, pushed, existing :: rest =>
    if existing.valid then
      if existing.overlaps exclusion then
        if exclusion.overlapsAddress existing.start then
          if exclusion.overlapsAddress existing.last then
            excludeLoop exclusion (processed ++ [Range.invalidated]) (some processed.length)
              pushed rest
          else
            excludeLoop exclusion (processed ++ [⟨exclusion.nextAddress, existing.last⟩])
              invalid pushed rest
        else if exclusion.overlapsAddress existing.last then
          excludeLoop exclusion (processed ++ [⟨existing.start, exclusion.prevAddress⟩])
            invalid pushed rest
        else
          match invalid with
          | some i =>
            excludeLoop exclusion
              (processed.set i ⟨exclusion.nextAddress, existing.last⟩ ++
                [⟨existing.start, exclusion.prevAddress⟩]) none pushed rest
          | none =>
            excludeLoop exclusion (processed ++ [⟨existing.start, exclusion.prevAddress⟩]) none
              (pushed ++ [⟨exclusion.nextAddress, existing.last⟩]) rest
      else excludeLoop exclusion (processed ++ [existing]) invalid pushed rest
    else excludeLoop exclusion (processed ++ [existing]) (some processed.length) pushed rest

def exclude (data : RangeVector w) (exclusion : Range w) : RangeVector w :=
  if exclusion.valid then excludeLoop exclusion [] none [] data else data

def excludeVector (data other : RangeVector w) : RangeVector w := other.foldl exclude data

def checkConsistency : RangeVector w -> Bool
  | [] => true
  | r :: rest =>
    (!r.valid || rest.all fun other => !other.valid || !r.touches other) && checkConsistency rest

def Covers (data : RangeVector w) (addr : BitVec w) : Prop := ∃ r ∈ data, r.Mem addr

def validEntries (data : RangeVector w) : RangeVector w := data.filter Range.valid

lemma covers_validEntries (data : RangeVector w) (addr : BitVec w) :
    Covers (validEntries data) addr ↔ Covers data addr := by
  constructor
  next =>
    rintro ⟨r, member, mem⟩
    exact ⟨r, mem_of_mem_filter member, mem⟩
  next =>
    rintro ⟨r, member, mem⟩
    exact ⟨r, mem_filter.mpr ⟨member, mem.valid⟩, mem⟩

lemma covers_perm {data other : RangeVector w} (same : data.Perm other) (addr : BitVec w) :
    Covers data addr ↔ Covers other addr := by
  simp only [Covers, same.mem_iff]

lemma touches_comm (pos : 0 < w) {r other : Range w} (ok : r.valid = true)
    (otherOk : other.valid = true) : r.touches other = other.touches r := by
  rw [Bool.eq_iff_iff, touches_iff pos ok otherOk, touches_iff pos otherOk ok]
  simp only [Range.Adjoins, Range.Wraps]
  constructor
  · rintro (⟨left, right⟩ | wrap)
    · exact .inl ⟨right, left⟩
    · exact .inr wrap.symm
  · rintro (⟨left, right⟩ | wrap)
    · exact .inl ⟨right, left⟩
    · exact .inr wrap.symm

lemma checkConsistency_iff (data : RangeVector w) :
    checkConsistency data = true ↔
      (validEntries data).Pairwise fun r other => r.touches other = false := by
  induction data with
  | nil => simp [checkConsistency, validEntries]
  | cons r rest ih =>
    simp only [checkConsistency, Bool.and_eq_true, ih, validEntries]
    by_cases ok : r.valid = true
    next =>
      simp only [filter_cons, ok, if_true, pairwise_cons, Bool.not_true, Bool.false_or,
        all_eq_true, mem_filter, Bool.or_eq_true, Bool.not_eq_true']
      constructor
      · rintro ⟨apart, tail⟩
        refine ⟨?_, tail⟩
        rintro other ⟨member, otherOk⟩
        exact (apart other member).resolve_left (by simp [otherOk])
      · rintro ⟨apart, tail⟩
        refine ⟨?_, tail⟩
        intro other member
        by_cases otherOk : other.valid = true
        · exact .inr (apart other ⟨member, otherOk⟩)
        · exact .inl (by simpa using otherOk)
    next =>
      rw [filter_cons_of_neg (by simpa using ok)]
      simp [ok]

lemma modify_at_split {α : Type} (before : List α) (x : α) (after : List α) (f : α -> α) :
    (before ++ x :: after).modify before.length f = before ++ f x :: after := by
  induction before with
  | nil => rfl
  | cons y before ih => simpa using ih

lemma set_at_split {α : Type} (before : List α) (x y : α) (after : List α) :
    (before ++ x :: after).set before.length y = before ++ y :: after := by
  induction before with
  | nil => rfl
  | cons z before ih => simp

lemma split_at {α : Type} {xs : List α} {i : Nat} {x : α} (at_i : xs[i]? = some x) :
    ∃ before after, xs = before ++ x :: after ∧ before.length = i := by
  obtain ⟨bound, value⟩ := List.getElem?_eq_some_iff.mp at_i
  refine ⟨xs.take i, xs.drop (i + 1), ?_, length_take_of_le (by omega)⟩
  rw [← value, getElem_cons_drop, take_append_drop]

lemma set_invalid_perm {data : RangeVector w} {i : Nat} {old new : Range w}
    (slot : data[i]? = some old) (oldBad : old.valid = false) (newOk : new.valid = true) :
    (validEntries (data.set i new)).Perm (new :: validEntries data) := by
  obtain ⟨before, after, rfl, rfl⟩ := split_at slot
  rw [set_at_split]
  simp only [validEntries, filter_append, filter_cons, newOk, oldBad, if_true,
    Bool.false_eq_true, if_false]
  exact perm_middle

variable (newRange : Range w) (data : RangeVector w)

def touching : RangeVector w :=
  data.filter fun e => e.valid && e.touches newRange

def apart : RangeVector w :=
  data.filter fun e => e.valid && !e.touches newRange

def MergeState (newRange : Range w) (seen processed : RangeVector w) (invalid : Option Nat) :
    Option Nat -> Prop
  | none =>
    processed = seen ∧ touching newRange seen = [] ∧
      ∀ i, invalid = some i -> ∃ old, seen[i]? = some old ∧ old.valid = false
  | some f =>
    ∃ before hull after, processed = before ++ hull :: after ∧ before.length = f ∧
      hull.valid = true ∧ validEntries (before ++ after) = apart newRange seen ∧
      ∀ addr, hull.Mem addr ↔ newRange.Mem addr ∨ Covers (touching newRange seen) addr

lemma touching_append (newRange existing : Range w) (seen : RangeVector w) :
    touching newRange (seen ++ [existing]) =
      if existing.valid && existing.touches newRange then touching newRange seen ++ [existing]
      else touching newRange seen := by
  simp only [touching, filter_append, filter_cons, filter_nil]
  split <;> simp

lemma apart_append (newRange existing : Range w) (seen : RangeVector w) :
    apart newRange (seen ++ [existing]) =
      if existing.valid && !existing.touches newRange then apart newRange seen ++ [existing]
      else apart newRange seen := by
  simp only [apart, filter_append, filter_cons, filter_nil]
  split <;> simp

variable {newRange : Range w}

lemma apart_of_untouched {data : RangeVector w} (untouched : touching newRange data = []) :
    apart newRange data = validEntries data := by
  apply filter_congr
  intro e member
  have free := filter_eq_nil_iff.mp untouched e member
  cases ok : e.valid <;> simp_all

lemma covers_append (xs ys : RangeVector w) (addr : BitVec w) :
    Covers (xs ++ ys) addr ↔ Covers xs addr ∨ Covers ys addr := by
  simp only [Covers, mem_append]
  constructor
  · rintro ⟨r, left | right, mem⟩
    · exact .inl ⟨r, left, mem⟩
    · exact .inr ⟨r, right, mem⟩
  · rintro (⟨r, left, mem⟩ | ⟨r, right, mem⟩)
    · exact ⟨r, .inl left, mem⟩
    · exact ⟨r, .inr right, mem⟩

@[simp] lemma covers_nil (addr : BitVec w) : ¬ Covers ([] : RangeVector w) addr := by
  rintro ⟨r, member, _⟩
  cases member

@[simp] lemma covers_cons (r : Range w) (data : RangeVector w) (addr : BitVec w) :
    Covers (r :: data) addr ↔ r.Mem addr ∨ Covers data addr := by
  simp [Covers]

lemma validEntries_append (xs ys : RangeVector w) :
    validEntries (xs ++ ys) = validEntries xs ++ validEntries ys := filter_append ..

variable {existing : Range w} {seen processed : RangeVector w} {invalid : Option Nat}

lemma mergeState_first (newOk : newRange.valid = true) (ok : existing.valid = true)
    (touch : existing.touches newRange = true) (adjoins : existing.Adjoins newRange)
    (state : MergeState newRange seen processed invalid none) :
    MergeState newRange (seen ++ [existing]) (processed ++ [existing.getMinMax newRange]) invalid
      (some processed.length) := by
  obtain ⟨rfl, untouched, _⟩ := state
  refine ⟨processed, existing.getMinMax newRange, [], rfl, rfl, getMinMax_valid ok newOk, ?_, ?_⟩
  · rw [apart_append, apart_of_untouched untouched]
    simp [touch]
  · intro addr
    rw [getMinMax_mem ok newOk adjoins, touching_append, untouched]
    simp [ok, touch, or_comm]

lemma mergeState_next {f : Nat} (pos : 0 < w) (newOk : newRange.valid = true) (ok : existing.valid = true)
    (touch : existing.touches newRange = true) (adjoins : existing.Adjoins newRange)
    (state : MergeState newRange seen processed invalid (some f)) :
    MergeState newRange (seen ++ [existing])
      (processed.modify f (fun r => r.getMinMax existing) ++ [Range.invalidated]) invalid
      (some f) := by
  obtain ⟨before, hull, after, rfl, rfl, hullOk, others, cover⟩ := state
  have low := ((cover newRange.start).mpr (.inl (mem_start newOk))).1
  have high := ((cover newRange.last).mpr (.inl (mem_last newOk))).2
  have hullAdjoins : hull.Adjoins existing := by
    simp only [BitVec.le_def] at low high
    simp only [Range.Adjoins] at adjoins ⊢
    omega
  refine ⟨before, hull.getMinMax existing, after ++ [Range.invalidated], ?_, rfl,
    getMinMax_valid hullOk ok, ?_, ?_⟩
  · rw [modify_at_split]
    simp
  · rw [apart_append, ← others, ← append_assoc, validEntries_append _ [Range.invalidated]]
    simp [touch, validEntries, invalidated_invalid pos]
  · intro addr
    rw [getMinMax_mem hullOk ok hullAdjoins, cover, touching_append]
    simp [ok, touch, covers_append, or_assoc]

lemma mergeState_skip {found : Option Nat} (free : (existing.valid && existing.touches newRange) = false)
    (state : MergeState newRange seen processed invalid found) :
    MergeState newRange (seen ++ [existing]) (processed ++ [existing]) invalid found := by
  cases found with
  | none =>
    obtain ⟨rfl, untouched, slots⟩ := state
    refine ⟨rfl, by rw [touching_append, untouched]; simp [free], ?_⟩
    intro i slot
    obtain ⟨old, at_i, bad⟩ := slots i slot
    exact ⟨old, getElem?_append_left (List.getElem?_eq_some_iff.mp at_i).1 ▸ at_i, bad⟩
  | some f =>
    obtain ⟨before, hull, after, rfl, rfl, hullOk, others, cover⟩ := state
    refine ⟨before, hull, after ++ [existing], by simp, rfl, hullOk, ?_, ?_⟩
    · rw [apart_append, ← others, ← append_assoc, validEntries_append _ [existing]]
      cases ok : existing.valid <;> simp_all [validEntries]
    · intro addr
      rw [cover, touching_append]
      simp [free]

lemma mergeState_slot {found : Option Nat} (bad : existing.valid = false)
    (state : MergeState newRange seen processed invalid found) :
    MergeState newRange (seen ++ [existing]) (processed ++ [existing]) (some processed.length)
      found := by
  have free : (existing.valid && existing.touches newRange) = false := by simp [bad]
  have skipped := mergeState_skip free state
  cases found with
  | none =>
    obtain ⟨rfl, _, _⟩ := state
    refine ⟨skipped.1, skipped.2.1, ?_⟩
    rintro i slot
    obtain rfl : processed.length = i := by simpa using slot
    exact ⟨existing, by simp, bad⟩
  | some f => exact skipped

lemma mergeLoop_state (pos : 0 < w) (newOk : newRange.valid = true) (rest : RangeVector w)
    (genuine : ∀ e ∈ rest, e.valid = true -> e.touches newRange = true -> e.Adjoins newRange)
    (seen processed : RangeVector w) (found invalid : Option Nat)
    (state : MergeState newRange seen processed invalid found) :
    MergeState newRange (seen ++ rest) (mergeLoop newRange processed found invalid rest).1
      (mergeLoop newRange processed found invalid rest).2.2
      (mergeLoop newRange processed found invalid rest).2.1 := by
  -- Each branch hands the induction the state of one more passed entry.
  fun_induction mergeLoop newRange processed found invalid rest generalizing seen with
  | case1 => simpa using state
  | case2 processed invalid existing rest ok touch f ih =>
    have adjoins := genuine existing mem_cons_self ok touch
    rw [append_cons]
    exact ih (forall_mem_cons.mp genuine).2 _ (mergeState_next pos newOk ok touch adjoins state)
  | case3 processed invalid existing rest ok touch ih =>
    have adjoins := genuine existing mem_cons_self ok touch
    rw [append_cons]
    exact ih (forall_mem_cons.mp genuine).2 _ (mergeState_first newOk ok touch adjoins state)
  | case4 processed found invalid existing rest ok free ih =>
    rw [append_cons]
    exact ih (forall_mem_cons.mp genuine).2 _ (mergeState_skip (by simp [free]) state)
  | case5 processed found invalid existing rest bad ih =>
    rw [append_cons]
    exact ih (forall_mem_cons.mp genuine).2 _ (mergeState_slot (Bool.eq_false_iff.mpr bad) state)

lemma merge_exact {data : RangeVector w} (pos : 0 < w) (newOk : newRange.valid = true)
    (genuine : ∀ e ∈ data, e.valid = true -> e.touches newRange = true -> e.Adjoins newRange) :
    ∃ hull : Range w, hull.valid = true ∧
      (validEntries (merge data newRange)).Perm (hull :: apart newRange data) ∧
      ∀ addr, hull.Mem addr ↔ newRange.Mem addr ∨ Covers (touching newRange data) addr := by
  have final := mergeLoop_state pos newOk data genuine [] [] none none
    ⟨rfl, rfl, by intro i slot; cases slot⟩
  simp only [nil_append] at final
  unfold merge
  rw [if_pos newOk]
  rcases loop : mergeLoop newRange [] none none data with ⟨merged, found, invalid⟩
  rw [loop] at final
  cases found with
  | some f =>
    obtain ⟨before, hull, after, split, -, hullOk, others, cover⟩ := final
    simp only at split
    refine ⟨hull, hullOk, ?_, cover⟩
    simp only [split]
    rw [← others, validEntries_append, validEntries_append]
    simp only [validEntries, filter_cons, hullOk, if_true]
    exact perm_middle
  | none =>
    obtain ⟨same, untouched, slots⟩ := final
    simp only at same slots
    refine ⟨newRange, newOk, ?_, by simp [untouched]⟩
    rw [apart_of_untouched untouched]
    cases invalid with
    | some i =>
      obtain ⟨old, slot, bad⟩ := slots i rfl
      simp only [same]
      exact set_invalid_perm slot bad newOk
    | none =>
      simp only [same, validEntries_append]
      refine perm_append_comm.trans ?_
      simp [validEntries, newOk]

end EmuCore.AddressRange
