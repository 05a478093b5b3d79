import EmuCore.Util.AddressRangeRuns

namespace EmuCore.AddressRange

open List

variable {w : Nat}

def Range.inside (r other : Range w) : Bool :=
  decide (other.start ≤ r.start) && decide (r.last ≤ other.last)

def RangeVector.overlaps (data : RangeVector w) (range : Range w) : Bool :=
  data.any fun cur => cur.valid && cur.overlaps range

def RangeVector.contains (data : RangeVector w) (range : Range w) : Bool :=
  data.any fun cur => cur.valid && cur.inside range

def Range.insideVector (r : Range w) (vec : RangeVector w) : Bool := vec.contains r

def Spans (data : RangeVector w) : Prop :=
  ∀ r : Range w, r.valid = true -> (∀ addr, r.Mem addr -> Covers data addr) ->
    ∃ e ∈ data, e.valid = true ∧ r.inside e = true

variable {r other : Range w}

lemma inside_iff :
    r.inside other = true ↔ other.start.toNat ≤ r.start.toNat ∧ r.last.toNat ≤ other.last.toNat := by
  simp [Range.inside, BitVec.le_def]

lemma inside_of_ends (first : other.Mem r.start) (last : other.Mem r.last) :
    r.inside other = true :=
  inside_iff.mpr ⟨first.1, last.2⟩

variable {addr : BitVec w}

lemma Range.Mem.mono (mem : r.Mem addr) (inside : r.inside other = true) : other.Mem addr := by
  obtain ⟨low, high⟩ := inside_iff.mp inside
  rw [mem_iff] at mem ⊢
  omega

lemma covers_touching {newRange : Range w} {data : RangeVector w} {e : Range w} (member : e ∈ data)
    (touch : e.touches newRange = true) (mem : e.Mem addr) :
    Covers (touching newRange data) addr :=
  ⟨e, mem_filter.mpr ⟨member, by simp [mem.valid, touch]⟩, mem⟩

section Hull

variable {newRange hull : Range w} {data : RangeVector w}

lemma apart_beside {part e : Range w} (pos : 0 < w) (spans : Spans data) (newOk : newRange.valid = true)
    (cover : ∀ x, hull.Mem x ↔ newRange.Mem x ∨ Covers (touching newRange data) x) (member : e ∈ data)
    (ok : e.valid = true) (free : e.touches newRange = false) (here : e.Mem addr) (outside : ¬ hull.Mem addr)
    (made : part = newRange ∨ part ∈ touching newRange data ∧ part.Adjoins newRange)
    (beside : part.last.toNat + 1 = addr.toNat ∨ addr.toNat + 1 = part.start.toNat) : False := by
  have never : ¬ e.Adjoins newRange := by
    intro adjoins
    simp [(touches_iff pos ok newOk).mpr (.inl adjoins)] at free
  rw [mem_iff] at here
  rcases made with rfl | ⟨touched, adjoins⟩
  · have bounds := (valid_iff part).mp newOk
    exact never ⟨by omega, by omega⟩
  obtain ⟨partHere, shape⟩ := mem_filter.mp touched
  have partOk : part.valid = true := (Bool.and_eq_true _ _ ▸ shape).1
  have bounds := (valid_iff part).mp partOk
  obtain ⟨both, low, high⟩ : ∃ both : Range w, both.start.toNat = min addr.toNat part.start.toNat ∧
      both.last.toNat = max addr.toNat part.last.toNat :=
    ⟨⟨smaller addr part.start, larger addr part.last⟩, smaller_toNat _ _, larger_toNat _ _⟩
  have covered : ∀ x, both.Mem x -> Covers data x := by
    intro x mem
    rw [mem_iff] at mem
    by_cases inPart : part.Mem x
    · exact ⟨part, partHere, inPart⟩
    · rw [mem_iff] at inPart
      exact ⟨e, member, by rw [mem_iff]; omega⟩
  obtain ⟨y, yHere, yOk, wide⟩ := spans both ((valid_iff both).mpr (by omega)) covered
  obtain ⟨left, right⟩ := inside_iff.mp wide
  have touch : y.touches newRange = true := by
    refine (touches_iff pos yOk newOk).mpr (.inl ?_)
    simp only [Range.Adjoins] at adjoins ⊢
    omega
  have inY : y.Mem addr := by rw [mem_iff]; omega
  exact outside ((cover addr).mpr (.inr (covers_touching yHere touch inY)))

lemma merged_spans (pos : 0 < w) (spans : Spans data) (newOk : newRange.valid = true)
    (genuine : ∀ e ∈ data, e.valid = true -> e.touches newRange = true -> e.Adjoins newRange)
    (hullOk : hull.valid = true)
    (cover : ∀ addr, hull.Mem addr ↔ newRange.Mem addr ∨ Covers (touching newRange data) addr) :
    Spans (hull :: apart newRange data) := by
  intro r ok covered
  have bounds := (valid_iff r).mp ok
  have hullBounds := (valid_iff hull).mp hullOk
  have parts : ∀ addr, hull.Mem addr -> ∃ part : Range w, part.Mem addr ∧ part.inside hull = true ∧
      (part = newRange ∨ part ∈ touching newRange data ∧ part.Adjoins newRange) := by
    intro addr mem
    rcases (cover addr).mp mem with inNew | ⟨e, touched, inE⟩
    · exact ⟨newRange, inNew, inside_of_ends ((cover _).mpr (.inl (mem_start newOk)))
        ((cover _).mpr (.inl (mem_last newOk))), .inl rfl⟩
    obtain ⟨here, shape⟩ := mem_filter.mp touched
    have touch : e.touches newRange = true := (Bool.and_eq_true _ _ ▸ shape).2
    exact ⟨e, inE, inside_of_ends ((cover _).mpr (.inr ⟨e, touched, mem_start inE.valid⟩))
      ((cover _).mpr (.inr ⟨e, touched, mem_last inE.valid⟩)),
      .inr ⟨touched, genuine e here inE.valid touch⟩⟩
  have edge : ∀ addr part : _, r.Mem addr -> ¬ hull.Mem addr -> part.inside hull = true ->
      (part = newRange ∨ part ∈ touching newRange data ∧ part.Adjoins newRange) ->
      ¬ (part.last.toNat + 1 = addr.toNat ∨ addr.toNat + 1 = part.start.toNat) := by
    intro addr part inR outside _ made beside
    rcases (covers_cons _ _ _).mp (covered addr inR) with inHull | ⟨e, left, here⟩
    · exact outside inHull
    · obtain ⟨member, shape⟩ := mem_filter.mp left
      exact apart_beside pos spans newOk cover member here.valid (by simp_all) here outside made beside
  by_cases meets : ∃ addr, r.Mem addr ∧ hull.Mem addr
  · obtain ⟨addr, inR, inHull⟩ := meets
    rw [mem_iff] at inR inHull
    refine ⟨hull, mem_cons_self, hullOk, inside_iff.mpr ⟨?_, ?_⟩⟩
    · by_contra early
      have less : r.start < hull.start := BitVec.lt_def.mpr (by omega)
      have before := pred_toNat less
      obtain ⟨part, mem, inside, made⟩ := parts hull.start (mem_start hullOk)
      have low := (inside_iff.mp inside).1
      rw [mem_iff] at mem
      refine edge (hull.start - 1#w) part ?_ ?_ inside made (.inr (by omega)) <;> rw [mem_iff] <;> omega
    · by_contra late
      have less : hull.last < r.last := BitVec.lt_def.mpr (by omega)
      have after := succ_toNat less
      obtain ⟨part, mem, inside, made⟩ := parts hull.last (mem_last hullOk)
      have high := (inside_iff.mp inside).2
      rw [mem_iff] at mem
      refine edge (hull.last + 1#w) part ?_ ?_ inside made (.inl (by omega)) <;> rw [mem_iff] <;> omega
  · have old : ∀ addr, r.Mem addr -> Covers data addr := by
      intro addr inR
      rcases (covers_cons _ _ _).mp (covered addr inR) with inHull | ⟨e, left, here⟩
      · exact absurd ⟨addr, inR, inHull⟩ meets
      · exact ⟨e, (mem_filter.mp left).1, here⟩
    obtain ⟨y, member, yOk, wide⟩ := spans r ok old
    refine ⟨y, mem_cons_of_mem _ (mem_filter.mpr ⟨member, ?_⟩), yOk, wide⟩
    cases touch : y.touches newRange with
    | false => simp [yOk]
    | true =>
      have inHull := (cover r.start).mpr (.inr (covers_touching member touch ((mem_start ok).mono wide)))
      exact absurd ⟨r.start, mem_start ok, inHull⟩ meets

end Hull

section Wrapped

variable {newRange : Range w}

def Range.full : Range w := ⟨0#w, umax⟩

lemma full_valid : (Range.full : Range w).valid = true :=
  (valid_iff _).mpr (by simp [Range.full])

lemma inside_full (r : Range w) : r.inside Range.full = true := by
  have bound := r.last.isLt
  rw [inside_iff, Range.full, umax_toNat]
  exact ⟨by simp, by omega⟩

lemma getMinMax_full (ok : r.valid = true) (otherOk : other.valid = true) (low : r.start = 0#w ∨ other.start = 0#w)
    (high : r.last = umax ∨ other.last = umax) :
    r.getMinMax other = Range.full := by
  obtain ⟨first, last⟩ := getMinMax_bounds ok otherOk
  have top : (r.getMinMax other).last = umax := by
    rw [umax_iff, last]
    simp only [umax_iff] at high
    have bound := r.last.isLt
    have otherBound := other.last.isLt
    omega
  have bottom : (r.getMinMax other).start = 0#w := by
    rw [zero_iff, first]
    simp only [zero_iff] at low
    omega
  rw [Range.full, ← top, ← bottom]

lemma inside_getMinMax (newOk : newRange.valid = true) (ok : other.valid = true) (inside : newRange.inside r = true) :
    newRange.inside (r.getMinMax other) = true := by
  obtain ⟨low, high⟩ := inside_iff.mp inside
  have bounds := (valid_iff newRange).mp newOk
  obtain ⟨first, last⟩ := getMinMax_bounds ((valid_iff r).mpr (by omega)) ok
  rw [inside_iff]
  omega

lemma full_of_wraps {hull existing : Range w} (newOk : newRange.valid = true) (ok : existing.valid = true)
    (inside : newRange.inside hull = true) (wraps : existing.Wraps newRange) :
    hull.getMinMax existing = Range.full := by
  obtain ⟨low, high⟩ := inside_iff.mp inside
  have bounds := (valid_iff newRange).mp newOk
  have hullBound := hull.last.isLt
  have hullOk : hull.valid = true := (valid_iff hull).mpr (by omega)
  rcases wraps with ⟨top, bottom⟩ | ⟨top, bottom⟩
  · have first := (zero_iff _).mp bottom
    exact getMinMax_full hullOk ok (.inl ((zero_iff _).mpr (by omega))) (.inr top)
  · have last := (umax_iff _).mp top
    exact getMinMax_full hullOk ok (.inr bottom) (.inl ((umax_iff _).mpr (by omega)))

lemma mergeLoop_full (newOk : newRange.valid = true) (rest processed : RangeVector w)
    (found invalid : Option Nat)
    (held : ∀ f, found = some f -> ∃ hull, processed[f]? = some hull ∧ newRange.inside hull = true)
    (wraps : (∃ e ∈ rest, e.valid = true ∧ e.touches newRange = true ∧ e.Wraps newRange) ∨
      ∃ f, found = some f ∧ processed[f]? = some Range.full) :
    ∃ f, (mergeLoop newRange processed found invalid rest).2.1 = some f ∧
      (mergeLoop newRange processed found invalid rest).1[f]? = some Range.full := by
  fun_induction mergeLoop newRange processed found invalid rest with
  | case1 =>
    rcases wraps with ⟨e, member, _⟩ | done
    · cases member
    · exact done
  | case2 processed invalid existing rest ok touch f ih =>
    obtain ⟨hull, slot, inside⟩ := held f rfl
    have changed : (processed.modify f (fun r => r.getMinMax existing) ++ [Range.invalidated])[f]? =
        some (hull.getMinMax existing) :=
      slot_append _ (by rw [getElem?_modify_eq, slot]; rfl)
    refine ih ?_ ?_
    · rintro _ ⟨⟩
      exact ⟨_, changed, inside_getMinMax newOk ok inside⟩
    rcases wraps with ⟨e, member, eOk, eTouch, around⟩ | ⟨_, ⟨⟩, whole⟩
    · rcases mem_cons.mp member with rfl | later
      · exact .inr ⟨f, rfl, by rw [changed, full_of_wraps newOk ok inside around]⟩
      · exact .inl ⟨e, later, eOk, eTouch, around⟩
    · obtain rfl : Range.full = hull := Option.some.inj (whole.symm.trans slot)
      refine .inr ⟨f, rfl, ?_⟩
      rw [changed, getMinMax_full full_valid ok (.inl rfl) (.inl rfl)]
  | case3 processed invalid existing rest ok touch ih =>
    have own : newRange.inside newRange = true := inside_iff.mpr ⟨le_rfl, le_rfl⟩
    have same : existing.getMinMax newRange = newRange.getMinMax existing := by
      obtain ⟨first, last⟩ := getMinMax_bounds ok newOk
      obtain ⟨first', last'⟩ := getMinMax_bounds newOk ok
      rw [Range.mk.injEq]
      exact ⟨BitVec.eq_of_toNat_eq (by omega), BitVec.eq_of_toNat_eq (by omega)⟩
    refine ih ?_ ?_
    · rintro _ ⟨⟩
      exact ⟨_, getElem?_concat_length, same ▸ inside_getMinMax newOk ok own⟩
    rcases wraps with ⟨e, member, eOk, eTouch, around⟩ | ⟨_, ⟨⟩, _⟩
    rcases mem_cons.mp member with rfl | later
    · refine .inr ⟨_, rfl, ?_⟩
      rw [same, full_of_wraps newOk ok own around]
      exact getElem?_concat_length
    · exact .inl ⟨e, later, eOk, eTouch, around⟩
  | case4 processed found invalid existing rest ok free ih | case5 processed found invalid existing rest free ih =>
    refine ih (fun f at_f => ?_) ?_
    · obtain ⟨hull, slot, inside⟩ := held f at_f
      exact ⟨hull, slot_append existing slot, inside⟩
    rcases wraps with ⟨e, member, eOk, eTouch, around⟩ | ⟨f, at_f, slot⟩
    · rcases mem_cons.mp member with rfl | later
      · contradiction
      · exact .inl ⟨e, later, eOk, eTouch, around⟩
    · exact .inr ⟨f, at_f, slot_append existing slot⟩

end Wrapped

section Built

variable {data : RangeVector w}

lemma Spans.of_valid {entries : RangeVector w} (spans : Spans entries)
    (same : ∀ e, e ∈ entries ↔ e ∈ validEntries data) : Spans data := by
  intro r ok covered
  have inEntries : ∀ addr, r.Mem addr -> Covers entries addr := by
    intro addr mem
    obtain ⟨e, member, here⟩ := (covers_validEntries data addr).mpr (covered addr mem)
    exact ⟨e, (same e).mpr member, here⟩
  obtain ⟨e, member, valid, inside⟩ := spans r ok inEntries
  exact ⟨e, (mem_validEntries.mp ((same e).mp member)).1, valid, inside⟩

lemma merge_spans (pos : 0 < w) (spans : Spans data) (newRange : Range w) :
    Spans (merge data newRange) := by
  by_cases newOk : newRange.valid = true
  · by_cases genuine : ∀ e ∈ data, e.valid = true -> e.touches newRange = true -> e.Adjoins newRange
    · obtain ⟨hull, hullOk, same, cover⟩ := merge_exact pos newOk genuine
      exact (merged_spans pos spans newOk genuine hullOk cover).of_valid fun e => same.mem_iff.symm
    push Not at genuine
    obtain ⟨e, member, ok, touch, never⟩ := genuine
    have around := ((touches_iff pos ok newOk).mp touch).resolve_left never
    obtain ⟨f, at_f, slot⟩ := mergeLoop_full newOk data [] none none (fun f at_f => by cases at_f)
      (.inl ⟨e, member, ok, touch, around⟩)
    have full : Range.full ∈ merge data newRange := by
      rw [merge, if_pos newOk]
      rcases loop : mergeLoop newRange [] none none data with ⟨merged, found, invalid⟩
      rw [loop] at at_f slot
      obtain rfl : found = some f := at_f
      exact mem_of_getElem? slot
    exact fun r _ _ => ⟨Range.full, full, full_valid, inside_full r⟩
  · rwa [merge, if_neg newOk]

lemma pieces_spans {exclusion e : Range w} (exclusionOk : exclusion.valid = true) (ok : r.valid = true)
    (inside : r.inside e = true) (free : ∀ addr, r.Mem addr -> ¬ exclusion.Mem addr) :
    ∃ piece ∈ pieces exclusion e, r.inside piece = true := by
  rw [valid_iff] at exclusionOk ok
  obtain ⟨low, high⟩ := inside_iff.mp inside
  simp only [pieces, mem_append]
  by_cases before : r.last.toNat < exclusion.start.toNat
  · have below : e.start < exclusion.start := BitVec.lt_def.mpr (by omega)
    refine ⟨_, .inl (by rw [if_pos below]; exact mem_singleton.mpr rfl), inside_iff.mpr ?_⟩
    simp only [smaller_toNat, Range.prevAddress, pred_toNat below]
    omega
  have behind : exclusion.last.toNat < r.start.toNat := by
    by_contra meets
    have place := larger_toNat r.start exclusion.start
    refine free (larger r.start exclusion.start) ?_ ?_ <;> rw [mem_iff] <;> omega
  have above : exclusion.last < e.last := BitVec.lt_def.mpr (by omega)
  refine ⟨_, .inr (by rw [if_pos above]; exact mem_singleton.mpr rfl), inside_iff.mpr ?_⟩
  simp only [larger_toNat, Range.nextAddress, succ_toNat above]
  omega

lemma exclude_spans (pos : 0 < w) (spans : Spans data) (exclusion : Range w) :
    Spans (exclude data exclusion) := by
  by_cases exclusionOk : exclusion.valid = true
  · intro r ok covered
    have split := fun addr mem => (exclude_covers pos exclusionOk addr).mp (covered addr mem)
    obtain ⟨e, member, eOk, inside⟩ := spans r ok fun addr mem => (split addr mem).1
    obtain ⟨piece, isPiece, within⟩ := pieces_spans exclusionOk ok inside fun addr mem => (split addr mem).2
    have entry : piece ∈ validEntries (exclude data exclusion) :=
      (exclude_exact data pos exclusionOk).mem_iff.mpr
        (mem_flatMap.mpr ⟨e, mem_validEntries.mpr ⟨member, eOk⟩, isPiece⟩)
    exact ⟨piece, (mem_validEntries.mp entry).1, (mem_validEntries.mp entry).2, within⟩
  · rwa [exclude, if_neg exclusionOk]

lemma spans_empty : Spans ([] : RangeVector w) :=
  fun r ok covered => absurd (covered r.start (mem_start ok)) (covers_nil _)

lemma rangeCalls_spans (pos : 0 < w) (calls : List (RangeCall w)) (data : RangeVector w)
    (spans : Spans data) : Spans (calls.foldl RangeCall.apply data) := by
  induction calls generalizing data with
  | nil => exact spans
  | cons call rest ih =>
    refine ih _ ?_
    cases call with
    | merge range => exact merge_spans pos spans range
    | exclude range => exact exclude_spans pos spans range

lemma calls_spans (pos : 0 < w) (calls : List (Call w)) : Spans (calls.foldl Call.apply []) := by
  rw [calls_apply_ranges]
  exact rangeCalls_spans pos _ [] spans_empty

lemma overlaps_iff (ok : r.valid = true) :
    data.overlaps r = true ↔ ∃ addr, r.Mem addr ∧ Covers data addr := by
  have bounds := (valid_iff r).mp ok
  simp only [RangeVector.overlaps, any_eq_true, Bool.and_eq_true, Range.overlaps,
    decide_eq_true_eq, BitVec.le_def]
  constructor
  · rintro ⟨e, member, eOk, low, high⟩
    have eBounds := (valid_iff e).mp eOk
    have place := larger_toNat e.start r.start
    refine ⟨larger e.start r.start, ?_, e, member, ?_⟩ <;> rw [mem_iff] <;> omega
  · rintro ⟨addr, inR, e, member, inE⟩
    have eOk := inE.valid
    rw [mem_iff] at inR inE
    exact ⟨e, member, eOk, by omega, by omega⟩

lemma covered_iff (spans : Spans data) (ok : r.valid = true) :
    (∀ addr, r.Mem addr -> Covers data addr) ↔ ∃ e ∈ data, e.valid = true ∧ r.inside e = true := by
  constructor
  · exact spans r ok
  · rintro ⟨e, member, _, inside⟩ addr mem
    exact ⟨e, member, mem.mono inside⟩

lemma contains_iff :
    data.contains r = true ↔ ∃ e ∈ data, e.valid = true ∧ e.inside r = true := by
  simp only [RangeVector.contains, any_eq_true, Bool.and_eq_true]

end Built

def middleRange : Range 16 := ⟨0x0003#16, 0x0005#16⟩

end EmuCore.AddressRange
